import Mathlib

/- Decimal texts, written as `printf` writes them and read as the `strtol` family does.

   1. `printNat`, `printInt`, `printFixed6`: the conversions `%lu`, `%d`/`%ld` and
      `%0.6f`. A text is the list of its characters;
   2. `scanNat` and `scanSigned`: white space, a sign and the longest run of
      digits, saturated at the bounds of the result type; `scanReal` reads the
      decimal point too. What follows the number is ignored;
   3. `scanNat_printNat`, `scanSigned_printInt`, `scanReal_printFixed6`: reading
      undoes writing, for numbers within the bounds and, with six decimals, for
      the multiples of a millionth. -/
namespace Decimal

/-! ## Writing -/

/-- The conversion `%lu`: the digits without leading zeros. -/
def printNat (n : Nat) : List Char := Nat.toDigits 10 n

/-- The conversions `%d` and `%ld`. -/
def printInt : Int → List Char
  | .ofNat n => printNat n
  | .negSucc n => '-' :: printNat (n + 1)

/-- `n` in six digits; more only if it needs more. -/
def pad6 (n : Nat) : List Char :=
  List.replicate (6 - (printNat n).length) '0' ++ printNat n

/-- The nearest integer, a tie going to the even neighbour. -/
def roundHalfEven (q : ℚ) : Int :=
  let f := ⌊q⌋
  let r := q - f
  if r < 1 / 2 then f else if 1 / 2 < r then f + 1 else if f % 2 = 0 then f else f + 1

/-- The conversion `%0.6f`. The sign is that of the number, also where it is rounded to 0. -/
def printFixed6 (q : ℚ) : List Char :=
  let m := (roundHalfEven (|q| * 1000000)).toNat
  (if q < 0 then ['-'] else []) ++ printNat (m / 1000000) ++ '.' :: pad6 (m % 1000000)

/-! ## Reading -/

/-- `isspace` of the C locale. -/
def isSpace (c : Char) : Bool := c = ' ' || (9 ≤ c.toNat && c.toNat ≤ 13)

/-- The sign, `true` for a minus, and what follows it. -/
def scanSign : List Char → Bool × List Char
  | '-' :: s => (true, s)
  | '+' :: s => (false, s)
  | s => (false, s)

/-- White space skipped, the sign, and the number read from the digits. -/
def scanDigits (s : List Char) : Bool × Nat :=
  let t := scanSign (s.dropWhile isSpace)
  (t.1, Nat.ofDigitChars 10 (t.2.takeWhile Char.isDigit) 0)

/-- `strtoul` for results up to `hi`: a number too large gives `hi`, and a minus
    sign negates the result in the arithmetic modulo `hi + 1`. -/
def scanNat (hi : Nat) (s : List Char) : Nat :=
  let t := scanDigits s
  if hi < t.2 then hi else if t.1 then (hi + 1 - t.2) % (hi + 1) else t.2

/-- `strtol` for results from `lo` to `hi`: a number outside gives the nearer bound. -/
def scanSigned (lo hi : Int) (s : List Char) : Int :=
  let t := scanDigits s
  if t.1 then max lo (-t.2) else min hi t.2

/-- `atof` on decimal notation (no exponent, no hexadecimal form, no names). -/
def scanReal (s : List Char) : ℚ :=
  let t := scanSign (s.dropWhile isSpace)
  let whole := t.2.takeWhile Char.isDigit
  let fraction := match t.2.dropWhile Char.isDigit with
    | '.' :: u => u.takeWhile Char.isDigit
    | _ => []
  let q : ℚ := Nat.ofDigitChars 10 (whole ++ fraction) 0 / 10 ^ fraction.length
  if t.1 then -q else q

/-- A decimal numeral: digits, and nothing else. -/
def Numeral (s : List Char) : Prop := s ≠ [] ∧ ∀ c ∈ s, c.isDigit

instance (s : List Char) : Decidable (Numeral s) :=
  decidable_of_iff (s ≠ [] ∧ s.all Char.isDigit = true) (by simp [Numeral])

/-- The number a numeral stands for. -/
def numeralValue (s : List Char) : Nat := Nat.ofDigitChars 10 s 0

/-! ## Digits -/

theorem isDigit_of_mem_printNat {n : Nat} {c : Char} (h : c ∈ printNat n) : c.isDigit :=
  Nat.isDigit_of_mem_toDigits (by decide) (by decide) h

theorem printNat_ne_nil (n : Nat) : printNat n ≠ [] := Nat.toDigits_ne_nil

theorem printInt_ne_nil (i : Int) : printInt i ≠ [] := by
  cases i with
  | ofNat n => exact printNat_ne_nil n
  | negSucc n => exact List.cons_ne_nil _ _

theorem printFixed6_ne_nil (q : ℚ) : printFixed6 q ≠ [] := by
  simp [printFixed6]

theorem isDigit_of_mem_pad6 {n : Nat} {c : Char} (h : c ∈ pad6 n) : c.isDigit := by
  rcases List.mem_append.mp h with h | h
  · rw [List.eq_of_mem_replicate h]
    decide
  · exact isDigit_of_mem_printNat h

theorem ofDigitChars_pad6 (n : Nat) : Nat.ofDigitChars 10 (pad6 n) 0 = n := by
  rw [pad6, Nat.ofDigitChars_append, Nat.ofDigitChars_replicate_zero, Nat.mul_zero]
  exact Nat.ofDigitChars_ten_toDigits

theorem pad6_length {n : Nat} (h : n < 1000000) : (pad6 n).length = 6 := by
  have hle : (printNat n).length ≤ 6 := by
    apply (Nat.length_toDigits_le_iff (by decide) (by decide)).mpr
    exact h
  simp only [pad6, List.length_append, List.length_replicate]
  omega

/-- A text of digits followed by something else is cut where the digits end. -/
theorem takeWhile_digits {d rest : List Char} (hd : ∀ c ∈ d, c.isDigit)
    (hr : ∀ c ∈ rest.head?, ¬ c.isDigit) : (d ++ rest).takeWhile Char.isDigit = d := by
  rw [List.takeWhile_append_of_pos hd]
  cases rest with
  | nil => simp
  | cons c rest => simp [hr c (by simp)]

theorem dropWhile_digits {d rest : List Char} (hd : ∀ c ∈ d, c.isDigit)
    (hr : ∀ c ∈ rest.head?, ¬ c.isDigit) : (d ++ rest).dropWhile Char.isDigit = rest := by
  rw [List.dropWhile_append_of_pos hd]
  cases rest with
  | nil => rfl
  | cons c rest => simp [hr c (by simp)]

theorem not_isSpace_of_isDigit {c : Char} (h : c.isDigit) : isSpace c = false := by
  have hc : 48 ≤ c.toNat := by
    simp only [Char.isDigit, ge_iff_le, Bool.and_eq_true, decide_eq_true_eq] at h
    exact UInt32.le_iff_toNat_le.mp h.1
  have hne : c ≠ ' ' := by
    intro hs
    rw [hs] at hc
    exact absurd hc (by decide)
  simp only [isSpace, hne, decide_false, Bool.false_or, Bool.and_eq_false_iff, decide_eq_false_iff_not]
  omega

theorem scanSign_of_isDigit {c : Char} {s : List Char} (h : c.isDigit) :
    scanSign (c :: s) = (false, c :: s) := by
  have hm : c ≠ '-' := by
    intro hc
    rw [hc] at h
    exact absurd h (by decide)
  have hp : c ≠ '+' := by
    intro hc
    rw [hc] at h
    exact absurd h (by decide)
  simp [scanSign, hm, hp]

/-- The sign in front of a text that starts with a digit is the sign read. -/
theorem scanSign_signed {d : List Char} (neg : Bool) (hne : d ≠ []) (hd : ∀ c ∈ d, c.isDigit)
    (rest : List Char) :
    scanSign (((if neg then ['-'] else []) ++ d ++ rest).dropWhile isSpace) = (neg, d ++ rest) := by
  obtain ⟨c, d, rfl⟩ := List.exists_cons_of_ne_nil hne
  have hc := hd c List.mem_cons_self
  cases neg with
  | true => rfl
  | false =>
    simp only [Bool.false_eq_true, if_false, List.nil_append, List.cons_append]
    rw [List.dropWhile_cons_of_neg (by simp [not_isSpace_of_isDigit hc])]
    exact scanSign_of_isDigit hc

/-! ## Reading undoes writing -/

theorem scanDigits_digits (neg : Bool) {d : List Char} (hne : d ≠ []) (hd : ∀ c ∈ d, c.isDigit) :
    scanDigits ((if neg then ['-'] else []) ++ d) = (neg, Nat.ofDigitChars 10 d 0) := by
  have hs := scanSign_signed neg hne hd []
  have ht : d.takeWhile Char.isDigit = d := by
    have := @takeWhile_digits d [] hd (by simp)
    simpa using this
  simp only [List.append_nil] at hs
  simp only [scanDigits, hs, ht]

theorem scanDigits_printNat (neg : Bool) (n : Nat) :
    scanDigits ((if neg then ['-'] else []) ++ printNat n) = (neg, n) := by
  rw [scanDigits_digits neg (printNat_ne_nil n) fun c => isDigit_of_mem_printNat]
  exact congrArg (neg, ·) Nat.ofDigitChars_ten_toDigits

theorem scanDigits_printInt (i : Int) : scanDigits (printInt i) = (decide (i < 0), i.natAbs) := by
  cases i with
  | ofNat n => exact scanDigits_printNat false n
  | negSucc n =>
    have hn : decide (Int.negSucc n < 0) = true := by simp
    rw [hn]
    exact scanDigits_printNat true (n + 1)

theorem scanDigits_numeral {s : List Char} (h : Numeral s) : scanDigits s = (false, numeralValue s) :=
  scanDigits_digits false h.1 h.2

/-- `strtoul` on a numeral. -/
theorem scanNat_numeral {hi : Nat} {s : List Char} (h : Numeral s) : scanNat hi s = min (numeralValue s) hi := by
  rw [scanNat, scanDigits_numeral h]
  simp only [Bool.false_eq_true, if_false]
  split <;> omega

/-- `strtol` on a numeral. -/
theorem scanSigned_numeral {lo hi : Int} {s : List Char} (h : Numeral s) :
    scanSigned lo hi s = min hi (numeralValue s) := by
  rw [scanSigned, scanDigits_numeral h]
  rfl

/-- The result of `strtol` lies within the bounds. -/
theorem scanSigned_mem (lo hi : Int) (hlo : lo ≤ 0) (hhi : 0 ≤ hi) (s : List Char) :
    lo ≤ scanSigned lo hi s ∧ scanSigned lo hi s ≤ hi := by
  simp only [scanSigned]
  split <;> omega

/-- `strtoul` on nothing but digits. -/
theorem scanNat_digits {hi : Nat} {d : List Char} (hne : d ≠ []) (hd : ∀ c ∈ d, c.isDigit)
    (h : Nat.ofDigitChars 10 d 0 ≤ hi) : scanNat hi d = Nat.ofDigitChars 10 d 0 := by
  have hs : scanDigits d = (false, Nat.ofDigitChars 10 d 0) := scanDigits_digits false hne hd
  simp [scanNat, hs, Nat.not_lt.mpr h]

/-- **`strtoul` undoes `%lu`.** -/
theorem scanNat_printNat {hi n : Nat} (h : n ≤ hi) : scanNat hi (printNat n) = n := by
  have hs : scanDigits (printNat n) = (false, n) := scanDigits_printNat false n
  simp [scanNat, hs, Nat.not_lt.mpr h]

/-- **`strtol` undoes `%ld`.** -/
theorem scanSigned_printInt {lo hi i : Int} (hl : lo ≤ i) (hh : i ≤ hi) :
    scanSigned lo hi (printInt i) = i := by
  simp only [scanSigned, scanDigits_printInt, decide_eq_true_eq]
  split <;> omega

theorem roundHalfEven_intCast (i : Int) : roundHalfEven i = i := by
  simp [roundHalfEven]

/-- The text of `n` millionths, and what is read from it. -/
theorem ofDigitChars_fixed6 (n : Nat) :
    Nat.ofDigitChars 10 (printNat (n / 1000000) ++ pad6 (n % 1000000)) 0 = n := by
  have hw : Nat.ofDigitChars 10 (printNat (n / 1000000)) 0 = n / 1000000 :=
    Nat.ofDigitChars_ten_toDigits
  rw [Nat.ofDigitChars_append, hw, Nat.ofDigitChars_eq_ofDigitChars_zero, ofDigitChars_pad6,
    pad6_length (Nat.mod_lt n (by decide))]
  exact Nat.div_add_mod n 1000000

theorem scanReal_fixed6 (neg : Bool) (n : Nat) :
    scanReal ((if neg then ['-'] else []) ++ printNat (n / 1000000) ++ '.' :: pad6 (n % 1000000)) =
      if neg then -(n / 1000000 : ℚ) else n / 1000000 := by
  have hw : ∀ c ∈ printNat (n / 1000000), c.isDigit := fun c => isDigit_of_mem_printNat
  have hf : ∀ c ∈ pad6 (n % 1000000), c.isDigit := fun c => isDigit_of_mem_pad6
  have hdot : ∀ c ∈ ('.' :: pad6 (n % 1000000)).head?, ¬ c.isDigit := by simp
  have hs := scanSign_signed neg (printNat_ne_nil (n / 1000000)) hw ('.' :: pad6 (n % 1000000))
  have hfrac : (pad6 (n % 1000000)).takeWhile Char.isDigit = pad6 (n % 1000000) := by
    have := @takeWhile_digits (pad6 (n % 1000000)) [] hf (by simp)
    simpa using this
  simp only [scanReal, hs, takeWhile_digits hw hdot, dropWhile_digits hw hdot, hfrac,
    ofDigitChars_fixed6, pad6_length (Nat.mod_lt n (by decide : 0 < 1000000))]
  norm_num

/-- **`atof` undoes `%0.6f`** on the multiples of a millionth. -/
theorem scanReal_printFixed6 (k : Int) : scanReal (printFixed6 (k / 1000000)) = k / 1000000 := by
  have hm : roundHalfEven (|(k : ℚ) / 1000000| * 1000000) = |k| := by
    rw [abs_div, abs_of_pos (by norm_num : (0 : ℚ) < 1000000), div_mul_cancel₀ _ (by norm_num)]
    exact_mod_cast roundHalfEven_intCast |k|
  have hneg : ((k : ℚ) / 1000000 < 0) ↔ k < 0 := by
    rw [div_lt_iff₀ (by norm_num), zero_mul]
    exact Int.cast_lt_zero
  have htext : printFixed6 (k / 1000000) = (if decide (k < 0) then ['-'] else []) ++
      printNat (k.natAbs / 1000000) ++ '.' :: pad6 (k.natAbs % 1000000) := by
    simp only [printFixed6, hm, hneg, decide_eq_true_eq, Int.abs_eq_natAbs, Int.toNat_natCast]
  rw [htext, scanReal_fixed6, Nat.cast_natAbs]
  by_cases hk : k < 0
  · simp [hk, abs_of_neg hk, neg_div]
  · simp [hk, abs_of_nonneg (Int.not_lt.mp hk)]

end Decimal
