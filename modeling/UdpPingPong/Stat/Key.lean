import UdpPingPong.Lib.Decimal

/- Strings and the keys of an associative array.

   1. `CString`: a string as the code reads it, up to its terminating 0, with the
      conversions `toInt64`, `toLong`, `toInt`, `toUnsignedLong`, `toUnsignedInt64`,
      `toDouble`;
   2. `ArrayKey.compare`: two numeric keys are compared as 64-bit numbers, all
      others as texts without regard to case;
   3. `explode` and `implode`: a key with slashes is a path;
   4. `canon` and `compare_eq_iff`: comparing equal is having the same normal
      form, so it is an equivalence. The comparison as a whole is no order:
      "10" < "1a" < "9" as texts, and 9 < 10 as numbers (`compare_cycle`). Numbers are
      less than what begins with a letter (`numeric_lt`);
   5. `explode_implode`: splitting what was joined gives the parts back. -/
namespace UdpPingPong

/-- The characters of a string in front of its terminating 0, one a byte. -/
abbrev CString := List Char

namespace CString

/-- The loop of `String::isNumeric`: `start` at the first character, `dotcount`
    points and commas so far. -/
def isNumericLoop (start : Bool) (dotcount : Nat) : CString → Bool
  | [] => true
  | c :: s =>
    if c < '0' ∨ '9' < c then
      if c ≠ '.' ∧ c ≠ ',' ∧ c ≠ '-' then false
      else if c = '-' ∧ ¬ start then false
      else if c = '.' ∨ c = ',' then
        if 1 < dotcount + 1 then false else isNumericLoop false (dotcount + 1) s
      else isNumericLoop false dotcount s
    else isNumericLoop false dotcount s

/-- `String::isNumeric`: digits, one point or comma, a minus in front. No digit
    is asked for, so "-" is numeric. -/
def isNumeric (s : CString) : Bool :=
  s ≠ [] && isNumericLoop true 0 s && s.getLast? ≠ some '.'

/-- `String::toInt64` and `String::toLong`, both `strtol` on 64 bits. -/
def toInt64 (s : CString) : Int64 :=
  if s = [] then 0
  else Int64.ofInt (Decimal.scanSigned Int64.minValue.toInt Int64.maxValue.toInt s)

def toLong (s : CString) : Int64 := s.toInt64

/-- `String::toInt`: the result of `strtol` cut to 32 bits. -/
def toInt (s : CString) : Int32 := s.toInt64.toInt32

def toUnsignedLong (s : CString) : UInt64 :=
  if s = [] then 0 else UInt64.ofNat (Decimal.scanNat (2 ^ 64 - 1) s)

/-- `String::toUnsignedInt64`, which is `strtoull`. -/
def toUnsignedInt64 (s : CString) : UInt64 :=
  if s = [] then 0 else UInt64.ofNat (Decimal.scanNat (2 ^ 64 - 1) s)

def toDouble (s : CString) : ℚ := if s = [] then 0 else Decimal.scanReal s

/-- `String::strCaseCmp`, which is `strcasecmp` in the C locale. -/
def strCaseCmp (s t : CString) : Ordering := compare (s.map Char.toLower) (t.map Char.toLower)

/-- `Array::explode` with the delimiter "/", skipping empty parts. -/
def explode (s : CString) : List CString := (s.splitOn '/').filter (· ≠ [])

/-- `Array::implode` with the delimiter "/". -/
def implode (tok : List CString) : CString := List.intercalate ['/'] tok

end CString

/-- `ArrayKey::compare`. -/
def ArrayKey.compare (s t : CString) : Ordering :=
  if s.isNumeric ∧ t.isNumeric then
    let v1 := s.toInt64
    let v2 := t.toInt64
    if v2 < v1 then .gt else if v1 < v2 then .lt else .eq
  else s.strCaseCmp t

/-- What of a key counts when keys are compared for being equal. -/
def ArrayKey.canon (s : CString) : Int64 ⊕ CString :=
  if s.isNumeric then .inl s.toInt64 else .inr (s.map Char.toLower)

/-! ## Comparing equal -/

namespace CString

/-- A character outside of what numbers are written with. -/
def Foreign (c : Char) : Prop := '9' < c ∧ c ≠ '.' ∧ c ≠ ',' ∧ c ≠ '-'

instance : DecidablePred Foreign :=
  fun c => inferInstanceAs (Decidable ('9' < c ∧ c ≠ '.' ∧ c ≠ ',' ∧ c ≠ '-'))

theorem Foreign.of_gt {c : Char} (h : '9' < c) : Foreign c := by
  refine ⟨h, ?_, ?_, ?_⟩ <;>
  · intro hc
    rw [hc] at h
    exact absurd h (by decide)

/-- Lower case changes only letters, and makes letters of them. -/
theorem toLower_cases (c : Char) : c.toLower = c ∨ Foreign c ∧ Foreign c.toLower := by
  by_cases h : c.val ≥ 'A'.val ∧ c.val ≤ 'Z'.val
  · refine Or.inr ⟨Foreign.of_gt ?_, Foreign.of_gt ?_⟩
    · exact UInt32.lt_of_lt_of_le (by decide) h.1
    · have hl := h.1
      have hh := h.2
      simp only [Char.toLower, h, and_self, dif_pos, Char.lt_def]
      rw [ge_iff_le, UInt32.le_iff_toNat_le] at hl
      rw [UInt32.le_iff_toNat_le] at hh
      rw [UInt32.lt_iff_toNat_lt, UInt32.toNat_add]
      have h9 : '9'.val.toNat = 57 := rfl
      have hA : 'A'.val.toNat = 65 := rfl
      have hZ : 'Z'.val.toNat = 90 := rfl
      have hd : ('a'.val - 'A'.val).toNat = 32 := rfl
      omega
  · exact Or.inl (by simp only [Char.toLower, h, dif_neg, not_false_eq_true])

theorem isNumericLoop_foreign {c : Char} (h : Foreign c) (start : Bool) (n : Nat) (s : CString) :
    isNumericLoop start n (c :: s) = false := by
  simp [isNumericLoop, h.1, h.2]

theorem isNumericLoop_map_toLower (start : Bool) (n : Nat) (s : CString) :
    isNumericLoop start n (s.map Char.toLower) = isNumericLoop start n s := by
  induction s generalizing start n with
  | nil => rfl
  | cons c s ih =>
    rw [List.map_cons]
    rcases toLower_cases c with h | ⟨hc, hl⟩
    · simp only [h, isNumericLoop, ih]
    · rw [isNumericLoop_foreign hl, isNumericLoop_foreign hc]

theorem isNumeric_map_toLower (s : CString) : isNumeric (s.map Char.toLower) = isNumeric s := by
  have hdot : ((s.map Char.toLower).getLast? = some '.') ↔ (s.getLast? = some '.') := by
    rw [List.getLast?_map, Option.map_eq_some_iff]
    refine ⟨?_, ?_⟩
    · intro h
      obtain ⟨c, hc, hl⟩ := h
      rcases toLower_cases c with h | ⟨-, h⟩
      · rw [hc, ← hl, h]
      · exact absurd hl h.2.1
    · intro h
      exact ⟨'.', h, by decide⟩
  simp only [isNumeric, isNumericLoop_map_toLower, hdot, ne_eq, List.map_eq_nil_iff]

end CString

namespace ArrayKey
open CString

theorem strCaseCmp_eq_iff (s t : CString) :
    s.strCaseCmp t = .eq ↔ s.map Char.toLower = t.map Char.toLower := by
  exact Std.compare_eq_iff_eq

/-- **Comparing equal is having the same normal form.** -/
theorem compare_eq_iff (s t : CString) : compare s t = .eq ↔ canon s = canon t := by
  simp only [compare, canon]
  -- a number and a text differ, as their lower case forms do
  have hmixed : s.map Char.toLower = t.map Char.toLower → s.isNumeric = t.isNumeric := by
    intro h
    rw [← isNumeric_map_toLower s, h, isNumeric_map_toLower]
  cases hs : s.isNumeric <;> cases ht : t.isNumeric
  case true.true =>
    simp only [and_self, if_true, Sum.inl.injEq]
    refine ⟨?_, ?_⟩
    · intro h
      split at h
      · cases h
      · next h2 =>
        split at h
        · cases h
        · next h1 => exact Int64.le_antisymm (Int64.not_lt.mp h2) (Int64.not_lt.mp h1)
    · intro h
      simp [h, Int64.lt_irrefl]
  all_goals
    simp only [hs, ht, Bool.false_eq_true, Bool.true_eq_false, imp_false, and_true, and_false,
      and_self, if_false, if_true, strCaseCmp_eq_iff, Sum.inr.injEq, reduceCtorEq, iff_false] at hmixed ⊢
  · exact hmixed
  · exact hmixed

/-- Compared the other way round, two keys compare the other way round. -/
theorem compare_swap (s t : CString) : compare s t = (compare t s).swap := by
  simp only [compare, and_comm (a := s.isNumeric = true)]
  split
  · simp only [Int64.lt_iff_toInt_lt]
    rcases lt_trichotomy s.toInt64.toInt t.toInt64.toInt with h | h | h
    · rw [if_neg h.not_gt, if_pos h, if_pos h]
      rfl
    · simp only [h, lt_irrefl, if_false, Ordering.swap]
    · rw [if_pos h, if_neg h.not_gt, if_pos h]
      rfl
  · exact Std.OrientedOrd.eq_swap

instance : Std.OrientedCmp compare := ⟨compare_swap _ _⟩

/-- The comparison is not transitive: a text can stand between two numbers the other way round. -/
theorem compare_cycle :
    compare "10".toList "1a".toList = .lt ∧ compare "1a".toList "9".toList = .lt ∧
      compare "9".toList "10".toList = .lt := by
  decide

end ArrayKey

/-! ## Numbers and words -/

namespace CString

theorem not_foreign_of_isNumeric {c : Char} {s : CString} (h : isNumeric (c :: s)) : ¬ Foreign c := by
  intro hc
  simp [isNumeric, isNumericLoop_foreign hc] at h

theorem le_of_isNumeric {c : Char} {s : CString} (h : isNumeric (c :: s)) : c ≤ '9' := by
  by_contra hc
  exact not_foreign_of_isNumeric h (Foreign.of_gt (Char.not_le.mp hc))

theorem toLower_of_isNumeric {c : Char} {s : CString} (h : isNumeric (c :: s)) : c.toLower = c :=
  (toLower_cases c).resolve_right fun hc => not_foreign_of_isNumeric h hc.1

theorem Foreign.toLower {c : Char} (h : Foreign c) : Foreign c.toLower := by
  rcases toLower_cases c with hc | hc
  · rwa [hc]
  · exact hc.2

instance : Std.TransCmp strCaseCmp where
  eq_swap := Std.OrientedOrd.eq_swap
  isLE_trans := Std.TransOrd.isLE_trans

end CString

namespace ArrayKey
open CString

/-- A key that begins behind the digits, with a letter for one. -/
def Worded (k : CString) : Prop := ∃ c ∈ k.head?, Foreign c

/-- The keys among which the comparison is an order. -/
def Orderly (k : CString) : Prop := k.isNumeric ∨ Worded k

theorem Worded.not_numeric {k : CString} (h : Worded k) : ¬ k.isNumeric := by
  obtain ⟨c, hc, hf⟩ := h
  obtain ⟨t, rfl⟩ := List.head?_eq_some_iff.mp hc
  exact fun hn => not_foreign_of_isNumeric hn hf

theorem compare_of_not_numeric {s t : CString} (h : ¬ (s.isNumeric ∧ t.isNumeric)) :
    compare s t = s.strCaseCmp t := if_neg h

theorem Worded.compare_eq {k : CString} (hk : Worded k) (s : CString) : compare s k = s.strCaseCmp k :=
  compare_of_not_numeric fun h => hk.not_numeric h.2

/-- Numbers are in front of all words. -/
theorem numeric_lt {s k : CString} (h : s.isNumeric) (hk : Worded k) : compare s k = .lt := by
  rw [hk.compare_eq]
  obtain ⟨c, hc, hf⟩ := hk
  obtain ⟨t, rfl⟩ := List.head?_eq_some_iff.mp hc
  cases s with
  | nil => cases h
  | cons d s =>
    have hlt : d < c.toLower := lt_of_le_of_lt (le_of_isNumeric h) hf.toLower.1
    rw [strCaseCmp, List.map_cons, List.map_cons, List.compare_cons_cons, toLower_of_isNumeric h,
      compare_lt_iff_lt.mpr hlt]
    rfl

end ArrayKey

/-! ## Paths -/

namespace CString

/-- A part of a path: not empty and without a slash. -/
def IsPart (k : CString) : Prop := k ≠ [] ∧ '/' ∉ k

instance : DecidablePred IsPart := fun k => inferInstanceAs (Decidable (k ≠ [] ∧ '/' ∉ k))

/-- Splitting what was joined. The functions that walk a path join what is left
    of it and split it again for the next level: they meet the same parts. -/
theorem explode_implode {tok : List CString} (hne : tok ≠ []) (h : ∀ k ∈ tok, IsPart k) :
    explode (implode tok) = tok := by
  rw [explode, implode, List.splitOn_intercalate '/' (fun k hk => (h k hk).2) hne]
  exact List.filter_eq_self.mpr fun k hk => decide_eq_true (h k hk).1

/-! ## Numbers -/

@[simp] theorem toUnsignedLong_printNat (u : UInt64) :
    toUnsignedLong (Decimal.printNat u.toNat) = u := by
  have hu : u.toNat ≤ 2 ^ 64 - 1 := Nat.le_pred_of_lt u.toNat_lt
  rw [toUnsignedLong, if_neg (Decimal.printNat_ne_nil _), Decimal.scanNat_printNat hu]
  exact UInt64.ofNat_toNat

@[simp] theorem toLong_printInt (i : Int64) : toLong (Decimal.printInt i.toInt) = i := by
  rw [toLong, toInt64, if_neg (Decimal.printInt_ne_nil _),
    Decimal.scanSigned_printInt (Int64.minValue_le_toInt i) (Int64.toInt_le i)]
  exact Int64.ofInt_toInt i

@[simp] theorem toInt_printInt (i : Int32) : toInt (Decimal.printInt i.toInt) = i := by
  have hi : i.toInt = i.toInt64.toInt := (Int32.toInt_toInt64 i).symm
  rw [toInt, hi]
  show (toLong (Decimal.printInt i.toInt64.toInt)).toInt32 = i
  rw [toLong_printInt]
  exact Int32.toInt32_toInt64 i

@[simp] theorem toDouble_printFixed6 (k : Int) :
    toDouble (Decimal.printFixed6 (k / 1000000)) = k / 1000000 := by
  rw [toDouble, if_neg (Decimal.printFixed6_ne_nil _), Decimal.scanReal_printFixed6]

end CString

end UdpPingPong
