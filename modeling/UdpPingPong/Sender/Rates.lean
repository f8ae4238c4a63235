import UdpPingPong.Lib.Progression
import UdpPingPong.Lib.While
import UdpPingPong.Text

/- The rates of a session: `UDPSender::getQueryRates` reads the argument of -r.

   The argument is a range A-B,S, or a list with commas. A range is recognized by the
   library PCRE, which is a parameter, and expanded by a loop over 64-bit words.

   1. `toUnsignedInt64_numeral`: a numeral too large for a word becomes the largest one;
   2. `expansion_ends_iff`: the loop ends exactly when its counter meets a word beyond B
      before it repeats itself;
   3. `query_rates_right`: a range whose step is positive and whose end lies a step
      below 2^64 becomes its numbers, any other argument the parts between its commas. -/
namespace UdpPingPong

open CString Decimal While Progression

/-! ## The pattern -/

/-- The three groups of a match of `^([0-9]+)-([0-9]+),([0-9]+)$`. -/
structure RangeMatch where
  first : CString
  last : CString
  step : CString
  deriving DecidableEq, Repr

/-- The text has the form A-B,S with the numerals of `m`. -/
structure IsRange (s : CString) (m : RangeMatch) : Prop where
  text : s = m.first ++ '-' :: (m.last ++ ',' :: m.step)
  first : Numeral m.first
  last : Numeral m.last
  step : Numeral m.step

/-- **What is assumed of PCRE**: on a text without newline and 0 it finds the pattern, with its groups,
    where the text has that form, and nowhere else. -/
def MatchesRange (pcre : CString → Option RangeMatch) : Prop :=
  ∀ s, '\n' ∉ s → '\x00' ∉ s → ∀ m, pcre s = some m ↔ IsRange s m

/-- `String::pregMatch` with that pattern. -/
def pregMatch (pcre : CString → Option RangeMatch) (s : CString) : Option RangeMatch :=
  if s = [] then none else pcre s

/-- `getQueryRates`, with fuel for its loop. -/
def getQueryRates (pcre : CString → Option RangeMatch) (fuel : Nat) (queryRates : CString) :
    Option (List CString) :=
  if queryRates = [] then some ["0".toList]
  else match pregMatch pcre queryRates with
    | some m => loop (fun i : UInt64 => i ≤ m.last.toUnsignedInt64) (fun i => i + m.step.toUnsignedInt64)
        (fun i => printNat i.toNat) fuel m.first.toUnsignedInt64
    | none => some (arrayExplode ',' 0 false queryRates)

/-- The result of `getQueryRates`, whatever fuel it has from some amount on. -/
def RatesAre (pcre : CString → Option RangeMatch) (queryRates : CString) (rates : List CString) : Prop :=
  ∃ n, ∀ fuel, n ≤ fuel → getQueryRates pcre fuel queryRates = some rates

/-- **The expansion ends**: with some fuel there is a result. -/
def ExpansionEnds (pcre : CString → Option RangeMatch) (queryRates : CString) : Prop :=
  ∃ fuel rates, getQueryRates pcre fuel queryRates = some rates

/-! ## Numbers -/

theorem toUnsignedInt64_numeral {s : CString} (h : Numeral s) :
    s.toUnsignedInt64.toNat = min (numeralValue s) (2 ^ 64 - 1) := by
  rw [toUnsignedInt64, if_neg h.1, UInt64.toNat_ofNat', scanNat_numeral h]
  omega

section
variable (a s : UInt64)

/-- The counter of the loop after `k` rounds. -/
theorem iterate_add_toNat (k : Nat) : ((fun i => i + s)^[k] a).toNat = (a.toNat + k * s.toNat) % 2 ^ 64 := by
  induction k with
  | zero => rw [Function.iterate_zero_apply, Nat.zero_mul, Nat.add_zero, Nat.mod_eq_of_lt a.toNat_lt]
  | succ k ih =>
    calc ((fun i => i + s)^[k + 1] a).toNat
        = (((fun i => i + s)^[k] a).toNat + s.toNat) % 2 ^ 64 := by
          rw [Function.iterate_succ_apply', UInt64.toNat_add]
      _ = (a.toNat + k * s.toNat + s.toNat) % 2 ^ 64 := by rw [ih, Nat.mod_add_mod]
      _ = (a.toNat + (k + 1) * s.toNat) % 2 ^ 64 := by rw [Nat.succ_mul, Nat.add_assoc]

end

/-! ## Texts of the form -/

section
variable {pcre : CString → Option RangeMatch} {arg : CString} {m : RangeMatch}

theorem IsRange.not_mem (h : IsRange arg m) {c : Char} (hc : ¬ c.isDigit) (hminus : c ≠ '-') (hcomma : c ≠ ',') :
    c ∉ arg := by
  intro hmem
  rw [h.text] at hmem
  simp only [List.mem_append, List.mem_cons, hminus, hcomma, false_or] at hmem
  rcases hmem with hmem | hmem | hmem
  · exact hc (h.first.2 c hmem)
  · exact hc (h.last.2 c hmem)
  · exact hc (h.step.2 c hmem)

/-- The loop that a text of the form runs. -/
theorem getQueryRates_range (hpcre : MatchesRange pcre) (h : IsRange arg m) (fuel : Nat) :
    getQueryRates pcre fuel arg = loop (fun i : UInt64 => i ≤ m.last.toUnsignedInt64)
      (fun i => i + m.step.toUnsignedInt64) (fun i => printNat i.toNat) fuel m.first.toUnsignedInt64 := by
  have hne : arg ≠ [] := by
    rw [h.text]
    simp
  have hm : pcre arg = some m :=
    (hpcre arg (h.not_mem (by decide) (by decide) (by decide)) (h.not_mem (by decide) (by decide) (by decide)) m).mpr h
  rw [getQueryRates, if_neg hne, pregMatch, if_neg hne, hm]

/-! ## The loop -/

/-- The largest word that is A plus a multiple of S modulo 2^64. -/
def RangeMatch.top (m : RangeMatch) : Nat :=
  let g := Nat.gcd m.step.toUnsignedInt64.toNat (2 ^ 64)
  2 ^ 64 - g + m.first.toUnsignedInt64.toNat % g

theorem ends_iff_top (m : RangeMatch) : Ends (fun i : UInt64 => i ≤ m.last.toUnsignedInt64)
    (fun i => i + m.step.toUnsignedInt64) (fun i => printNat i.toNat) m.first.toUnsignedInt64 ↔
      m.last.toUnsignedInt64.toNat < m.top := by
  simp only [ends_iff, UInt64.le_iff_toNat_le, iterate_add_toNat, Nat.not_le]
  exact exists_residue_gt_iff _ _ (by decide) _

/-- **When the expansion ends**: the counter gets beyond B, at the largest word it takes if nowhere else. -/
theorem expansion_ends_iff (hpcre : MatchesRange pcre) (h : IsRange arg m) :
    ExpansionEnds pcre arg ↔ m.last.toUnsignedInt64.toNat < m.top := by
  simp only [ExpansionEnds, getQueryRates_range hpcre h]
  exact ends_iff_top m

end

/-- The pattern, matched by hand. -/
def matchRange (s : CString) : Option RangeMatch :=
  match s.dropWhile Char.isDigit with
  | '-' :: t => match t.dropWhile Char.isDigit with
    | ',' :: step =>
      if Numeral (s.takeWhile Char.isDigit) ∧ Numeral (t.takeWhile Char.isDigit) ∧ Numeral step then
        some { first := s.takeWhile Char.isDigit, last := t.takeWhile Char.isDigit, step }
      else none
    | _ => none
  | _ => none

theorem matchRange_matches : MatchesRange matchRange := by
  intro s _ _ m
  refine ⟨?_, ?_⟩
  · intro h
    unfold matchRange at h
    split at h
    · next t ht =>
      split at h
      · next step hstep =>
        split at h
        · next hnum =>
          obtain rfl := Option.some.inj h
          refine ⟨?_, hnum.1, hnum.2.1, hnum.2.2⟩
          rw [← hstep, List.takeWhile_append_dropWhile, ← ht, List.takeWhile_append_dropWhile]
        · cases h
      · cases h
    · cases h
  · intro h
    obtain ⟨rfl, hfirst, hlast, hstep⟩ := h
    have hminus : ∀ c ∈ ('-' :: (m.last ++ ',' :: m.step)).head?, ¬ c.isDigit := by simp
    have hcomma : ∀ c ∈ (',' :: m.step).head?, ¬ c.isDigit := by simp
    simp only [matchRange, dropWhile_digits hfirst.2 hminus, takeWhile_digits hfirst.2 hminus,
      dropWhile_digits hlast.2 hcomma, takeWhile_digits hlast.2 hcomma]
    rw [if_pos ⟨hfirst, hlast, hstep⟩]

/-- The range 10-30,10. -/
def tens : RangeMatch := { first := "10".toList, last := "30".toList, step := "10".toList }

theorem tens_isRange : IsRange "10-30,10".toList tens := by
  refine ⟨?_, ?_, ?_, ?_⟩ <;> decide +kernel

theorem expansion_ends_iff_tens : ExpansionEnds matchRange "10-30,10".toList ↔
    tens.last.toUnsignedInt64.toNat < tens.top :=
  expansion_ends_iff matchRange_matches tens_isRange

/-- The range 1-10,0. -/
def stepZero : RangeMatch := { first := "1".toList, last := "10".toList, step := "0".toList }

/-- All words. -/
def allWords : RangeMatch := { first := "0".toList, last := "18446744073709551615".toList, step := "1".toList }

/-- A step of 0, and a range up to the largest word, are expanded for ever. -/
theorem endless_expansions : ¬ ExpansionEnds matchRange "1-10,0".toList ∧
    ¬ ExpansionEnds matchRange "0-18446744073709551615,1".toList := by
  have hzero : IsRange "1-10,0".toList stepZero := by
    refine ⟨?_, ?_, ?_, ?_⟩ <;> decide +kernel
  have hall : IsRange "0-18446744073709551615,1".toList allWords := by
    refine ⟨?_, ?_, ?_, ?_⟩ <;> decide +kernel
  simp only [ExpansionEnds, getQueryRates_range matchRange_matches hzero, getQueryRates_range matchRange_matches hall]
  refine ⟨?_, ?_⟩
  · intro h
    exact absurd ((ends_iff_top stepZero).mp h) (by decide +kernel)
  · intro h
    exact absurd ((ends_iff_top allWords).mp h) (by decide +kernel)

/-! ## What the list is -/

/-- The loop counts through the terms of a progression, if a round beyond the last one does not wrap around. -/
theorem returns_terms {a b s : UInt64} (hstep : 1 ≤ s.toNat) (hlast : b.toNat + s.toNat < 2 ^ 64) :
    Returns (fun i => i ≤ b) (fun i => i + s) (fun i => printNat i.toNat) a
      ((terms a.toNat b.toNat s.toNat).map printNat) := by
  have hcounter : ∀ k, k ≤ termCount a.toNat b.toNat s.toNat →
      ((fun i => i + s)^[k] a).toNat = a.toNat + k * s.toNat := by
    intro k hk
    have ha := a.toNat_lt
    have hround : k * s.toNat ≤ b.toNat + s.toNat - a.toNat := (Nat.le_div_iff_mul_le (by omega)).mp hk
    rw [iterate_add_toNat, Nat.mod_eq_of_lt (by omega)]
  have hrates : (terms a.toNat b.toNat s.toNat).map printNat =
      (List.range (termCount a.toNat b.toNat s.toNat)).map fun j => printNat ((fun i => i + s)^[j] a).toNat := by
    rw [terms, List.map_map]
    apply List.map_congr_left
    intro j hj
    rw [hcounter j (List.mem_range.mp hj).le]
    rfl
  rw [hrates]
  apply returns_of_iterate
  · intro j hj
    rw [UInt64.le_iff_toNat_le, hcounter j hj.le]
    exact (lt_termCount_iff hstep).mp hj
  · rw [UInt64.le_iff_toNat_le, hcounter _ (le_refl _), ← lt_termCount_iff hstep]
    exact lt_irrefl _

/-- The loop counts through the numbers of the range. -/
theorem ratesAre_terms {pcre : CString → Option RangeMatch} (hpcre : MatchesRange pcre) {arg : CString}
    {m : RangeMatch} (h : IsRange arg m) (hstep : 1 ≤ numeralValue m.step)
    (hlast : numeralValue m.last + numeralValue m.step < 2 ^ 64) :
    RatesAre pcre arg ((terms (numeralValue m.first) (numeralValue m.last) (numeralValue m.step)).map printNat) := by
  have hb : m.last.toUnsignedInt64.toNat = numeralValue m.last := by
    rw [toUnsignedInt64_numeral h.last]
    omega
  have hs : m.step.toUnsignedInt64.toNat = numeralValue m.step := by
    rw [toUnsignedInt64_numeral h.step]
    omega
  have hterms : terms (numeralValue m.first) (numeralValue m.last) (numeralValue m.step) =
      terms m.first.toUnsignedInt64.toNat m.last.toUnsignedInt64.toNat m.step.toUnsignedInt64.toNat := by
    rw [hb, hs, toUnsignedInt64_numeral h.first]
    rcases Nat.lt_or_ge (numeralValue m.first) (2 ^ 64) with hfirst | hfirst
    · rw [Nat.min_eq_left (by omega)]
    · -- a start that is too large for a word is beyond the end, as is the largest word
      rw [terms_eq_nil hstep (by omega), terms_eq_nil hstep (by omega)]
  simp only [RatesAre, getQueryRates_range hpcre h]
  rw [hterms]
  exact returns_terms (by omega) (by omega)

/-- **The rates are what the argument says.** -/
structure RatesRight (pcre : CString → Option RangeMatch) (arg : CString) : Prop where
  /-- The numbers of a range, in increasing order. -/
  range : ∀ m, IsRange arg m → 1 ≤ numeralValue m.step → numeralValue m.last + numeralValue m.step < 2 ^ 64 →
    ∃ l : List Nat, RatesAre pcre arg (l.map printNat) ∧ l.Pairwise (· < ·) ∧
      ∀ x, x ∈ l ↔ ∃ k, x = numeralValue m.first + k * numeralValue m.step ∧ x ≤ numeralValue m.last
  /-- The parts between the commas. -/
  list : arg ≠ [] → (∀ m, ¬ IsRange arg m) → ∃ rates, RatesAre pcre arg rates ∧
    List.intercalate [','] rates = arg ∧ (∀ r ∈ rates, ',' ∉ r) ∧ rates.length = arg.count ',' + 1
  empty : arg = [] → RatesAre pcre arg ["0".toList]

/-- **What `getQueryRates` returns**, for every argument without newline and 0. -/
theorem query_rates_right {pcre : CString → Option RangeMatch} (hpcre : MatchesRange pcre) (arg : CString)
    (hnewline : '\n' ∉ arg) (hzero : '\x00' ∉ arg) : RatesRight pcre arg := by
  constructor
  case range =>
    intro m hm hstep hlast
    exact ⟨_, ratesAre_terms hpcre hm hstep hlast, terms_sorted _ _ hstep, fun x => mem_terms hstep⟩
  case list =>
    intro hne hnone
    have hp : pcre arg = none := by
      rw [Option.eq_none_iff_forall_ne_some]
      intro m hm
      exact hnone m ((hpcre arg hnewline hzero m).mp hm)
    refine ⟨arg.splitOn ',', ⟨0, ?_⟩, List.intercalate_splitOn ',', not_mem_of_mem_splitOn,
      length_splitOn ',' arg⟩
    intro fuel _
    rw [getQueryRates, if_neg hne, pregMatch, if_neg hne, hp]
    show some (arrayExplode ',' 0 false arg) = _
    rw [arrayExplode_eq, explodeAll, if_neg hne]
  case empty =>
    intro hempty
    exact ⟨0, fun fuel _ => if_pos hempty⟩

theorem query_rates_right_tens : RatesRight matchRange "10-30,10".toList :=
  query_rates_right matchRange_matches "10-30,10".toList (by decide +kernel) (by decide +kernel)

end UdpPingPong
