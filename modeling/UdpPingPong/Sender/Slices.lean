import UdpPingPong.Sender.Pacing

/- The slices of a rate-limited run: how many there are, and what is sent in each.

   `setZeitscheibe` stores the slice length, `runWithRateLimit` divides the run time by
   it. The product `runtime * 1000` is a C `int`, the quotient is converted to an
   `int64_t`; the slice length is an exact number.

   1. `Pacer.sentIn_eq`: the packets of one slice, from the number of all packets sent;
   2. `packets_conserved`: after every slice the packets sent and the packets left make
      up the packets of the run, and the slices get as equal numbers as there are;
   3. `slices_cover_iff`: the slices fill the run time up to less than one slice exactly
      for a positive length, a run time whose milliseconds are an `int`, and a slice
      count that is an `int64_t`. -/
namespace UdpPingPong

open Exec Greedy

namespace Pacer

variable {c : Plan} {s : Pacer}

/-- The `sendPacket` calls of slice `z` in the run of the events `es`. -/
def sentIn (c : Plan) (z : Int) (es : List Ev) : Nat :=
  spent (step c) (fun s e => if e = .sendPacket ∧ s.z = z then 1 else 0) (init c) es

/-- The packets sent so far fill the slices one after the other: what slice `z` has of them is
    what goes beyond the slices before it, up to its share. -/
theorem sentIn_eq (hQ : 0 ≤ c.queries) (hT : 0 < c.totalZeitscheiben) {z : Int} (hz : 0 ≤ z) {es : List Ev}
    (h : Runs (step c) (init c) es s) : (sentIn c z es : Int) =
      max 0 (min (share c.queries c.totalZeitscheiben z)
        (sends es - dealt c.queries c.totalZeitscheiben z)) := by
  apply Runs.trace_induct (P := fun es _ => (sentIn c z es : Int) =
    max 0 (min (share c.queries c.totalZeitscheiben z)
      (sends es - dealt c.queries c.totalZeitscheiben z))) _ _ h
  · have h0 := dealt_mono hQ hT hz
    rw [dealt_zero hT] at h0
    simp only [sentIn, spent, sends, List.count_nil, Nat.cast_zero]
    omega
  · intro es s e s' hr ih hs
    rw [sentIn, spent_snoc hr, sends_snoc]
    rw [sentIn] at ih
    by_cases he : e = .sendPacket
    · have hpc : s.pc = .sending := by
        subst he
        cases step_cases hs with
        | sending hpc => exact hpc
      -- the slice in progress is not full, and the slices before it are
      have hi := run_inv hQ hT hr
      obtain ⟨-, hi0, hlt, hq⟩ := hi.quota hpc
      have hsent := hi.sent
      simp only [slicesOver, hpc, if_true] at hsent
      have hsucc := dealt_succ c.queries c.totalZeitscheiben s.z
      have hsuccz := dealt_succ c.queries c.totalZeitscheiben z
      rcases lt_trichotomy s.z z with hlt' | rfl | hgt
      · have hle := dealt_mono hQ hT (show s.z + 1 ≤ z by omega)
        rw [if_neg (by omega), if_pos he]
        push_cast
        omega
      · rw [if_pos ⟨he, rfl⟩, if_pos he]
        push_cast
        omega
      · have hle := dealt_mono hQ hT (show z + 1 ≤ s.z by omega)
        rw [if_neg (by omega), if_pos he]
        push_cast
        omega
    · rw [if_neg (fun h => he h.1), if_neg he]
      simpa using ih

/-- A slice that is over got its share. -/
theorem sentIn_over (hQ : 0 ≤ c.queries) (hT : 0 < c.totalZeitscheiben) {z : Int} (hz : 0 ≤ z) {es : List Ev}
    (h : Runs (step c) (init c) es s) (hover : z < s.slicesOver) :
    (sentIn c z es : Int) = share c.queries c.totalZeitscheiben z := by
  have hi := run_inv hQ hT h
  have hsent : dealt c.queries c.totalZeitscheiben s.slicesOver ≤ sends es := by
    rw [hi.sent]
    split
    · next hpc => have := (hi.quota hpc).2.1; omega
    · omega
  have hle := dealt_mono hQ hT (show z + 1 ≤ s.slicesOver by omega)
  rw [dealt_succ] at hle
  have hnonneg := share_nonneg hQ hT z
  rw [sentIn_eq hQ hT hz h]
  omega

end Pacer

/-- **Conservation** of the packets in a run `es` of the loop that has come to `s`. -/
structure Conserved (c : Plan) (es : List Ev) (s : Pacer) : Prop where
  /-- Nothing is divided by zero. -/
  no_fault : s.pc ≠ .fault
  rest_nonneg : 0 ≤ s.queriesRest
  rest_le : s.queriesRest ≤ c.queries
  /-- After every slice the packets sent and the packets left make up the packets of the run. -/
  balance : s.pc ≠ .sending → sends es + s.queriesRest = c.queries
  /-- Every slice sends the rounded-down or the rounded-up quotient. -/
  floor_or_ceil : ∀ z, 0 ≤ z → z < s.slicesOver →
    (Pacer.sentIn c z es : Int) = ⌊(c.queries / c.totalZeitscheiben : ℚ)⌋ ∨
    (Pacer.sentIn c z es : Int) = ⌈(c.queries / c.totalZeitscheiben : ℚ)⌉
  /-- No slice sends fewer packets than one before it. -/
  mono : ∀ y z, 0 ≤ y → y ≤ z → z < s.slicesOver → Pacer.sentIn c y es ≤ Pacer.sentIn c z es
  /-- All slices together send all packets. -/
  all_sent : s.slicesOver = c.totalZeitscheiben → sends es = c.queries

/-- **Packets are conserved** in every run of the loop, after whichever slice it is left. -/
theorem packets_conserved (c : Plan) (hR : 1 ≤ c.runtime) (hq : 0 < c.queryrate)
    (hT : 1 ≤ c.totalZeitscheiben) {es : List Ev} {s : Pacer} (h : Runs (Pacer.step c) (Pacer.init c) es s) :
    Conserved c es s := by
  have hQ : 0 ≤ c.queries := Int.mul_nonneg (by omega) (Int.le_of_lt hq)
  have hi := Pacer.run_inv hQ hT h
  have hrest := hi.rest
  constructor
  case no_fault => exact hi.no_fault
  case rest_nonneg =>
    rw [hrest]
    exact left_nonneg hQ hT hi.over_le
  case rest_le =>
    have hdealt := dealt_mono hQ hT hi.over_nonneg
    rw [dealt_zero hT] at hdealt
    omega
  case balance =>
    intro hpc
    have hsent := hi.sent
    rw [if_neg hpc] at hsent
    omega
  case floor_or_ceil =>
    intro z hz hover
    rw [Pacer.sentIn_over hQ hT hz h hover]
    exact share_floor_or_ceil c.queries hT (by have := hi.over_le; omega)
  case mono =>
    intro y z hy hyz hover
    have hmono := share_mono c.queries c.totalZeitscheiben hyz
    rw [← Pacer.sentIn_over hQ hT hy h (by omega), ← Pacer.sentIn_over hQ hT (by omega) h hover] at hmono
    exact_mod_cast hmono
  case all_sent => exact hi.all_sent hT

/-- Five packets in two slices of half a second, after the first of them. -/
theorem packets_conserved_first_slice : Conserved (Plan.ofThread 1 5 (1 / 2) false)
    [.getNsec 0, .getMicrotime 0, .sendPacket, .sendPacket]
    ⟨.waiting, 0, 3, 2, 2, 0, 1 / 2, 1 / 10, 1, 0, 0⟩ :=
  packets_conserved (Plan.ofThread 1 5 (1 / 2) false) (by decide) (by decide) (by decide +kernel) (by decide +kernel)

/-! ## The number of slices -/

/-- `setZeitscheibe`: the length in seconds for a length in milliseconds, or an
    `InvalidArgumentsException`. -/
def setZeitscheibe (ms : ℚ) : Option ℚ := if ms = 0 ∨ 1000 < ms then none else some (ms / 1000)

/-- A number as an `int64_t`, if it is one. -/
def asInt64 (x : Int) : Option Int := if -2 ^ 63 ≤ x ∧ x < 2 ^ 63 then some x else none

/-- `total_zeitscheiben`; a quotient beyond `int64_t` has no conversion. -/
def totalZeitscheiben (runtime : Int) (zeitscheibe : ℚ) : Option Int :=
  asInt64 (Plan.ofThread runtime 0 zeitscheibe false).totalZeitscheiben

/-- **The slices cover the run time** `R`: its milliseconds are an `int`, and at least one slice of
    `ms` milliseconds fills it up to less than one slice. -/
def SlicesCover (R : Int) (ms zeitscheibe : ℚ) : Prop :=
  mulInt R 1000 = R * 1000 ∧ ∃ T, totalZeitscheiben R zeitscheibe = some T ∧ 1 ≤ T ∧
    T * ms ≤ R * 1000 ∧ R * 1000 - T * ms < ms

/-- An `int` product is exact when it is an `int`. -/
theorem mulInt_eq_iff (a b : Int) : mulInt a b = a * b ↔ -2 ^ 31 ≤ a * b ∧ a * b < 2 ^ 31 := by
  rw [mulInt, Int.bmod_eq_emod]
  generalize a * b = x
  split <;> omega

theorem trunc_of_nonneg {x : ℚ} (h : 0 ≤ x) : trunc x = ⌊x⌋ := if_pos h

/-- No slice comes out of a quotient below one. -/
theorem one_le_of_one_le_trunc {x : ℚ} (h : 1 ≤ trunc x) : 1 ≤ x := by
  unfold trunc at h
  split at h
  · exact_mod_cast Int.le_floor.mp h
  · next hx =>
    have : ⌈x⌉ ≤ 0 := Int.ceil_le.mpr (by push_cast; linarith)
    omega

theorem setZeitscheibe_eq_some {ms zeitscheibe : ℚ} (h : setZeitscheibe ms = some zeitscheibe) :
    ms ≠ 0 ∧ ms ≤ 1000 ∧ zeitscheibe * 1000 = ms := by
  unfold setZeitscheibe at h
  split at h
  · cases h
  · next hms =>
    obtain ⟨h0, h1⟩ := not_or.mp hms
    obtain rfl := Option.some.inj h
    exact ⟨h0, not_lt.mp h1, div_mul_cancel₀ ms (by norm_num)⟩

/-- The slice count, while the milliseconds of the run time are an `int`. -/
theorem totalZeitscheiben_eq {R : Int} (h : mulInt R 1000 = R * 1000) (zeitscheibe : ℚ) :
    totalZeitscheiben R zeitscheibe = asInt64 (trunc (R * 1000 / (zeitscheibe * 1000))) := by
  simp only [totalZeitscheiben, Plan.ofThread, h]
  push_cast
  rfl

theorem asInt64_eq_some {x y : Int} (h : asInt64 x = some y) : y = x ∧ x < 2 ^ 63 := by
  unfold asInt64 at h
  split at h
  · next hx => exact ⟨(Option.some.inj h).symm, hx.2⟩
  · cases h

/-- At least one slice: the length is positive, and the count is an `int64_t`. -/
theorem length_pos {R : Int} (hR : 1 ≤ R) {ms : ℚ} {T : Int} (hT : asInt64 (trunc (R * 1000 / ms)) = some T)
    (h1 : 1 ≤ T) : 0 < ms ∧ (R * 1000 / ms : ℚ) < 2 ^ 63 := by
  obtain ⟨rfl, hlt⟩ := asInt64_eq_some hT
  have hquot := one_le_of_one_le_trunc h1
  have hR' : (1 : ℚ) ≤ R := by exact_mod_cast hR
  refine ⟨?_, ?_⟩
  · by_contra hneg
    have := div_nonpos_of_nonneg_of_nonpos (show (0 : ℚ) ≤ R * 1000 by linarith) (not_lt.mp hneg)
    linarith
  · rw [trunc_of_nonneg (by linarith)] at hlt
    exact_mod_cast Int.floor_lt.mp hlt

/-- A quotient of one or more, as an `int64_t`. -/
theorem asInt64_trunc {x : ℚ} (h1 : 1 ≤ x) (h : x < 2 ^ 63) : asInt64 (trunc x) = some ⌊x⌋ ∧ 1 ≤ ⌊x⌋ := by
  have hone : 1 ≤ ⌊x⌋ := Int.le_floor.mpr (by exact_mod_cast h1)
  have hlt : ⌊x⌋ < 2 ^ 63 := Int.floor_lt.mpr (by exact_mod_cast h)
  rw [trunc_of_nonneg (by linarith), asInt64, if_pos ⟨by omega, hlt⟩]
  exact ⟨rfl, hone⟩

/-- **When the slices cover the run time**: the length is positive, the milliseconds of the run time
    are an `int`, and so many slices are an `int64_t`. The setter lets negative lengths through. -/
theorem slices_cover_iff (R : Int) (hR : 1 ≤ R) (ms zeitscheibe : ℚ)
    (hset : setZeitscheibe ms = some zeitscheibe) :
    SlicesCover R ms zeitscheibe ↔ 0 < ms ∧ R * 1000 < 2 ^ 31 ∧ R * 1000 / ms < 2 ^ 63 := by
  obtain ⟨-, hle, hz⟩ := setZeitscheibe_eq_some hset
  refine ⟨?_, ?_⟩
  · intro h
    obtain ⟨hprod, T, hT, h1, -, -⟩ := h
    rw [totalZeitscheiben_eq hprod, hz] at hT
    obtain ⟨hpos, hrange⟩ := length_pos hR hT h1
    exact ⟨hpos, ((mulInt_eq_iff R 1000).mp hprod).2, hrange⟩
  · intro h
    obtain ⟨hpos, hprod, hrange⟩ := h
    have hprod' : mulInt R 1000 = R * 1000 := (mulInt_eq_iff R 1000).mpr ⟨by omega, hprod⟩
    have hR' : (1 : ℚ) ≤ R := by exact_mod_cast hR
    have hquot : 1 ≤ (R * 1000 / ms : ℚ) := by
      rw [le_div_iff₀ hpos]
      linarith
    obtain ⟨hT, h1⟩ := asInt64_trunc hquot hrange
    refine ⟨hprod', ⌊(R * 1000 / ms : ℚ)⌋, ?_, h1, ?_, ?_⟩
    · rw [totalZeitscheiben_eq hprod', hz, hT]
    · exact sub_nonneg.mp (Int.sub_floor_div_mul_nonneg _ hpos)
    · exact Int.sub_floor_div_mul_lt _ hpos

/-- Ten seconds in slices of one millisecond. -/
theorem slices_cover_iff_default : SlicesCover 10 1 (1 / 1000) ↔
    0 < (1 : ℚ) ∧ (10 : Int) * 1000 < 2 ^ 31 ∧ ((10 : Int) : ℚ) * 1000 / 1 < 2 ^ 63 :=
  slices_cover_iff 10 (by decide) 1 (1 / 1000) (by decide +kernel)

/-- A length of minus one millisecond is accepted, and there are no slices. -/
theorem negative_length_no_slices : setZeitscheibe (-1) = some (-1 / 1000) ∧ ¬ SlicesCover 10 (-1) (-1 / 1000) := by
  have hset : setZeitscheibe (-1) = some (-1 / 1000) := by decide +kernel
  refine ⟨hset, fun h => ?_⟩
  obtain ⟨-, T, hT, h1, -⟩ := h
  have hvalue : totalZeitscheiben 10 (-1 / 1000) = some (-10000) := by decide +kernel
  rw [hvalue] at hT
  obtain rfl := Option.some.inj hT
  exact absurd h1 (by decide)

end UdpPingPong
