import UdpPingPong.Sender.Schedule
import UdpPingPong.Sender.Slices

/- The argument of `nanosleep` in the pacing loop.

   The wait loop stores the time up to the deadline of the slice in `ts.tv_nsec` and
   leaves `ts.tv_sec` at 0. A slice may be as long as a second, and a reading may be as
   early as the deadline of the slice before.

   1. `waiting_starts`: in the wait loop that deadline is not in the future;
   2. `sleep_valid_iff`: when a reading leads to a number that `nanosleep` takes;
   3. `sleeps_valid_iff`: all readings of a run do so exactly when the slices are shorter
      than a second or every reading is later than the start of its slice. -/
namespace UdpPingPong

open Exec

/-- `nanosleep` takes such a `tv_nsec`. -/
def ValidNsec (n : Int) : Prop := 0 ≤ n ∧ n ≤ 999999999

instance (n : Int) : Decidable (ValidNsec n) := inferInstanceAs (Decidable (_ ∧ _))

namespace Pacer

/-- The deadline of the slice before the one in progress, for the first slice the reading in front
    of the loop. -/
def sliceStart (c : Plan) (s : Pacer) : ℚ := s.naechsteZeitscheibe - c.zeitscheibe

/-- If the event leads to a sleep, `ts.tv_nsec` is valid. -/
def SleepValid (c : Plan) (s : Pacer) (e : Ev) : Prop :=
  ∀ s', step c s e = some s' → s'.pc = .sleeping → ValidNsec s'.tvNsec

/-- A reading of the wait loop is later than the start of the slice. -/
def ReadsLater (c : Plan) (s : Pacer) (e : Ev) : Prop :=
  ∀ t, s.pc = .waiting → e = .getNsec t → s.sliceStart c < t

variable {c : Plan} {s s' : Pacer} {e : Ev}

/-! ## One reading -/

/-- Only a reading of the wait loop leads to a sleep. -/
theorem sleeping_of_step (h : step c s e = some s') (hpc : s'.pc = .sleeping) :
    s.pc = .waiting ∧ ∃ t, e = .getNsec t ∧ t < s.naechsteZeitscheibe ∧
      s'.tvNsec = trunc ((s.naechsteZeitscheibe - t) * 1000000000) := by
  cases step_cases h with
  | readNow t hs => cases hpc
  | readStart t hs => exact absurd hpc (sliceLoop_pc_ne (by decide) _)
  | sending hs =>
    unfold sendLoop at hpc
    split at hpc <;> cases hpc
  | waiting t hs =>
    refine ⟨hs, t, rfl, ?_⟩
    unfold waitLoop at hpc ⊢
    split at hpc
    · next ht =>
      rw [if_pos ht]
      exact ⟨ht, rfl⟩
    · split at hpc
      · cases hpc
      · exact absurd hpc (sliceLoop_pc_ne (by decide) _)
  | sleeping hs => cases hpc
  | checkStop b hs => cases b <;> cases hpc
  | checkEnd t hs =>
    split at hpc
    · cases hpc
    · exact absurd hpc (sliceLoop_pc_ne (by decide) _)

/-- A reading before the deadline leads to a sleep. -/
theorem step_sleeping (hpc : s.pc = .waiting) {t : ℚ} (ht : t < s.naechsteZeitscheibe) :
    ∃ s', step c s (.getNsec t) = some s' ∧ s'.pc = .sleeping ∧
      s'.tvNsec = trunc ((s.naechsteZeitscheibe - t) * 1000000000) := by
  refine ⟨waitLoop c s t, ?_, ?_, ?_⟩
  · simp [step, hpc]
  · rw [waitLoop, if_pos ht]
  · rw [waitLoop, if_pos ht]

/-- A wait of less than a second, in nanoseconds. -/
theorem validNsec_trunc_iff {x : ℚ} (hx : 0 ≤ x) : ValidNsec (trunc (x * 1000000000)) ↔ x < 1 := by
  have hnonneg : 0 ≤ x * 1000000000 := by linarith
  have hfloor : 0 ≤ ⌊x * 1000000000⌋ := Int.floor_nonneg.mpr hnonneg
  have hlt : ⌊x * 1000000000⌋ < 1000000000 ↔ x < 1 := by
    rw [Int.floor_lt]
    push_cast
    constructor <;> intro h <;> linarith
  rw [trunc_of_nonneg hnonneg, ValidNsec, ← hlt]
  omega

/-- **When a reading leads to a valid sleep**, in slices of a second at most, under a clock that has
    reached the start of the slice. -/
theorem sleep_valid_iff (hle : c.zeitscheibe ≤ 1)
    (hclock : ∀ t, s.pc = .waiting → e = .getNsec t → s.sliceStart c ≤ t) :
    SleepValid c s e ↔ c.zeitscheibe < 1 ∨ ReadsLater c s e := by
  refine ⟨?_, ?_⟩
  · intro h
    rcases hle.lt_or_eq with hlt | heq
    · exact .inl hlt
    · right
      intro t hpc he
      by_contra hnot
      -- the reading is the start of a slice of a second
      have hstart : t = s.sliceStart c := le_antisymm (not_lt.mp hnot) (hclock t hpc he)
      have hwait : s.naechsteZeitscheibe - t = 1 := by
        rw [hstart, sliceStart, heq]
        ring
      subst he
      obtain ⟨s', hs', hsleep, hnsec⟩ := step_sleeping (c := c) hpc (t := t) (by linarith)
      have hvalid := h s' hs' hsleep
      rw [hnsec, hwait, validNsec_trunc_iff zero_le_one] at hvalid
      exact lt_irrefl _ hvalid
  · intro h s' hs' hsleep
    obtain ⟨hpc, t, rfl, hlt, hnsec⟩ := sleeping_of_step hs' hsleep
    have hreached := hclock t hpc rfl
    rw [hnsec, validNsec_trunc_iff (by linarith)]
    rw [sliceStart] at hreached
    rcases h with hshort | hlater
    · linarith
    · have hlate := hlater t hpc rfl
      rw [sliceStart] at hlate
      linarith

/-! ## All readings of a run -/

/-- Under a clock that does not go back every reading of the wait loop has reached the start of its
    slice. -/
theorem waiting_starts {es : List Ev} (h : Runs (step c) (init c) es s) {t : ℚ}
    (hclock : (nsecs (es ++ [.getNsec t])).Pairwise (· ≤ ·)) (hpc : s.pc = .waiting) : s.sliceStart c ≤ t := by
  rw [nsecs_snoc_nsec, List.pairwise_append] at hclock
  obtain ⟨hbefore, -, hlast⟩ := hclock
  obtain ⟨t0, -, hnow, hgrid⟩ := (run_onClock h hbefore).running (by rw [hpc]; decide) (by rw [hpc]; decide)
  have hle : s.now ≤ t := hlast _ (List.mem_of_getLast? hnow) t (List.mem_singleton_self t)
  have hdeadline := hgrid.deadline
  have hpassed := hgrid.passed
  simp only [slicesBegun, slicesPassed, hpc] at hdeadline hpassed
  push_cast at hdeadline
  rw [sliceStart]
  linarith

end Pacer

/-- **When all sleeps are valid**, for a slice length that the setter takes: it is less than a second,
    or every reading of the wait loop is later than the start of its slice. -/
theorem sleeps_valid_iff {ms zeitscheibe : ℚ} (hset : setZeitscheibe ms = some zeitscheibe) (c : Plan)
    (hc : c.zeitscheibe = zeitscheibe) {es : List Ev} {s : Pacer}
    (h : Runs (Pacer.step c) (Pacer.init c) es s) (hclock : (nsecs es).Pairwise (· ≤ ·)) :
    Along (Pacer.step c) (Pacer.SleepValid c) (Pacer.init c) es ↔
      ms < 1000 ∨ Along (Pacer.step c) (Pacer.ReadsLater c) (Pacer.init c) es := by
  obtain ⟨-, hmax, hlength⟩ := setZeitscheibe_eq_some hset
  have hsecond : ms < 1000 ↔ c.zeitscheibe < 1 := by
    rw [hc]
    constructor <;> intro h <;> linarith
  rw [hsecond, ← along_const_or]
  apply h.along_iff
  intro fs e u hfs hr
  apply Pacer.sleep_valid_iff
  · rw [hc]
    linarith
  · intro t hpc he
    subst he
    have hsub : (nsecs (fs ++ [.getNsec t])).Sublist (nsecs es) := hfs.sublist.filterMap _
    exact Pacer.waiting_starts hr (hclock.sublist hsub) hpc

/-- The first of two slices of half a second has no packet, and waits for a quarter. -/
theorem sleeps_valid_iff_half_second :
    let c := Plan.ofThread 1 1 (1 / 2) false
    let es := [Ev.getNsec 0, .getMicrotime 0, .getNsec (1 / 4)]
    Along (Pacer.step c) (Pacer.SleepValid c) (Pacer.init c) es ↔
      (500 : ℚ) < 1000 ∨ Along (Pacer.step c) (Pacer.ReadsLater c) (Pacer.init c) es :=
  have hrun : Runs (Pacer.step (Plan.ofThread 1 1 (1 / 2) false)) (Pacer.init (Plan.ofThread 1 1 (1 / 2) false))
      [.getNsec 0, .getMicrotime 0, .getNsec (1 / 4)]
      ⟨.sleeping, 0, 1, 0, 0, 1 / 4, 1 / 2, 1 / 10, 1, 1 / 4, 250000000⟩ := by decide +kernel
  sleeps_valid_iff (by decide +kernel) _ rfl hrun (by decide +kernel)

/-- One packet in one slice of a second, the longest one that the setter takes. -/
def secondPlan : Plan := Plan.ofThread 1 1 1 false

/-- If the clock has not moved since the loop was entered, `ts.tv_nsec` becomes a whole second. -/
theorem whole_second_invalid : setZeitscheibe 1000 = some secondPlan.zeitscheibe ∧
    ∃ es s, Runs (Pacer.step secondPlan) (Pacer.init secondPlan) es s ∧ (nsecs es).Pairwise (· ≤ ·) ∧
      s.pc = .sleeping ∧ s.tvNsec = 1000000000 ∧ ¬ ValidNsec s.tvNsec := by
  refine ⟨by decide +kernel, [.getNsec 0, .getMicrotime 0, .sendPacket, .getNsec 0],
    ⟨.sleeping, 0, 0, 1, 1, 0, 1, 1 / 10, 1, 1, 1000000000⟩, ?_, ?_, rfl, rfl, by decide⟩
  · decide +kernel
  · decide +kernel

end UdpPingPong
