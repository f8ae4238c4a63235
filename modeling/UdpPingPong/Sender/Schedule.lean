import Mathlib.Algebra.Order.Floor.Ring
import Mathlib.Tactic.Linarith
import UdpPingPong.Sender.Pacing

/- The pacing loop against the clock: a sender thread is late at times, never ahead.

   The deadlines of the slices lie on the grid `t0 + k * Z` set by the first clock
   reading, however late the thread is, and a slice is left only when a reading is
   past its deadline. `OnGrid` joins the two, and `Pacer.run_onClock` carries them
   through every execution under a clock that does not go back. With the quotas of
   `Pacer.run_inv` this bounds what is sent at any time: `never_ahead`. -/
namespace UdpPingPong

open Exec Greedy

/-- The `getNsec` readings among the events. -/
def nsecs (es : List Ev) : List ℚ :=
  es.filterMap fun
    | .getNsec t => some t
    | _ => none

theorem nsecs_snoc_nsec (es : List Ev) (t : ℚ) : nsecs (es ++ [.getNsec t]) = nsecs es ++ [t] := by
  simp [nsecs]

theorem nsecs_snoc_other {es : List Ev} {e : Ev} (h : ∀ t, e ≠ .getNsec t) :
    nsecs (es ++ [e]) = nsecs es := by
  cases e <;> simp_all [nsecs]

namespace Pacer

variable {c : Plan} {s s' : Pacer} {e : Ev}

/-- How many slices have begun: the deadline of the last of them is `naechsteZeitscheibe`. -/
def slicesBegun (s : Pacer) : Int :=
  match s.pc with
  | .readNow | .readStart | .done | .fault => s.z
  | _ => s.z + 1

/-- How many deadlines the clock has passed. -/
def slicesPassed (s : Pacer) : Int :=
  match s.pc with
  | .checkStop | .checkEnd | .left => s.z + 1
  | _ => s.z

/-- The deadlines lie on the grid `t0 + k * Z`, and the last reading is past the deadline of
    every slice but the one in progress. -/
structure OnGrid (c : Plan) (t0 : ℚ) (s : Pacer) : Prop where
  deadline : s.naechsteZeitscheibe = t0 + s.slicesBegun * c.zeitscheibe
  passed : t0 + s.slicesPassed * c.zeitscheibe ≤ s.now

theorem sendLoop_onGrid {t0 : ℚ} (hd : s.naechsteZeitscheibe = t0 + (s.z + 1) * c.zeitscheibe)
    (hp : t0 + s.z * c.zeitscheibe ≤ s.now) : OnGrid c t0 (sendLoop s) := by
  unfold sendLoop
  split <;> exact ⟨by simpa [slicesBegun] using hd, by simpa [slicesPassed] using hp⟩

theorem sliceLoop_onGrid {t0 : ℚ} (hd : s.naechsteZeitscheibe = t0 + s.z * c.zeitscheibe)
    (hp : t0 + s.z * c.zeitscheibe ≤ s.now) : OnGrid c t0 (sliceLoop c s) := by
  unfold sliceLoop
  split
  · cases hq : cdiv s.queriesRest (c.totalZeitscheiben - s.z) with
    | none =>
      simp only [hq]
      exact ⟨by simpa [slicesBegun] using hd, by simpa [slicesPassed] using hp⟩
    | some q =>
      simp only [hq]
      refine sendLoop_onGrid ?_ hp
      simp only [hd]
      ring
  · exact ⟨by simpa [slicesBegun] using hd, by simpa [slicesPassed] using hp⟩

theorem nextSlice_onGrid {t0 : ℚ} (hd : s.naechsteZeitscheibe = t0 + (s.z + 1) * c.zeitscheibe)
    (hp : s.naechsteZeitscheibe ≤ s.now) : OnGrid c t0 (nextSlice c s) := by
  apply sliceLoop_onGrid
  · simp only [hd]; push_cast; ring
  · rw [hd] at hp; simpa using hp

/-- The wait loop keeps the grid if its reading is not before the last one. -/
theorem waitLoop_onGrid {t0 t : ℚ} (hd : s.naechsteZeitscheibe = t0 + (s.z + 1) * c.zeitscheibe)
    (hp : t0 + s.z * c.zeitscheibe ≤ t) : OnGrid c t0 (waitLoop c s t) := by
  unfold waitLoop
  split
  · exact ⟨by simpa [slicesBegun] using hd, by simpa [slicesPassed] using hp⟩
  · next ht =>
    have ht' : s.naechsteZeitscheibe ≤ t := not_lt.mp ht
    split
    · exact ⟨by simpa [slicesBegun] using hd, by simpa [slicesPassed, ← hd] using ht'⟩
    · exact nextSlice_onGrid (s := { s with now := t }) hd ht'

/-- One step from a state on the grid, for a reading not before the last one. -/
theorem step_onGrid {t0 : ℚ} (h : step c s e = some s') (hpc : s.pc ≠ .readNow) (hg : OnGrid c t0 s)
    (hmono : ∀ t, e = .getNsec t → s.now ≤ t) : OnGrid c t0 s' := by
  obtain ⟨hd, hp⟩ := hg
  cases step_cases h with
  | readNow t hs => exact absurd hs hpc
  | readStart t hs =>
    simp only [slicesBegun, slicesPassed, hs] at hd hp
    exact sliceLoop_onGrid (s := { s with endTime := t + c.runtime }) hd hp
  | sending hs =>
    simp only [slicesBegun, slicesPassed, hs] at hd hp
    exact sendLoop_onGrid (s := { s with i := s.i + 1 }) (by simpa using hd) hp
  | waiting t hs =>
    simp only [slicesBegun, slicesPassed, hs] at hd hp
    exact waitLoop_onGrid (by simpa using hd) (le_trans hp (hmono t rfl))
  | sleeping hs =>
    simp only [slicesBegun, slicesPassed, hs] at hd hp
    exact ⟨by simpa [slicesBegun] using hd, by simpa [slicesPassed] using hp⟩
  | checkStop b hs =>
    simp only [slicesBegun, slicesPassed, hs] at hd hp
    cases b <;> exact ⟨by simpa [slicesBegun] using hd, by simpa [slicesPassed] using hp⟩
  | checkEnd t hs =>
    simp only [slicesBegun, slicesPassed, hs] at hd hp
    split
    · exact ⟨by simpa [slicesBegun] using hd, by simpa [slicesPassed] using hp⟩
    · apply nextSlice_onGrid (by simpa using hd)
      rw [hd]
      exact hp

/-- With no slices nothing is sent: the loop is over at once, or the verbose output faults. -/
structure Idle (s : Pacer) (n : Int) : Prop where
  sent : n = 0
  z : s.z = 0
  pc : s.pc = .readNow ∨ s.pc = .readStart ∨ s.pc = .done ∨ s.pc = .fault

theorem run_idle (hT : c.totalZeitscheiben ≤ 0) {es : List Ev} (h : Runs (step c) (init c) es s) :
    Idle s (sends es) := by
  apply Runs.trace_induct (P := fun es s => Idle s (sends es)) _ _ h
  · refine ⟨rfl, rfl, ?_⟩
    simp only [init]
    split <;> simp
  · intro es s e s' _ hi hs
    obtain ⟨hsent, hz, hpc⟩ := hi
    rw [sends_snoc]
    cases step_cases hs with
    | readNow t hp => exact ⟨by simpa using hsent, hz, by simp⟩
    | readStart t hp =>
      rw [sliceLoop, if_neg (by simp only; omega)]
      exact ⟨by simpa using hsent, hz, by simp⟩
    | sending hp => simp [hp] at hpc
    | waiting t hp => simp [hp] at hpc
    | sleeping hp => simp [hp] at hpc
    | checkStop b hp => simp [hp] at hpc
    | checkEnd t hp => simp [hp] at hpc

/-- What the clock readings of a run mean for the state it leads to. -/
structure OnClock (c : Plan) (es : List Ev) (s : Pacer) : Prop where
  fresh : s.pc = .readNow → nsecs es = [] ∧ s.z = 0
  running : s.pc ≠ .readNow → s.pc ≠ .fault →
    ∃ t0, (nsecs es).head? = some t0 ∧ (nsecs es).getLast? = some s.now ∧ OnGrid c t0 s

/-- Between two slices the loop sends, waits or is over, and reads no clock. -/
theorem sliceLoop_mem (s : Pacer) :
    (sliceLoop c s).pc ∈ [Pc.sending, .waiting, .done] ∧ (sliceLoop c s).now = s.now := by
  unfold sliceLoop
  split
  · next hz =>
    have hne : c.totalZeitscheiben - s.z ≠ 0 := by omega
    simp only [cdiv, if_neg hne, sendLoop]
    split_ifs <;> simp
  · simp

theorem sliceLoop_pc_ne {p : Pc} (hp : p ∉ [Pc.sending, .waiting, .done]) (s : Pacer) : (sliceLoop c s).pc ≠ p := by
  intro h
  apply hp
  rw [← h]
  exact (sliceLoop_mem s).1

theorem sliceLoop_pc (s : Pacer) :
    (sliceLoop c s).pc ≠ .readNow ∧ (sliceLoop c s).pc ≠ .fault ∧ (sliceLoop c s).now = s.now :=
  ⟨sliceLoop_pc_ne (by decide) s, sliceLoop_pc_ne (by decide) s, (sliceLoop_mem s).2⟩

theorem waitLoop_pc (s : Pacer) (t : ℚ) :
    (waitLoop c s t).pc ≠ .readNow ∧ (waitLoop c s t).pc ≠ .fault ∧ (waitLoop c s t).now = t := by
  unfold waitLoop
  split
  · simp
  · split
    · simp
    · exact sliceLoop_pc _

/-- A step leaves the first clock reading behind and never divides by zero, and `now` is the
    last reading. -/
theorem step_now (h : step c s e = some s') :
    s'.pc ≠ .readNow ∧ s'.pc ≠ .fault ∧ s'.now = match e with
      | .getNsec t => t
      | _ => s.now := by
  cases step_cases h with
  | readNow t hp => simp
  | readStart t hp => exact sliceLoop_pc _
  | sending hp =>
    unfold sendLoop
    split <;> simp
  | waiting t hp => exact waitLoop_pc s t
  | sleeping hp => simp
  | checkStop b hp => cases b <;> simp
  | checkEnd t hp =>
    split
    · simp
    · exact sliceLoop_pc _

/-- The first clock reading sets the grid. -/
theorem first_onGrid (h : step c s e = some s') (hpc : s.pc = .readNow) (hz : s.z = 0) :
    ∃ t, e = .getNsec t ∧ s'.now = t ∧ OnGrid c t s' := by
  cases step_cases h with
  | readNow t hp => exact ⟨t, rfl, rfl, by simp [slicesBegun, hz], by simp [slicesPassed, hz]⟩
  | readStart t hp => exact absurd (hp.symm.trans hpc) (by decide)
  | sending hp => exact absurd (hp.symm.trans hpc) (by decide)
  | waiting t hp => exact absurd (hp.symm.trans hpc) (by decide)
  | sleeping hp => exact absurd (hp.symm.trans hpc) (by decide)
  | checkStop b hp => exact absurd (hp.symm.trans hpc) (by decide)
  | checkEnd t hp => exact absurd (hp.symm.trans hpc) (by decide)

/-- The loop never divides by zero: only the verbose output can, before the first reading. -/
theorem no_fault_after_reading {es : List Ev} (h : Runs (step c) (init c) es s) (hne : es ≠ []) :
    s.pc ≠ .fault := by
  rcases es.eq_nil_or_concat with rfl | ⟨es, e, rfl⟩
  · exact absurd rfl hne
  · rw [List.concat_eq_append] at h
    obtain ⟨u, -, hs⟩ := runs_snoc.mp h
    exact (step_now hs).2.1

/-- The clock readings of a run, under a clock that does not go back, and the grid they set. -/
theorem run_onClock {es : List Ev} (h : Runs (step c) (init c) es s)
    (hclock : (nsecs es).Pairwise (· ≤ ·)) : OnClock c es s := by
  apply Runs.trace_induct (P := fun es s => (nsecs es).Pairwise (· ≤ ·) → OnClock c es s) _ _ h hclock
  · intro _
    refine ⟨fun _ => ⟨rfl, rfl⟩, ?_⟩
    simp only [init]
    split <;> simp
  · intro es s e s' _ hi hs hclock
    obtain ⟨hpc', -, hnow⟩ := step_now hs
    refine ⟨fun h => absurd h hpc', fun _ _ => ?_⟩
    have hclock' : (nsecs es).Pairwise (· ≤ ·) := by
      rw [nsecs, List.filterMap_append] at hclock
      exact (List.pairwise_append.mp hclock).1
    obtain ⟨hfresh, hrun⟩ := hi hclock'
    by_cases hpc : s.pc = .readNow
    · -- the first reading sets the grid
      obtain ⟨hnil, hz⟩ := hfresh hpc
      obtain ⟨t, rfl, rfl, hg⟩ := first_onGrid hs hpc hz
      rw [nsecs_snoc_nsec, hnil]
      exact ⟨s'.now, rfl, rfl, hg⟩
    · have hfault : s.pc ≠ .fault := by
        intro hf
        simp [step, hf] at hs
      obtain ⟨t0, hhead, hlast, hg⟩ := hrun hpc hfault
      by_cases he : ∃ t, e = .getNsec t
      · -- a later reading is not before the last one, so the grid is kept
        obtain ⟨t, rfl⟩ := he
        rw [nsecs_snoc_nsec] at hclock ⊢
        have hle : s.now ≤ t :=
          (List.pairwise_append.mp hclock).2.2 _ (List.mem_of_getLast? hlast) t (List.mem_singleton.mpr rfl)
        refine ⟨t0, ?_, ?_, step_onGrid hs hpc hg fun t' ht' => by cases ht'; exact hle⟩
        · rw [List.head?_append, hhead, Option.some_or]
        · rw [List.getLast?_append, hnow]
          rfl
      · have he' : ∀ t, e ≠ .getNsec t := fun t ht => he ⟨t, ht⟩
        rw [nsecs_snoc_other he']
        refine ⟨t0, hhead, ?_, step_onGrid hs hpc hg fun t ht => absurd ht (he' t)⟩
        rw [hlast, hnow]
        cases e <;> simp_all

/-- In every state the packets sent are at most the proportional share of the slices begun. -/
theorem sends_le_begun (hQ : 0 < c.totalZeitscheiben → 0 ≤ c.queries) {es : List Ev}
    (h : Runs (step c) (init c) es s) :
    sends es * c.totalZeitscheiben ≤ s.slicesBegun * c.queries := by
  by_cases hT : 0 < c.totalZeitscheiben
  · have hi := run_inv (hQ hT) hT h
    have hT0 := Int.le_of_lt hT
    by_cases hs : s.pc = .sending
    · -- inside a slice less than its quota is sent: count it as over
      obtain ⟨hz, hi0, hlt, hq⟩ := hi.quota hs
      have hz0 : 0 ≤ s.z := by simpa [slicesOver, hs] using hi.over_nonneg
      have hsent := hi.sent
      simp only [slicesOver, hs, if_true] at hsent
      have hsucc := dealt_succ c.queries c.totalZeitscheiben s.z
      calc (sends es : Int) * c.totalZeitscheiben
          ≤ dealt c.queries c.totalZeitscheiben (s.z + 1) * c.totalZeitscheiben :=
            Int.mul_le_mul_of_nonneg_right (by omega) hT0
        _ ≤ (s.z + 1) * c.queries := dealt_behind _ hT (by omega) (by omega)
        _ = s.slicesBegun * c.queries := by simp [slicesBegun, hs]
    · have hover : s.slicesOver = s.slicesBegun := by
        have hfault := hi.no_fault
        cases hp : s.pc <;> simp_all [slicesOver, slicesBegun]
      have hsent := hi.sent
      rw [if_neg hs, Int.add_zero] at hsent
      rw [hsent, ← hover]
      exact dealt_behind _ hT hi.over_nonneg hi.over_le
  · -- without slices nothing is sent
    obtain ⟨hsent, hz, hpc⟩ := run_idle (by omega) h
    rw [hsent]
    rcases hpc with hp | hp | hp | hp <;> simp [slicesBegun, hp, hz]

/-- A slice that has begun is either past its deadline or the one after the last that is. -/
theorem begun_le_passed (s : Pacer) : s.slicesBegun ≤ s.slicesPassed + 1 := by
  cases hp : s.pc <;> simp only [slicesBegun, slicesPassed, hp] <;> omega

end Pacer

/-- **Never ahead of the schedule.** With `T` slices of length `Z > 0`, `Q` packets and `t0` the
    first `getNsec` reading, for every clock that does not go back, every duration of the sends
    and every sleep: a packet of slice `z` is sent when the last reading is at least `t0 + z * Z`;
    the packets `S` sent so far satisfy `S * T ≤ k * Q`, where `k` slices have begun (`z + 1` in
    slice `z`); so at a time `t` at most `(⌊(t - t0) / Z⌋ + 1) * Q / T` packets are sent. `Q` is
    negative only for a negative run time, which has no slices. -/
theorem never_ahead (c : Plan) (hZ : 0 < c.zeitscheibe) (hQ : 0 < c.totalZeitscheiben → 0 ≤ c.queries)
    {es : List Ev} {s : Pacer} (h : Runs (Pacer.step c) (Pacer.init c) es s)
    (hclock : (nsecs es).Pairwise (· ≤ ·)) {t0 : ℚ} (h0 : (nsecs es).head? = some t0) :
    ∃ last, (nsecs es).getLast? = some last ∧
      (∀ s', Pacer.step c s .sendPacket = some s' → t0 + s.z * c.zeitscheibe ≤ last) ∧
      sends es * c.totalZeitscheiben ≤ s.slicesBegun * c.queries ∧
      (0 < c.totalZeitscheiben → ∀ t, last ≤ t →
        (sends es : ℚ) ≤ (⌊(t - t0) / c.zeitscheibe⌋ + 1) * c.queries / c.totalZeitscheiben) := by
  have hstart : s.pc ≠ .readNow := by
    intro hpc
    rw [((Pacer.run_onClock h hclock).fresh hpc).1] at h0
    cases h0
  have hsome : es ≠ [] := by
    intro hnil
    rw [hnil] at h0
    cases h0
  have hfault : s.pc ≠ .fault := Pacer.no_fault_after_reading h hsome
  obtain ⟨t0', hhead, hlast, -, hpassed⟩ := (Pacer.run_onClock h hclock).running hstart hfault
  obtain rfl : t0 = t0' := Option.some.inj (h0.symm.trans hhead)
  have hbegun := Pacer.sends_le_begun hQ h
  refine ⟨s.now, hlast, ?_, hbegun, ?_⟩
  · intro s' hs
    have hpc : s.pc = .sending := by
      cases hp : s.pc <;> simp_all [Pacer.step]
    simpa [Pacer.slicesPassed, hpc] using hpassed
  · intro hT t ht
    have hTq : (0 : ℚ) < c.totalZeitscheiben := by exact_mod_cast hT
    have hfloor : s.slicesPassed ≤ ⌊(t - t0) / c.zeitscheibe⌋ := by
      rw [Int.le_floor, le_div_iff₀ hZ]
      linarith
    have hslices : s.slicesBegun * c.queries ≤ (⌊(t - t0) / c.zeitscheibe⌋ + 1) * c.queries :=
      Int.mul_le_mul_of_nonneg_right (by have := s.begun_le_passed; omega) (hQ hT)
    rw [le_div_iff₀ hTq]
    exact_mod_cast Int.le_trans hbegun hslices

/-- Four packets in two slices of half a second. -/
def halfPlan : Plan := Plan.ofThread 1 4 (1 / 2) false

theorem never_ahead_one_sent : ∃ last, [(10 : ℚ)].getLast? = some last ∧
    (∀ s', Pacer.step halfPlan ⟨.sending, 0, 4, 2, 1, 10, 21 / 2, 101 / 10, 11, 0, 0⟩
      .sendPacket = some s' → 10 + ((0 : Int) : ℚ) * (1 / 2) ≤ last) ∧
    ((1 : Nat) : Int) * halfPlan.totalZeitscheiben ≤ 1 * halfPlan.queries ∧
    (0 < halfPlan.totalZeitscheiben → ∀ t, last ≤ t →
      (((1 : Nat) : ℚ) ≤ (⌊(t - 10) / (1 / 2)⌋ + 1) * halfPlan.queries / halfPlan.totalZeitscheiben)) :=
  have hrun : Runs (Pacer.step halfPlan) (Pacer.init halfPlan)
      [.getNsec 10, .getMicrotime 10, .sendPacket]
      ⟨.sending, 0, 4, 2, 1, 10, 21 / 2, 101 / 10, 11, 0, 0⟩ := by decide +kernel
  never_ahead halfPlan (by decide +kernel) (fun _ => by decide +kernel) hrun (by decide) rfl

end UdpPingPong
