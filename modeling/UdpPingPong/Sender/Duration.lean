import UdpPingPong.Sender.System
import UdpPingPong.Sender.Stopping

/- The duration a sender thread reports, and the time it has to run.

   `duration` is what `run` measures around its load loop, on the clock of `GetMicrotime`;
   the deadlines of the slices are on the clock of `getNsec`. The two show the same time,
   one of them rounded to microseconds, so here each of them does not go back, and they
   disagree by `ε` at most.

   1. `Pacer.Timed` and `Flood.Timed`: how far a load loop is, against the clocks;
   2. `step_timed`: every step of the thread keeps it, as long as nobody asks for a stop;
   3. `duration_covers`: without a rate the duration is the run time at least, with a rate
      the time of the slices or the run time. -/
namespace UdpPingPong

open Exec Wire

def Ev.isNsec : Ev → Bool
  | .getNsec _ => true
  | _ => false

/-- A clock does not go back, and the two clocks disagree by `ε` at most. -/
def Ev.InOrder (ε : ℚ) (a b : Ev) : Prop :=
  ∀ t ∈ a.reading, ∀ u ∈ b.reading, t ≤ if a.isNsec = b.isNsec then u else u + ε

instance (ε : ℚ) : DecidableRel (Ev.InOrder ε) := fun a b =>
  inferInstanceAs (Decidable (∀ t ∈ a.reading, ∀ u ∈ b.reading, _))

/-! ## One loop -/

namespace Pacer

variable {plan : Plan} {p p' : Pacer} {e : Ev} {ε start : ℚ} {rs : List Ev}

/-- Behind the readings `rs` the deadlines lie on the grid of a first reading that is not before
    `start`, and the loop ends behind its last slice or behind the run time. -/
structure Timed (plan : Plan) (ε start : ℚ) (rs : List Ev) (p : Pacer) : Prop where
  fresh : p.pc = .readNow → p.z = 0
  grid : p.pc ∉ [Pc.readNow, .fault] → ∃ t0, start ≤ t0 + ε ∧ OnGrid plan t0 p ∧ Ev.getNsec p.now ∈ rs
  endTime : p.pc ∉ [Pc.readNow, .readStart, .fault] → start + plan.runtime ≤ p.endTime
  left : p.pc = .left → ∃ t, Ev.getMicrotime t ∈ rs ∧ p.endTime ≤ t
  done : p.pc = .done → plan.totalZeitscheiben ≤ p.z

theorem init_timed (plan : Plan) : Timed plan ε start rs (init plan) := by
  have hpc : (init plan).pc = .readNow ∨ (init plan).pc = .fault := by
    simp only [init]
    split <;> simp
  rcases hpc with hpc | hpc
  · exact ⟨fun _ => rfl, by simp [hpc], by simp [hpc], by simp [hpc], by simp [hpc]⟩
  · exact ⟨by simp [hpc], by simp [hpc], by simp [hpc], by simp [hpc], by simp [hpc]⟩

/-- The end of the run time is set once. -/
theorem step_endTime (h : step plan p e = some p') :
    p.pc = .readStart ∧ (∃ t, e = .getMicrotime t ∧ p'.endTime = t + plan.runtime) ∨
      p.pc ≠ .readStart ∧ p'.endTime = p.endTime := by
  cases step_cases h with
  | readNow t hpc => exact .inr ⟨by simp [hpc], rfl⟩
  | readStart t hpc => exact .inl ⟨hpc, t, rfl, (sliceLoop_keeps plan _).2.1⟩
  | sending hpc => exact .inr ⟨by simp [hpc], (sendLoop_keeps _).2.1⟩
  | waiting t hpc =>
    refine .inr ⟨by simp [hpc], ?_⟩
    unfold waitLoop
    split
    · rfl
    · split
      · rfl
      · exact (sliceLoop_keeps plan _).2.1
  | sleeping hpc => exact .inr ⟨by simp [hpc], rfl⟩
  | checkStop b hpc => exact .inr ⟨by simp [hpc], rfl⟩
  | checkEnd t hpc =>
    refine .inr ⟨by simp [hpc], ?_⟩
    split
    · rfl
    · exact (sliceLoop_keeps plan _).2.1

/-- Between two slices the loop is over when there are no more. -/
theorem sliceLoop_done (h : (sliceLoop plan p).pc = .done) :
    plan.totalZeitscheiben ≤ (sliceLoop plan p).z := by
  unfold sliceLoop at h ⊢
  split
  · next hz =>
    have hne : plan.totalZeitscheiben - p.z ≠ 0 := by omega
    simp only [if_pos hz, cdiv, if_neg hne, sendLoop] at h
    split_ifs at h
  · next hz => exact Int.not_lt.mp hz

/-- How a step ends the loop when nobody asks for it. -/
theorem step_over (h : step plan p e = some p') (he : e ≠ .threadShouldStop true) :
    (p'.pc = .left → ∃ t, e = .getMicrotime t ∧ p'.endTime ≤ t) ∧
      (p'.pc = .done → plan.totalZeitscheiben ≤ p'.z) := by
  have hslice : ∀ q : Pacer, (sliceLoop plan q).pc ≠ .left := fun q => sliceLoop_pc_ne (by decide) q
  cases step_cases h with
  | readNow t hpc => simp
  | readStart t hpc => exact ⟨fun hl => absurd hl (hslice _), sliceLoop_done⟩
  | sending hpc =>
    unfold sendLoop
    split <;> simp
  | waiting t hpc =>
    unfold waitLoop
    split
    · simp
    · split
      · simp
      · exact ⟨fun hl => absurd hl (hslice _), sliceLoop_done⟩
  | sleeping hpc => simp
  | checkStop b hpc =>
    cases b with
    | false => simp
    | true => exact absurd rfl he
  | checkEnd t hpc =>
    split
    · next hend => exact ⟨fun _ => ⟨t, rfl, hend⟩, by simp⟩
    · exact ⟨fun hl => absurd hl (hslice _), sliceLoop_done⟩

/-- `now` is a reading of the loop, from the first one on. -/
theorem now_mem (h : step plan p e = some p') (hmem : Ev.getNsec p.now ∈ rs) : Ev.getNsec p'.now ∈ rs ++ [e] := by
  have hnow := (step_now h).2.2
  by_cases hnsec : ∃ t, e = .getNsec t
  · obtain ⟨t, rfl⟩ := hnsec
    rw [hnow]
    exact List.mem_append_right rs (List.mem_singleton_self _)
  · have hsame : p'.now = p.now := by
      rw [hnow]
      cases e <;> simp_all
    rw [hsame]
    exact List.mem_append_left _ hmem

theorem step_timed (h : step plan p e = some p') (ht : Timed plan ε start rs p)
    (hstart : Ev.getMicrotime start ∈ rs) (hclock : ∀ a ∈ rs, a.InOrder ε e) (he : e ≠ .threadShouldStop true) :
    Timed plan ε start (rs ++ [e]) p' := by
  have hnot : p.pc ≠ .fault := by
    intro hf
    simp [step, hf] at h
  obtain ⟨hread, hfault, -⟩ := step_now h
  obtain ⟨hleft, hdone⟩ := step_over h he
  refine ⟨fun hpc => absurd hpc hread, fun _ => ?_, fun hpc => ?_, fun hpc => ?_, hdone⟩
  · by_cases hpc : p.pc = .readNow
    · -- the first reading sets the grid
      obtain ⟨t, rfl, hsame, hg⟩ := first_onGrid h hpc (ht.fresh hpc)
      refine ⟨t, ?_, hg, ?_⟩
      · exact hclock _ hstart start rfl t rfl
      · rw [hsame]
        exact List.mem_append_right rs (List.mem_singleton_self _)
    · obtain ⟨t0, h0, hg, hmem⟩ := ht.grid (by simp [hpc, hnot])
      refine ⟨t0, h0, step_onGrid h hpc hg ?_, ?_⟩
      · intro t het
        subst het
        exact hclock _ hmem p.now rfl t rfl
      · exact now_mem h hmem
  · rcases step_endTime h with ⟨-, t, rfl, hend⟩ | ⟨hpc', hend⟩
    · rw [hend]
      have hle : start ≤ t := hclock _ hstart start rfl t rfl
      linarith
    · rw [hend]
      apply ht.endTime
      intro hmem
      have hpc'' : p.pc = .readNow := by simpa [hpc', hnot] using hmem
      cases step_cases h <;> simp_all
  · obtain ⟨t, rfl, hend⟩ := hleft hpc
    exact ⟨t, List.mem_append_right rs (List.mem_singleton_self _), hend⟩

/-- How long the loop takes when nobody asks it to stop. -/
theorem Timed.covers (ht : Timed plan ε start rs p) (hover : p.pc = .left ∨ p.pc = .done)
    (hZ : 0 ≤ plan.zeitscheibe) {t : ℚ} (hclock : ∀ a ∈ rs, a.InOrder ε (.getMicrotime t)) :
    min (plan.totalZeitscheiben * plan.zeitscheibe - 2 * ε) plan.runtime ≤ t - start := by
  rcases hover with hpc | hpc
  · obtain ⟨u, hu, hend⟩ := ht.left hpc
    have hstart := ht.endTime (by simp [hpc])
    have hlast : u ≤ t := hclock _ hu u rfl t rfl
    apply min_le_of_right_le
    linarith
  · obtain ⟨t0, h0, hg, hmem⟩ := ht.grid (by simp [hpc])
    have hpassed := hg.passed
    have hlast : p.now ≤ t + ε := hclock _ hmem p.now rfl t rfl
    have hz : (plan.totalZeitscheiben : ℚ) ≤ p.z := Int.cast_le.mpr (ht.done hpc)
    have hslices := mul_le_mul_of_nonneg_right hz hZ
    simp only [slicesPassed, hpc] at hpassed
    apply min_le_of_left_le
    linarith

end Pacer

namespace Flood

variable {runtime : Int} {f f' : Flood} {e : Ev} {ε start : ℚ} {rs : List Ev}

/-- Behind the readings `rs` the loop ends behind the run time. -/
structure Timed (runtime : Int) (start : ℚ) (rs : List Ev) (f : Flood) : Prop where
  endTime : f.pc ≠ .readStart → start + runtime ≤ f.endTime
  now : f.pc ∈ [FloodPc.checkStop, .over] → Ev.getMicrotime f.now ∈ rs
  late : f.pc = .over → f.endTime < f.now

theorem init_timed : Timed runtime start rs init := ⟨by simp [init], by simp [init], by simp [init]⟩

theorem loopEnd_timed (hend : start + runtime ≤ f.endTime) (hnow : Ev.getMicrotime f.now ∈ rs) :
    Timed runtime start rs (loopEnd f) := by
  refine ⟨fun _ => hend, fun _ => hnow, fun hpc => ?_⟩
  by_contra hlt
  simp only [loopEnd] at hpc hlt
  rw [if_neg hlt] at hpc
  cases hpc

theorem step_timed (h : step runtime f e = some f') (ht : Timed runtime start rs f)
    (hstart : Ev.getMicrotime start ∈ rs) (hclock : ∀ a ∈ rs, a.InOrder ε e) (he : e ≠ .threadShouldStop true) :
    Timed runtime start (rs ++ [e]) f' := by
  have hmem : e ∈ rs ++ [e] := List.mem_append_right rs (List.mem_singleton_self e)
  cases step_cases h with
  | readStart t hpc =>
    have hle : start ≤ t := hclock _ hstart start rfl t rfl
    refine ⟨fun _ => ?_, by simp, by simp⟩
    show start + runtime ≤ t + runtime
    linarith
  | polling b hpc =>
    refine ⟨fun _ => ht.endTime (by simp [hpc]), ?_, ?_⟩ <;> cases b <;> simp
  | sending hpc => exact ⟨fun _ => ht.endTime (by simp [hpc]), by simp, by simp⟩
  | readNow t hpc =>
    have hend := ht.endTime (by simp [hpc])
    split
    · exact ⟨fun _ => hend, fun _ => hmem, by simp⟩
    · exact loopEnd_timed hend hmem
  | checkStop b hpc =>
    cases b with
    | false => exact loopEnd_timed (ht.endTime (by simp [hpc])) (List.mem_append_left _ (ht.now (by simp [hpc])))
    | true => exact absurd rfl he

theorem Timed.covers (ht : Timed runtime start rs f) (hover : f.pc = .over) {t : ℚ}
    (hclock : ∀ a ∈ rs, a.InOrder ε (.getMicrotime t)) : runtime ≤ t - start := by
  have hend := ht.endTime (by simp [hover])
  have hlate := ht.late hover
  have hlast : f.now ≤ t := hclock _ (ht.now (by simp [hover])) f.now rfl t rfl
  linarith

end Flood

/-! ## The thread -/

/-- The touches of the loops among what a thread does. -/
def ThreadEv.touches {size : Nat} : ThreadEv size → List Ev
  | .sendPacket _ => [.sendPacket]
  | .env e => [e]
  | _ => []

/-- The least duration of a thread with a rate: that of its slices, or its run time. -/
def Config.pacedDuration (c : Config) (ε : ℚ) : ℚ := min (c.slices * c.zeitscheibe - 2 * ε) c.runtime

def Config.leastDuration (c : Config) (ε : ℚ) (queryrate : Int) : ℚ :=
  if 0 < queryrate then c.pacedDuration ε else c.runtime

/-- The load loop of a thread with this rate. -/
def Load.Timed (c : Config) (queryrate : Int) (ε start : ℚ) (rs : List Ev) : Load → Prop
  | .none => False
  | .limited plan p => 0 < queryrate ∧ plan = SenderThread.plan c queryrate ∧ p.Timed plan ε start rs
  | .flood f => queryrate ≤ 0 ∧ f.Timed c.runtime start rs

namespace Load

variable {c : Config} {queryrate : Int} {ε start : ℚ} {rs : List Ev} {l l' : Load} {e : Ev}

theorem step_timed (h : l.step c.runtime e = some l') (ht : l.Timed c queryrate ε start rs)
    (hstart : Ev.getMicrotime start ∈ rs) (hclock : ∀ a ∈ rs, a.InOrder ε e) (he : e ≠ .threadShouldStop true) :
    l'.Timed c queryrate ε start (rs ++ [e]) := by
  cases step_cases h with
  | limited plan p p' hp =>
    obtain ⟨hrate, hplan, htimed⟩ := ht
    exact ⟨hrate, hplan, Pacer.step_timed hp htimed hstart hclock he⟩
  | flood f f' hf =>
    obtain ⟨hrate, htimed⟩ := ht
    exact ⟨hrate, Flood.step_timed hf htimed hstart hclock he⟩

theorem Timed.covers (ht : l.Timed c queryrate ε start rs) (hover : l.Over) (hZ : 0 ≤ c.zeitscheibe) {t : ℚ}
    (hclock : ∀ a ∈ rs, a.InOrder ε (.getMicrotime t)) : c.leastDuration ε queryrate ≤ t - start := by
  cases l with
  | none => exact ht.elim
  | limited plan p =>
    obtain ⟨hrate, rfl, htimed⟩ := ht
    rw [Config.leastDuration, if_pos hrate]
    exact htimed.covers hover hZ hclock
  | flood f =>
    obtain ⟨hrate, htimed⟩ := ht
    rw [Config.leastDuration, if_neg (by omega)]
    exact htimed.covers hover hclock

end Load

namespace SenderThread

variable {c : Config} {s t : SenderThread c} {e : ThreadEv c.packetsize} {ε : ℚ} {rs : List Ev}

/-- A thread against the readings `rs`: its load loop began behind `start`, and what it has measured
    is not less than its least duration. -/
structure Timed (ε : ℚ) (rs : List Ev) (s : SenderThread c) : Prop where
  loading : s.pc ∈ [ThreadPc.loading, .readDuration] →
    Ev.getMicrotime s.start ∈ rs ∧ s.load.Timed c s.queryrate ε s.start rs
  returned : s.pc = .readDuration → s.load.Over
  covered : s.pc ∈ [ThreadPc.waiting, .stopReceiver, .idle] → c.leastDuration ε s.queryrate ≤ s.duration

theorem threadStart_timed (s : SenderThread c) : s.threadStart.Timed ε rs :=
  ⟨by simp [threadStart], by simp [threadStart], by simp [threadStart]⟩

/-- **One step of a thread** that nobody asks to stop. -/
theorem step_timed (h : step s e = some t) (ht : s.Timed ε rs) (hZ : 0 ≤ c.zeitscheibe)
    (hclock : ∀ x ∈ e.touches, x ≠ .threadShouldStop true ∧ ∀ a ∈ rs, a.InOrder ε x) :
    t.Timed ε (rs ++ e.touches) := by
  cases step_cases h with
  | starting fill hpc => split <;> exact ⟨by simp [clear], by simp [clear], by simp [clear]⟩
  | startReceiver hpc => exact ⟨by simp [clear], by simp [clear], by simp [clear]⟩
  | readStart time hpc =>
    refine ⟨fun _ => ⟨List.mem_append_right rs (List.mem_singleton_self _), ?_⟩, by simp, by simp⟩
    simp only [chooseLoad]
    split
    · next hrate => exact ⟨hrate, rfl, Pacer.init_timed _⟩
    · next hrate => exact ⟨by omega, Flood.init_timed⟩
  | sendPacket x l hpc hl =>
    obtain ⟨hstart, hload⟩ := ht.loading (by simp [hpc])
    obtain ⟨hstop, horder⟩ := hclock .sendPacket (List.mem_singleton_self _)
    have hload' := Load.step_timed hl hload hstart horder hstop
    refine ⟨fun _ => ⟨List.mem_append_left _ hstart, hload'⟩, ?_, ?_⟩
    · simp only
      split <;> simp_all
    · simp only
      split <;> simp
  | loading w l hpc hw hl =>
    obtain ⟨hstart, hload⟩ := ht.loading (by simp [hpc])
    obtain ⟨hstop, horder⟩ := hclock w (List.mem_singleton_self _)
    have hload' := Load.step_timed hl hload hstart horder hstop
    refine ⟨fun _ => ⟨List.mem_append_left _ hstart, hload'⟩, ?_, ?_⟩
    · simp only
      split <;> simp_all
    · simp only
      split <;> simp
  | readDuration time hpc =>
    obtain ⟨hstart, hload⟩ := ht.loading (by simp [hpc])
    have hcovers := hload.covers (ht.returned hpc) hZ (hclock _ (List.mem_singleton_self _)).2
    exact ⟨by simp, by simp, fun _ => hcovers⟩
  | waiting w l hpc hw =>
    have hcovered := ht.covered (by simp [hpc])
    refine ⟨?_, ?_, fun _ => hcovered⟩
    · simp only
      split <;> simp
    · simp only
      split <;> simp
  | stopReceiver hpc => exact ⟨by simp, by simp, fun _ => ht.covered (by simp [hpc])⟩

end SenderThread

end UdpPingPong
