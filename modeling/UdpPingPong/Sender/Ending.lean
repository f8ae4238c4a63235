import UdpPingPong.Lib.Ticking
import UdpPingPong.Sender.Duration

/- A sender thread comes to its end.

   Every loop of the thread waits for a time on one of its clocks. When each reading of a
   clock is at least `δ` behind the one before, however the thread is scheduled and whatever
   its socket does, the loops end, and there is a bound on how often the thread touches its
   environment.

   1. `touchesLeft` of `Pacer`, `Flood` and `Wait`: how many touches a loop has left at most;
      `step_touchesLeft`: every step takes one of them;
   2. `Spends`: a loop, and the thread as a whole, that keeps to a number of touches;
   3. `sender_ends`: every run of a thread keeps to its number, and one that is not over can
      go on. -/
namespace UdpPingPong

open Exec Ticking Wire

/-- Readings of one clock are at least `δ` apart. -/
def Ev.Ticks (δ : ℚ) (a b : Ev) : Prop :=
  ∀ t ∈ a.reading, ∀ u ∈ b.reading, a.isNsec = b.isNsec → t + δ ≤ u

instance (δ : ℚ) : DecidableRel (Ev.Ticks δ) := fun a b =>
  inferInstanceAs (Decidable (∀ t ∈ a.reading, ∀ u ∈ b.reading, a.isNsec = b.isNsec → _))

/-! ## The rate-limited loop -/

namespace Pacer

variable {plan : Plan} {p p' : Pacer} {e : Ev} {δ t₀ N : ℚ} {rs : List Ev} {n : Int} {k : Nat}

/-- The touches between two readings. -/
def weight : Pc → ℚ
  | .readNow | .checkStop => 3
  | .readStart | .sleeping | .checkEnd => 2
  | .sending | .waiting => 1
  | .left | .done | .fault => 0

/-- The readings and sleeps up to the time `last`, the checks behind the slices that are left, and the
    packets, when `n` of them are sent. -/
def touchesLeft (plan : Plan) (δ last : ℚ) (n : Int) (p : Pacer) : ℚ :=
  2 * ticksLeft δ last p.now + 4 * (plan.totalZeitscheiben - p.slicesPassed) + (plan.queries - n) + weight p.pc

/-- The deadline of the last slice. -/
def lastDeadline (plan : Plan) (t₀ : ℚ) : ℚ := t₀ + plan.totalZeitscheiben * plan.zeitscheibe

theorem touchesLeft_nonneg (hQ : 0 ≤ plan.queries) (hT : 0 < plan.totalZeitscheiben) (hi : Inv plan n p) (δ last : ℚ) :
    0 ≤ touchesLeft plan δ last n p := by
  have hticks := ticksLeft_nonneg δ last p.now
  have hslices : p.slicesPassed ≤ plan.totalZeitscheiben := by
    have hle := hi.over_le
    have hpassed : p.slicesPassed ≤ p.slicesOver := by
      cases hpc : p.pc <;> simp only [slicesPassed, slicesOver, hpc] <;> omega
    omega
  have hsent := hi.sent_le hQ hT
  have hweight : 0 ≤ weight p.pc := by cases p.pc <;> simp [weight]
  have hslices' : (p.slicesPassed : ℚ) ≤ plan.totalZeitscheiben := by exact_mod_cast hslices
  have hsent' : (n : ℚ) ≤ plan.queries := by exact_mod_cast hsent
  rw [touchesLeft]
  linarith

/-- Between two slices a loop sends, waits or is over. -/
theorem sliceLoop_touchesLeft (plan : Plan) (δ last : ℚ) (n : Int) (p : Pacer) : touchesLeft plan δ last n (sliceLoop plan p) ≤
    2 * ticksLeft δ last p.now + 4 * (plan.totalZeitscheiben - p.z) + (plan.queries - n) + 1 := by
  have hz := (sliceLoop_keeps plan p).2.2
  obtain ⟨hpc, hnow⟩ := sliceLoop_mem (c := plan) p
  have hpc' : (sliceLoop plan p).pc = .sending ∨ (sliceLoop plan p).pc = .waiting ∨ (sliceLoop plan p).pc = .done := by
    simpa using hpc
  rcases hpc' with hpc' | hpc' | hpc' <;> simp only [touchesLeft, slicesPassed, weight, hpc', hz, hnow] <;> linarith

theorem nextSlice_touchesLeft (plan : Plan) (δ last : ℚ) (n : Int) (p : Pacer) : touchesLeft plan δ last n (nextSlice plan p) ≤
    2 * ticksLeft δ last p.now + 4 * (plan.totalZeitscheiben - (p.z + 1)) + (plan.queries - n) + 1 := by
  have hle := sliceLoop_touchesLeft plan δ last n { p with z := p.z + 1 }
  simp only [Int.cast_add, Int.cast_one] at hle
  exact hle

/-- **Every step takes one touch.** -/
theorem step_touchesLeft (h : step plan p e = some p') (hpc : p.pc ≠ .readNow) (hg : OnGrid plan t₀ p)
    (hi : Inv plan n p) (hδ : 0 < δ) (hZ : 0 ≤ plan.zeitscheibe) (hticks : ∀ t, e = .getNsec t → p.now + δ ≤ t) :
    touchesLeft plan δ (lastDeadline plan t₀) (n + if e = .sendPacket then 1 else 0) p' + 1 ≤
      touchesLeft plan δ (lastDeadline plan t₀) n p := by
  generalize hlast : lastDeadline plan t₀ = last
  cases step_cases h with
  | readNow t hs => exact absurd hs hpc
  | readStart t hs =>
    have hle := sliceLoop_touchesLeft plan δ last n { p with endTime := t + plan.runtime }
    have hp : touchesLeft plan δ last n p =
        2 * ticksLeft δ last p.now + 4 * (plan.totalZeitscheiben - p.z) + (plan.queries - n) + 2 := by
      simp only [touchesLeft, slicesPassed, weight, hs]
    simp only [reduceCtorEq, if_false, Int.add_zero]
    linarith
  | sending hs =>
    have hsame : touchesLeft plan δ last (n + 1) (sendLoop { p with i := p.i + 1 }) =
        2 * ticksLeft δ last p.now + 4 * (plan.totalZeitscheiben - p.z) + (plan.queries - (n + 1)) + 1 := by
      unfold sendLoop
      split <;> simp [touchesLeft, slicesPassed, weight]
    have hp : touchesLeft plan δ last n p =
        2 * ticksLeft δ last p.now + 4 * (plan.totalZeitscheiben - p.z) + (plan.queries - n) + 1 := by
      simp only [touchesLeft, slicesPassed, weight, hs]
    rw [if_pos rfl, hsame, hp]
    linarith
  | waiting t hs =>
    have hnow := hticks t rfl
    have hmono : ticksLeft δ last t ≤ ticksLeft δ last p.now := ticksLeft_mono hδ (by linarith)
    have hp : touchesLeft plan δ last n p =
        2 * ticksLeft δ last p.now + 4 * (plan.totalZeitscheiben - p.z) + (plan.queries - n) + 1 := by
      simp only [touchesLeft, slicesPassed, weight, hs]
    simp only [reduceCtorEq, if_false, Int.add_zero]
    unfold waitLoop
    split
    · next hlt =>
      -- the deadline is not behind the last one, so the reading takes a tick
      have hslice : (p.z : ℚ) + 1 ≤ plan.totalZeitscheiben := by
        have hle := hi.over_le
        simp only [slicesOver, hs] at hle
        exact_mod_cast hle
      have hdeadline := hg.deadline
      simp only [slicesBegun, hs, Int.cast_add, Int.cast_one] at hdeadline
      have hgrid := mul_le_mul_of_nonneg_right hslice hZ
      have htick : ticksLeft δ last t + 1 ≤ ticksLeft δ last p.now := by
        apply ticksLeft_tick hδ hnow
        rw [← hlast, lastDeadline]
        linarith
      rw [hp]
      simp only [touchesLeft, slicesPassed, weight]
      linarith
    · split
      · rw [hp]
        simp only [touchesLeft, slicesPassed, weight, Int.cast_add, Int.cast_one]
        linarith
      · have hle := nextSlice_touchesLeft plan δ last n { p with now := t }
        simp only at hle
        linarith
  | sleeping hs =>
    simp only [touchesLeft, slicesPassed, weight, hs, reduceCtorEq, if_false, Int.add_zero]
    linarith
  | checkStop b hs =>
    cases b <;>
      simp only [touchesLeft, slicesPassed, weight, hs, reduceCtorEq, if_false, if_true, Int.add_zero] <;> linarith
  | checkEnd t hs =>
    have hp : touchesLeft plan δ last n p =
        2 * ticksLeft δ last p.now + 4 * (plan.totalZeitscheiben - (p.z + 1)) + (plan.queries - n) + 2 := by
      simp only [touchesLeft, slicesPassed, weight, hs, Int.cast_add, Int.cast_one]
    simp only [reduceCtorEq, if_false, Int.add_zero]
    split
    · rw [hp]
      simp only [touchesLeft, slicesPassed, weight, Int.cast_add, Int.cast_one]
      linarith
    · have hle := nextSlice_touchesLeft plan δ last n p
      linarith

/-- A loop that has made `k` touches and sent `n` packets keeps to `N` touches. -/
structure Spends (plan : Plan) (δ N : ℚ) (rs : List Ev) (k : Nat) (n : Int) (p : Pacer) : Prop where
  inv : Inv plan n p
  fresh : p.pc = .readNow → p.z = 0 ∧ k + touchesLeft plan δ (lastDeadline plan p.now) n p ≤ N
  begun : p.pc ≠ .readNow → ∃ t₀, OnGrid plan t₀ p ∧ Ev.getNsec p.now ∈ rs ∧
    k + touchesLeft plan δ (lastDeadline plan t₀) n p ≤ N

theorem step_spends (h : step plan p e = some p') (hs : Spends plan δ N rs k n p) (hQ : 0 ≤ plan.queries)
    (hT : 0 < plan.totalZeitscheiben) (hδ : 0 < δ) (hZ : 0 ≤ plan.zeitscheibe) (hticks : ∀ a ∈ rs, a.Ticks δ e) :
    Spends plan δ N (rs ++ [e]) (k + 1) (n + if e = .sendPacket then 1 else 0) p' := by
  obtain ⟨hread, -, -⟩ := step_now h
  refine ⟨step_inv hQ hT h hs.inv, fun hpc => absurd hpc hread, fun _ => ?_⟩
  by_cases hpc : p.pc = .readNow
  · obtain ⟨hz, hle⟩ := hs.fresh hpc
    obtain ⟨t, rfl, -, hg⟩ := first_onGrid h hpc hz
    cases step_cases h with
    | readNow _ _ =>
      refine ⟨t, hg, List.mem_append_right rs (List.mem_singleton_self _), ?_⟩
      simp only [touchesLeft, slicesPassed, weight, hpc, lastDeadline, ticksLeft_add] at hle ⊢
      simp only [reduceCtorEq, if_false, Int.add_zero]
      push_cast
      linarith
    | waiting _ hwait => exact absurd (hwait.symm.trans hpc) (by decide)
  · obtain ⟨t₀, hg, hmem, hle⟩ := hs.begun hpc
    have hlater : ∀ t, e = .getNsec t → p.now + δ ≤ t := by
      intro t het
      subst het
      exact hticks _ hmem p.now rfl t rfl rfl
    have hstep := step_touchesLeft h hpc hg hs.inv hδ hZ hlater
    refine ⟨t₀, step_onGrid h hpc hg fun t het => ?_, ?_, ?_⟩
    · have hle := hlater t het
      linarith
    · exact now_mem h hmem
    · push_cast at hstep ⊢
      linarith

theorem Spends.le (hs : Spends plan δ N rs k n p) (hQ : 0 ≤ plan.queries) (hT : 0 < plan.totalZeitscheiben) :
    k ≤ N := by
  by_cases hpc : p.pc = .readNow
  · have hle := (hs.fresh hpc).2
    have hnonneg := touchesLeft_nonneg hQ hT hs.inv δ (lastDeadline plan p.now)
    linarith
  · obtain ⟨t₀, -, -, hle⟩ := hs.begun hpc
    have hnonneg := touchesLeft_nonneg hQ hT hs.inv δ (lastDeadline plan t₀)
    linarith

/-- A loop that is not over goes on, whatever the clock shows. -/
theorem step_enabled (plan : Plan) (hpc : p.pc ∉ [Pc.left, .done, .fault]) (t : ℚ) :
    ∃ e, (step plan p e).isSome ∧ ∀ u ∈ e.reading, u = t := by
  cases hp : p.pc with
  | readNow => exact ⟨.getNsec t, by simp [step, hp], by simp [Ev.reading]⟩
  | readStart => exact ⟨.getMicrotime t, by simp [step, hp], by simp [Ev.reading]⟩
  | sending => exact ⟨.sendPacket, by simp [step, hp], by simp [Ev.reading]⟩
  | waiting => exact ⟨.getNsec t, by simp [step, hp], by simp [Ev.reading]⟩
  | sleeping => exact ⟨.nanosleep, by simp [step, hp], by simp [Ev.reading]⟩
  | checkStop => exact ⟨.threadShouldStop false, by simp [step, hp], by simp [Ev.reading]⟩
  | checkEnd => exact ⟨.getMicrotime t, by simp [step, hp], by simp [Ev.reading]⟩
  | left => simp [hp] at hpc
  | done => simp [hp] at hpc
  | fault => simp [hp] at hpc

end Pacer

namespace Flood

variable {runtime : Int} {f f' : Flood} {e : Ev} {δ N : ℚ} {rs : List Ev} {k : Nat}

/-- The touches up to the next reading. -/
def weight : FloodPc → ℚ
  | .readStart | .checkStop => 4
  | .polling => 3
  | .sending => 2
  | .readNow => 1
  | .over => 0

/-- The touches that are left when the clock was last read at `now`. -/
def touchesLeft (δ now : ℚ) (f : Flood) : ℚ := 4 * ticksLeft δ f.endTime now + weight f.pc

/-- A loop that has made `k` touches keeps to `N` touches. -/
structure Spends (runtime : Int) (δ N : ℚ) (rs : List Ev) (k : Nat) (f : Flood) : Prop where
  fresh : f.pc = .readStart → k + (4 * ticksLeft δ runtime 0 + 4) ≤ N
  begun : f.pc ≠ .readStart → ∃ now, Ev.getMicrotime now ∈ rs ∧ k + touchesLeft δ now f ≤ N ∧
    (f.pc = .checkStop → f.now = now) ∧ (f.pc ∈ [FloodPc.polling, .sending, .readNow] → now ≤ f.endTime)

/-- The end of the loop body, behind the reading `f.now`. -/
theorem loopEnd_spends (hmem : Ev.getMicrotime f.now ∈ rs) (hle : k + (4 * ticksLeft δ f.endTime f.now + 3) ≤ N) :
    Spends runtime δ N rs k (loopEnd f) := by
  by_cases hend : f.endTime < f.now
  · have hover : (loopEnd f).pc = .over := if_pos hend
    refine ⟨by simp [hover], fun _ => ⟨f.now, hmem, ?_, by simp [hover], by simp [hover]⟩⟩
    have hsame : (loopEnd f).endTime = f.endTime := rfl
    rw [touchesLeft, hover, weight, hsame]
    linarith
  · have hpolling : (loopEnd f).pc = .polling := if_neg hend
    refine ⟨by simp [hpolling], fun _ => ⟨f.now, hmem, ?_, by simp [hpolling], fun _ => not_lt.mp hend⟩⟩
    rw [touchesLeft, hpolling, weight]
    exact hle

theorem step_spends (h : step runtime f e = some f') (hs : Spends runtime δ N rs k f) (hR : 0 ≤ runtime)
    (hδ : 0 < δ) (hticks : ∀ a ∈ rs, a.Ticks δ e) : Spends runtime δ N (rs ++ [e]) (k + 1) f' := by
  have hlast : e ∈ rs ++ [e] := List.mem_append_right rs (List.mem_singleton_self e)
  cases step_cases h with
  | readStart t hpc =>
    have hle := hs.fresh hpc
    have hruntime : (0 : ℚ) ≤ runtime := by exact_mod_cast hR
    refine ⟨by simp, fun _ => ⟨t, hlast, ?_, by simp, fun _ => by simp only; linarith⟩⟩
    simp only [touchesLeft, weight, ticksLeft_add]
    push_cast
    linarith
  | polling b hpc =>
    obtain ⟨now, hmem, hle, -, hend⟩ := hs.begun (by simp [hpc])
    rw [touchesLeft, hpc] at hle
    refine ⟨by cases b <;> simp, fun _ => ⟨now, List.mem_append_left _ hmem, ?_, by cases b <;> simp,
      fun _ => hend (by simp [hpc])⟩⟩
    cases b <;> simp only [touchesLeft, weight, if_true, Bool.false_eq_true, if_false] at hle ⊢ <;> push_cast <;> linarith
  | sending hpc =>
    obtain ⟨now, hmem, hle, -, hend⟩ := hs.begun (by simp [hpc])
    refine ⟨by simp, fun _ => ⟨now, List.mem_append_left _ hmem, ?_, by simp, fun _ => hend (by simp [hpc])⟩⟩
    simp only [touchesLeft, weight, hpc] at hle ⊢
    push_cast
    linarith
  | readNow t hpc =>
    obtain ⟨now, hmem, hle, -, hend⟩ := hs.begun (by simp [hpc])
    simp only [touchesLeft, weight, hpc] at hle
    have htick := ticksLeft_tick hδ (hticks _ hmem now rfl t rfl rfl) (hend (by simp [hpc]))
    split
    · refine ⟨by simp, fun _ => ⟨t, hlast, ?_, fun _ => rfl, by simp⟩⟩
      simp only [touchesLeft, weight]
      push_cast
      linarith
    · apply loopEnd_spends hlast
      push_cast
      linarith
  | checkStop b hpc =>
    obtain ⟨now, hmem, hle, hnow, -⟩ := hs.begun (by simp [hpc])
    obtain rfl := hnow hpc
    simp only [touchesLeft, weight, hpc] at hle
    have hticks0 := ticksLeft_nonneg δ f.endTime f.now
    cases b with
    | false =>
      apply loopEnd_spends (List.mem_append_left _ hmem)
      push_cast
      linarith
    | true =>
      refine ⟨by simp, fun _ => ⟨f.now, List.mem_append_left _ hmem, ?_, by simp, by simp⟩⟩
      simp only [touchesLeft, weight, if_true]
      push_cast
      linarith

theorem Spends.le (hs : Spends runtime δ N rs k f) : k ≤ N := by
  have hweight : 0 ≤ weight f.pc := by cases f.pc <;> simp [weight]
  by_cases hpc : f.pc = .readStart
  · have hle := hs.fresh hpc
    have hticks := ticksLeft_nonneg δ (runtime : ℚ) 0
    linarith
  · obtain ⟨now, -, hle, -⟩ := hs.begun hpc
    have hticks := ticksLeft_nonneg δ f.endTime now
    rw [touchesLeft] at hle
    linarith

theorem step_enabled (runtime : Int) (hpc : f.pc ≠ .over) (t : ℚ) : ∃ e, (step runtime f e).isSome ∧ ∀ u ∈ e.reading, u = t := by
  cases hp : f.pc with
  | readStart => exact ⟨.getMicrotime t, by simp [step, hp], by simp [Ev.reading]⟩
  | polling => exact ⟨.socketReady false, by simp [step, hp], by simp [Ev.reading]⟩
  | sending => exact ⟨.sendPacket, by simp [step, hp], by simp [Ev.reading]⟩
  | readNow => exact ⟨.getMicrotime t, by simp [step, hp], by simp [Ev.reading]⟩
  | checkStop => exact ⟨.threadShouldStop false, by simp [step, hp], by simp [Ev.reading]⟩
  | _ => exact absurd hp hpc

end Flood

namespace Wait

variable {timeout : Int} {w w' : Wait} {e : Ev} {δ N : ℚ} {rs : List Ev} {k : Nat}

/-- The touches up to the next reading. -/
def weight : WaitPc → ℚ
  | .checkStop => 3
  | .readStart | .sleeping => 2
  | .readNow => 1
  | .over => 0

/-- The touches that are left when the clock was last read at `now`. -/
def touchesLeft (δ now : ℚ) (w : Wait) : ℚ := 3 * ticksLeft δ w.endTime now + weight w.pc

structure Spends (timeout : Int) (δ N : ℚ) (rs : List Ev) (k : Nat) (w : Wait) : Prop where
  fresh : w.pc = .readStart → k + (3 * ticksLeft δ timeout 0 + 2) ≤ N
  begun : w.pc ≠ .readStart → ∃ now, Ev.getMicrotime now ∈ rs ∧ k + touchesLeft δ now w ≤ N

theorem step_spends (h : step timeout w e = some w') (hs : Spends timeout δ N rs k w) (hδ : 0 < δ)
    (hticks : ∀ a ∈ rs, a.Ticks δ e) : Spends timeout δ N (rs ++ [e]) (k + 1) w' := by
  have hlast : e ∈ rs ++ [e] := List.mem_append_right rs (List.mem_singleton_self e)
  cases step_cases h with
  | readStart t hpc =>
    have hle := hs.fresh hpc
    refine ⟨by simp, fun _ => ⟨t, hlast, ?_⟩⟩
    simp only [touchesLeft, weight, ticksLeft_add]
    push_cast
    linarith
  | readNow t hpc =>
    obtain ⟨now, hmem, hle⟩ := hs.begun (by simp [hpc])
    simp only [touchesLeft, weight, hpc] at hle
    have hlater : now + δ ≤ t := hticks _ hmem now rfl t rfl rfl
    by_cases hend : t < w.endTime
    · have htick := ticksLeft_tick hδ hlater (by linarith : now ≤ w.endTime)
      rw [if_pos hend]
      split
      · refine ⟨by simp, fun _ => ⟨t, hlast, ?_⟩⟩
        simp only [touchesLeft, weight]
        push_cast
        linarith
      · refine ⟨by simp, fun _ => ⟨t, hlast, ?_⟩⟩
        simp only [touchesLeft, weight]
        push_cast
        linarith
    · have hmono : ticksLeft δ w.endTime t ≤ ticksLeft δ w.endTime now := ticksLeft_mono hδ (by linarith)
      rw [if_neg hend]
      refine ⟨by simp, fun _ => ⟨t, hlast, ?_⟩⟩
      simp only [touchesLeft, weight]
      push_cast
      linarith
  | checkStop b hpc =>
    obtain ⟨now, hmem, hle⟩ := hs.begun (by simp [hpc])
    refine ⟨by cases b <;> simp, fun _ => ⟨now, List.mem_append_left _ hmem, ?_⟩⟩
    cases b <;>
      simp only [touchesLeft, weight, hpc, if_true, Bool.false_eq_true, if_false] at hle ⊢ <;> push_cast <;> linarith
  | sleeping hpc =>
    obtain ⟨now, hmem, hle⟩ := hs.begun (by simp [hpc])
    refine ⟨by simp, fun _ => ⟨now, List.mem_append_left _ hmem, ?_⟩⟩
    simp only [touchesLeft, weight, hpc] at hle ⊢
    push_cast
    linarith

theorem Spends.le (hs : Spends timeout δ N rs k w) : k ≤ N := by
  have hweight : 0 ≤ weight w.pc := by cases w.pc <;> simp [weight]
  by_cases hpc : w.pc = .readStart
  · have hle := hs.fresh hpc
    have hticks := ticksLeft_nonneg δ (timeout : ℚ) 0
    linarith
  · obtain ⟨now, -, hle⟩ := hs.begun hpc
    have hticks := ticksLeft_nonneg δ w.endTime now
    rw [touchesLeft] at hle
    linarith

theorem step_enabled (timeout : Int) (hpc : w.pc ≠ .over) (t : ℚ) : ∃ e, (step timeout w e).isSome ∧ ∀ u ∈ e.reading, u = t := by
  cases hp : w.pc with
  | readStart => exact ⟨.getMicrotime t, by simp [step, hp], by simp [Ev.reading]⟩
  | readNow => exact ⟨.getMicrotime t, by simp [step, hp], by simp [Ev.reading]⟩
  | checkStop => exact ⟨.threadShouldStop false, by simp [step, hp], by simp [Ev.reading]⟩
  | sleeping => exact ⟨.mSleep, by simp [step, hp], by simp [Ev.reading]⟩
  | _ => exact absurd hp hpc

end Wait

/-! ## The thread -/

/-- The touches of a load loop, with and without a rate. -/
def Config.loadTouches (c : Config) (δ : ℚ) (queryrate : Int) : ℚ :=
  if 0 < queryrate then
    2 * ticksLeft δ (c.slices * c.zeitscheibe) 0 + 4 * c.slices + c.runtime * queryrate + 3
  else 4 * ticksLeft δ c.runtime 0 + 4

def Config.waitTouches (c : Config) (δ : ℚ) : ℚ := 3 * ticksLeft δ c.timeout 0 + 2

/-- The longest run of a thread: it fills its buffer, starts its receiver and reads its start time, goes
    through its two loops with a reading between them, and stops its receiver. -/
def Config.longestRun (c : Config) (δ : ℚ) (queryrate : Int) : ℚ :=
  3 + c.loadTouches δ queryrate + 1 + c.waitTouches δ + 1

/-- The load loop of a thread with this rate keeps to `N` touches. -/
def Load.Spends (c : Config) (queryrate : Int) (δ N : ℚ) (rs : List Ev) (k : Nat) : Load → Prop
  | .none => False
  | .limited plan p => 0 < queryrate ∧ plan = SenderThread.plan c queryrate ∧ ∃ n, p.Spends plan δ N rs k n
  | .flood f => queryrate ≤ 0 ∧ f.Spends c.runtime δ N rs k

namespace Load

variable {c : Config} {queryrate : Int} {δ N : ℚ} {rs : List Ev} {k : Nat} {l l' : Load} {e : Ev}

theorem plan_queries (hR : 1 ≤ c.runtime) (hrate : 0 < queryrate) : 0 ≤ (SenderThread.plan c queryrate).queries :=
  Int.mul_nonneg (show 0 ≤ c.runtime by omega) (Int.le_of_lt hrate)

theorem step_spends (h : l.step c.runtime e = some l') (hs : l.Spends c queryrate δ N rs k) (hR : 1 ≤ c.runtime)
    (hT : 0 < queryrate → 1 ≤ c.slices) (hδ : 0 < δ) (hZ : 0 ≤ c.zeitscheibe) (hticks : ∀ a ∈ rs, a.Ticks δ e) :
    l'.Spends c queryrate δ N (rs ++ [e]) (k + 1) := by
  cases step_cases h with
  | limited plan p p' hp =>
    obtain ⟨hrate, rfl, n, hspends⟩ := hs
    exact ⟨hrate, rfl, _, Pacer.step_spends hp hspends (plan_queries hR hrate) (hT hrate) hδ hZ hticks⟩
  | flood f f' hf =>
    obtain ⟨hrate, hspends⟩ := hs
    exact ⟨hrate, Flood.step_spends hf hspends (by omega) hδ hticks⟩

theorem Spends.le (hs : l.Spends c queryrate δ N rs k) (hR : 1 ≤ c.runtime) (hT : 0 < queryrate → 1 ≤ c.slices) :
    k ≤ N := by
  cases l with
  | none => exact hs.elim
  | limited plan p =>
    obtain ⟨hrate, rfl, n, hspends⟩ := hs
    exact hspends.le (plan_queries hR hrate) (hT hrate)
  | flood f => exact hs.2.le

theorem Spends.step_enabled (hs : l.Spends c queryrate δ N rs k) (hover : ¬ l.Over) (t : ℚ) :
    ∃ e, (l.step c.runtime e).isSome ∧ ∀ u ∈ e.reading, u = t := by
  cases l with
  | none => exact hs.elim
  | limited plan p =>
    obtain ⟨-, -, n, hspends⟩ := hs
    have hfault := hspends.inv.no_fault
    obtain ⟨e, he, ht⟩ := Pacer.step_enabled plan (show p.pc ∉ _ by simpa [Over, hfault] using hover) t
    exact ⟨e, by simpa [step] using he, ht⟩
  | flood f =>
    obtain ⟨e, he, ht⟩ := Flood.step_enabled c.runtime hover t
    exact ⟨e, by simpa [step] using he, ht⟩

end Load

namespace SenderThread

variable {c : Config} {s t : SenderThread c} {e : ThreadEv c.packetsize} {δ N : ℚ} {rs : List Ev} {k : Nat}

/-- A thread that has made `k` touches keeps to `N` touches. -/
def Spends (δ N : ℚ) (rs : List Ev) (k : Nat) (s : SenderThread c) : Prop :=
  match s.pc with
  | .starting => k + c.longestRun δ s.queryrate ≤ N
  | .startReceiver => k + 1 + c.longestRun δ s.queryrate ≤ N + 2
  | .readStart => k + c.longestRun δ s.queryrate ≤ N + 2
  | .loading => ¬ s.load.Over ∧ s.load.Spends c s.queryrate δ (N - (c.waitTouches δ + 2)) rs k
  | .readDuration => k + (c.waitTouches δ + 2) ≤ N
  | .waiting => s.wait.pc ≠ .over ∧ s.wait.Spends c.timeout δ (N - 1) rs k
  | .stopReceiver => k + 1 ≤ N
  | .idle => k ≤ N

/-- The load loop that `run` chooses. -/
theorem chooseLoad_spends (hT : 0 < s.queryrate → 1 ≤ c.slices) (hN : k + c.loadTouches δ s.queryrate ≤ N) :
    ¬ s.chooseLoad.Over ∧ s.chooseLoad.Spends c s.queryrate δ N rs k := by
  by_cases hrate : 0 < s.queryrate
  · have hpc := Pacer.init_pc (c := plan c s.queryrate) (hT hrate)
    rw [chooseLoad, if_pos hrate]
    refine ⟨by simp [Load.Over, hpc], hrate, rfl, 0, Pacer.init_inv (hT hrate), fun _ => ⟨rfl, ?_⟩,
      fun hne => absurd hpc hne⟩
    rw [Config.loadTouches, if_pos hrate] at hN
    have hslices : ((plan c s.queryrate).totalZeitscheiben : ℚ) = c.slices := rfl
    have hqueries : ((plan c s.queryrate).queries : ℚ) = c.runtime * s.queryrate := by
      rw [Plan.queries]
      exact Int.cast_mul _ _
    have hz : ((Pacer.init (plan c s.queryrate)).slicesPassed : ℚ) = 0 := by
      rw [Pacer.slicesPassed, hpc]
      rfl
    rw [Pacer.touchesLeft, hpc, Pacer.weight, Pacer.lastDeadline, ticksLeft_add, hslices, hqueries, hz]
    have hzeit : (plan c s.queryrate).zeitscheibe = c.zeitscheibe := rfl
    rw [hzeit]
    push_cast
    linarith
  · rw [chooseLoad, if_neg hrate]
    rw [Config.loadTouches, if_neg hrate] at hN
    exact ⟨by simp [Load.Over, Flood.init], by omega, fun _ => hN, fun hne => absurd rfl hne⟩

/-- The load loop goes on, or `run` reads the duration. -/
theorem load_spends {l : Load} (hl : l.Spends c s.queryrate δ (N - (c.waitTouches δ + 2)) rs k) (hR : 1 ≤ c.runtime)
    (hT : 0 < s.queryrate → 1 ≤ c.slices) (b : Buffer c.packetsize) (counter : SendCounter) :
    ({ s with
        buffer := b, counter, load := l, pc := if l.Over then .readDuration else .loading } : SenderThread c).Spends
      δ N rs k := by
  by_cases hover : l.Over
  · have hle := hl.le hR hT
    simp only [Spends, if_pos hover]
    linarith
  · simp only [Spends, if_neg hover]
    exact ⟨hover, hl⟩

/-- **One step of the thread.** -/
theorem step_spends (h : step s e = some t) (hs : s.Spends δ N rs k) (hR : 1 ≤ c.runtime)
    (hT : 0 < s.queryrate → 1 ≤ c.slices) (hδ : 0 < δ) (hZ : 0 ≤ c.zeitscheibe)
    (hticks : ∀ x ∈ e.touches, ∀ a ∈ rs, a.Ticks δ x) :
    t.Spends δ N (rs ++ e.touches) (k + 1) ∧ t.queryrate = s.queryrate := by
  cases step_cases h with
  | starting fill hpc =>
    simp only [Spends, hpc] at hs
    split
    · refine ⟨?_, rfl⟩
      simp only [Spends, clear]
      push_cast
      linarith
    · refine ⟨?_, rfl⟩
      simp only [Spends]
      push_cast
      linarith
  | startReceiver hpc =>
    simp only [Spends, hpc] at hs
    refine ⟨?_, rfl⟩
    simp only [Spends, clear]
    push_cast
    linarith
  | readStart time hpc =>
    simp only [Spends, hpc] at hs
    refine ⟨?_, rfl⟩
    simp only [Spends]
    apply chooseLoad_spends hT
    rw [Config.longestRun] at hs
    push_cast
    linarith
  | sendPacket x l hpc hl =>
    simp only [Spends, hpc] at hs
    have hload := Load.step_spends hl hs.2 hR hT hδ hZ (hticks _ (List.mem_singleton_self _))
    exact ⟨load_spends hload hR hT _ _, rfl⟩
  | loading w l hpc hw hl =>
    simp only [Spends, hpc] at hs
    have hload := Load.step_spends hl hs.2 hR hT hδ hZ (hticks _ (List.mem_singleton_self _))
    exact ⟨load_spends hload hR hT _ _, rfl⟩
  | readDuration time hpc =>
    simp only [Spends, hpc] at hs
    refine ⟨?_, rfl⟩
    simp only [Spends]
    refine ⟨by simp [Wait.init], fun _ => ?_, fun hne => absurd rfl hne⟩
    rw [Config.waitTouches] at hs
    push_cast
    linarith
  | waiting w l hpc hw =>
    simp only [Spends, hpc] at hs
    have hwait := Wait.step_spends hw hs.2 hδ (hticks _ (List.mem_singleton_self _))
    refine ⟨?_, rfl⟩
    by_cases hover : l.pc = .over
    · have hle := hwait.le
      simp only [Spends, if_pos hover]
      linarith
    · simp only [Spends, if_neg hover]
      exact ⟨hover, hwait⟩
  | stopReceiver hpc =>
    simp only [Spends, hpc] at hs
    refine ⟨?_, rfl⟩
    simp only [Spends]
    push_cast
    linarith

theorem longestRun_ge (δ : ℚ) {queryrate : Int} (hR : 1 ≤ c.runtime) (hT : 0 < queryrate → 1 ≤ c.slices) :
    5 ≤ c.longestRun δ queryrate := by
  have hload : 0 ≤ c.loadTouches δ queryrate := by
    rw [Config.loadTouches]
    split
    · next hrate =>
      have hticks := ticksLeft_nonneg δ ((c.slices : ℚ) * c.zeitscheibe) 0
      have hslices : (1 : ℚ) ≤ c.slices := by exact_mod_cast hT hrate
      have hpackets : (0 : ℚ) ≤ c.runtime * queryrate := by exact_mod_cast Load.plan_queries hR hrate
      linarith
    · have hticks := ticksLeft_nonneg δ (c.runtime : ℚ) 0
      linarith
  have hwait := ticksLeft_nonneg δ (c.timeout : ℚ) 0
  rw [Config.longestRun, Config.waitTouches]
  linarith

theorem Spends.le (hs : s.Spends δ N rs k) (hR : 1 ≤ c.runtime) (hT : 0 < s.queryrate → 1 ≤ c.slices) : k ≤ N := by
  have hall := longestRun_ge δ hR hT
  have hwait := ticksLeft_nonneg δ (c.timeout : ℚ) 0
  cases hpc : s.pc with
  | loading =>
    simp only [Spends, hpc, Config.waitTouches] at hs
    have hle := hs.2.le hR hT
    linarith
  | waiting =>
    simp only [Spends, hpc] at hs
    have hle := hs.2.le
    linarith
  | _ =>
    simp only [Spends, hpc, Config.waitTouches] at hs
    linarith

/-- A thread that is not over can go on, whatever its clocks show. -/
theorem Spends.step_enabled (hs : s.Spends δ N rs k) (hpc : s.pc ≠ .idle) (t : ℚ) :
    ∃ e, (step s e).isSome ∧ ∀ x ∈ e.touches, ∀ u ∈ x.reading, u = t := by
  cases hp : s.pc with
  | idle => exact absurd hp hpc
  | starting => exact ⟨.run (Buffer.filled _ 0), by simp [step, hp], by simp [ThreadEv.touches]⟩
  | startReceiver => exact ⟨.startReceiver, by simp [step, hp], by simp [ThreadEv.touches]⟩
  | readStart => exact ⟨.env (.getMicrotime t), by simp [step, hp], by simp [ThreadEv.touches, Ev.reading]⟩
  | readDuration => exact ⟨.env (.getMicrotime t), by simp [step, hp], by simp [ThreadEv.touches, Ev.reading]⟩
  | stopReceiver => exact ⟨.stopReceiver, by simp [step, hp], by simp [ThreadEv.touches]⟩
  | loading =>
    simp only [Spends, hp] at hs
    obtain ⟨w, hw, ht⟩ := hs.2.step_enabled hs.1 t
    by_cases hsend : w = .sendPacket
    · subst hsend
      have hload : (s.load.step c.runtime .sendPacket).isSome := hw
      exact ⟨.sendPacket { rnd := Buffer.filled _ 0, time := 0, n := 0, errno := 0 },
        by simpa [step, hp, stepLoad, packetSent] using hload, by simp [ThreadEv.touches, Ev.reading]⟩
    · exact ⟨.env w, by simpa [step, hp, hsend, stepLoad] using hw, by simpa [ThreadEv.touches] using ht⟩
  | waiting =>
    simp only [Spends, hp] at hs
    obtain ⟨w, hw, ht⟩ := Wait.step_enabled c.timeout hs.1 t
    exact ⟨.env w, by simpa [step, hp, stepWait] using hw, by simpa [ThreadEv.touches] using ht⟩

/-- **A sender thread comes to its end.** When the readings of each clock are at least `δ` apart, no run
    of a thread that is started is longer than `longestRun`, whatever its socket does, whenever it
    is asked to stop and however the clocks jump; and a thread that is not over can go on, at a time
    that is later by `δ` again. -/
theorem sender_ends {s₀ : SenderThread c} {es : List (ThreadEv c.packetsize)} (h : Runs step s₀.threadStart es s)
    (hR : 1 ≤ c.runtime) (hT : 0 < s₀.queryrate → 1 ≤ c.slices) (hZ : 0 ≤ c.zeitscheibe) (hδ : 0 < δ)
    (hticks : (es.flatMap ThreadEv.touches).Pairwise (Ev.Ticks δ)) :
    es.length ≤ c.longestRun δ s₀.queryrate ∧
      (s.pc ≠ .idle → ∃ e t, step s e = some t ∧ ((es ++ [e]).flatMap ThreadEv.touches).Pairwise (Ev.Ticks δ)) := by
  have hspends : s.Spends δ (c.longestRun δ s₀.queryrate) (es.flatMap ThreadEv.touches) es.length ∧
      s.queryrate = s₀.queryrate := by
    apply Runs.trace_induct (P := fun es s => (es.flatMap ThreadEv.touches).Pairwise (Ev.Ticks δ) →
      s.Spends δ (c.longestRun δ s₀.queryrate) (es.flatMap ThreadEv.touches) es.length ∧
        s.queryrate = s₀.queryrate) _ _ h hticks
    · intro _
      exact ⟨by simp [Spends, threadStart], rfl⟩
    · intro es s e t _ ih hs hticks
      rw [List.flatMap_append, List.flatMap_singleton] at hticks ⊢
      rw [List.pairwise_append] at hticks
      obtain ⟨hspends, hrate⟩ := ih hticks.1
      rw [List.length_append, List.length_singleton, ← hrate]
      rw [← hrate] at hspends hT
      exact step_spends hs hspends hR hT hδ hZ fun x hx a ha => hticks.2.2 a ha x hx
  obtain ⟨hspends, hrate⟩ := hspends
  rw [← hrate] at hT
  refine ⟨hspends.le hR hT, fun hpc => ?_⟩
  obtain ⟨t, ht⟩ := exists_later δ ((es.flatMap ThreadEv.touches).filterMap Ev.reading)
  obtain ⟨e, he, hread⟩ := hspends.step_enabled hpc t
  obtain ⟨u, hu⟩ := Option.isSome_iff_exists.mp he
  refine ⟨e, u, hu, ?_⟩
  rw [List.flatMap_append, List.flatMap_singleton, List.pairwise_append]
  refine ⟨hticks, ?_, ?_⟩
  · cases e <;> simp [ThreadEv.touches]
  · intro a ha x hx r hr v hv _
    rw [hread x hx v hv]
    exact ht r (List.mem_filterMap.mpr ⟨a, ha, hr⟩)

/-- The slice of `pacedRun` and the wait for replies, up to the end. -/
def endingRun : List (ThreadEv oneSlice.packetsize) :=
  [.run (Buffer.filled _ 7), .startReceiver, .env (.getMicrotime 0), .env (.getNsec 0), .env (.getMicrotime (1 / 4)),
    .sendPacket { rnd := Buffer.filled _ 0, time := 0, n := oneSlice.packetsize, errno := 0 },
    .env (.getNsec (1 / 2)), .env .nanosleep, .env (.getNsec 1), .env (.threadShouldStop false),
    .env (.getMicrotime 1), .env (.getMicrotime 2), .env (.getMicrotime 3), .env (.getMicrotime 4), .stopReceiver]

theorem sender_ends_one_slice : ∃ s, Runs step ((new oneSlice).setQueryRate 1).threadStart endingRun s ∧
    s.pc = .idle ∧ (15 : ℚ) ≤ oneSlice.longestRun (1 / 4) 1 := by
  obtain ⟨s, hrun, hpc⟩ := Option.map_eq_some_iff.mp (show (endingRun.foldlM step
    ((new oneSlice).setQueryRate 1).threadStart).map (fun s => s.pc) = some .idle by decide +kernel)
  have hquarter : (0 : ℚ) < 1 / 4 := by norm_num
  have hends := sender_ends hrun (by decide) (fun _ => by decide +kernel) (by decide +kernel) hquarter
    (by decide +kernel)
  exact ⟨s, hrun, hpc, hends.1⟩

end SenderThread

end UdpPingPong
