import UdpPingPong.Lib.Rearm
import UdpPingPong.Sender.Schedule
import UdpPingPong.Sender.Thread

/- Stop requests to a sender thread.

   The load loops and `waitForTimeout` ask for a stop request when the clock has passed
   `next_checktime`, and set that to a tenth of a second behind the reading. These are
   checks in the sense of `Rearm.Rearmed`, so the next one is never more than a tenth of a
   second ahead of the readings, however the clock jumps.

   1. `step_checks` of `Pacer`, `Flood` and `Wait`: what a step does to the next check;
   2. `loadChecks` and `waitChecks`: the thread as a whole goes through these checks;
   3. `Load.Ending`: a loop that has come to its check sends nothing before it;
   4. `sender_stops`: behind the first reading more than a tenth of a second later than a
      stop request, no load loop sends a packet and no wait loop sleeps. -/
namespace UdpPingPong

open Exec Rearm Wire

/-- What is read from a clock. -/
def Ev.reading : Ev → Option ℚ
  | .getNsec t | .getMicrotime t => some t
  | _ => none

/-- The stop flag is not seen unset. -/
def Ev.Stays (e : Ev) : Prop := e ≠ .threadShouldStop false

/-! ## One loop -/

namespace Pacer

variable {plan : Plan} {p p' : Pacer} {e : Ev} {r : ℚ}

def Begun (p : Pacer) : Prop := p.pc ∉ [Pc.readNow, .fault]

/-- The stop flag is being asked for, or the loop is over. -/
def Closed (p : Pacer) : Prop := p.pc ∈ [Pc.checkStop, .left, .done]

/-- Nothing is sent before a check that is due when the clock reads `r`. -/
def Ending (r : ℚ) (p : Pacer) : Prop := p.Closed ∨ p.pc ∈ [Pc.waiting, .sleeping] ∧ p.nextChecktime < r

/-- The head of a slice leaves the times that were set and the number of the slice alone. -/
theorem sendLoop_keeps (p : Pacer) : (sendLoop p).nextChecktime = p.nextChecktime ∧
    (sendLoop p).endTime = p.endTime ∧ (sendLoop p).z = p.z := by
  unfold sendLoop
  split <;> exact ⟨rfl, rfl, rfl⟩

theorem sliceLoop_keeps (plan : Plan) (p : Pacer) : (sliceLoop plan p).nextChecktime = p.nextChecktime ∧
    (sliceLoop plan p).endTime = p.endTime ∧ (sliceLoop plan p).z = p.z := by
  simp only [sliceLoop]
  split
  · cases cdiv p.queriesRest (plan.totalZeitscheiben - p.z) with
    | none => exact ⟨rfl, rfl, rfl⟩
    | some q => exact sendLoop_keeps _
  · exact ⟨rfl, rfl, rfl⟩

/-- A step leaves the next check, or sets it from its reading: on entry, and on the way to the flag. -/
theorem step_checks (h : step plan p e = some p') : p.Begun ∧ p'.nextChecktime = p.nextChecktime ∨
    ∃ t, e.reading = some t ∧ p'.nextChecktime = t + 1 / 10 ∧ (p.Begun → p'.Closed) := by
  cases step_cases h with
  | readNow t hpc => exact .inr ⟨t, rfl, rfl, fun hbegun => absurd hbegun (by simp [Begun, hpc])⟩
  | readStart t hpc => exact .inl ⟨by simp [Begun, hpc], (sliceLoop_keeps plan _).1⟩
  | sending hpc => exact .inl ⟨by simp [Begun, hpc], (sendLoop_keeps _).1⟩
  | waiting t hpc =>
    unfold waitLoop
    split
    · exact .inl ⟨by simp [Begun, hpc], rfl⟩
    · split
      · exact .inr ⟨t, rfl, rfl, fun _ => by simp [Closed]⟩
      · exact .inl ⟨by simp [Begun, hpc], (sliceLoop_keeps plan _).1⟩
  | sleeping hpc => exact .inl ⟨by simp [Begun, hpc], rfl⟩
  | checkStop b hpc => exact .inl ⟨by simp [Begun, hpc], rfl⟩
  | checkEnd t hpc =>
    refine .inl ⟨by simp [Begun, hpc], ?_⟩
    split
    · rfl
    · exact (sliceLoop_keeps plan _).1

/-- A closed loop goes on only by looking at the flag. -/
theorem step_closed (h : step plan p e = some p') (he : e.Stays) (hp : p.Closed) :
    p'.Closed ∧ e = .threadShouldStop true := by
  have hpc : p.pc = .checkStop ∨ p.pc = .left ∨ p.pc = .done := by simpa [Closed] using hp
  cases step_cases h with
  | checkStop b hpc =>
    cases b with
    | false => exact absurd rfl he
    | true => exact ⟨by simp [Closed], rfl⟩
  | _ => simp_all

/-- A reading that has come to the check. -/
theorem step_due (h : step plan p (.getNsec r) = some p') (hbegun : p.Begun) (hnext : p.nextChecktime < r) :
    p'.Ending r := by
  cases step_cases h with
  | readNow t hpc => simp [Begun, hpc] at hbegun
  | waiting t hpc =>
    unfold waitLoop
    split
    · exact .inr ⟨by simp, hnext⟩
    · exact .inl (by simp [Closed])

/-- Behind that reading nothing is sent. -/
theorem step_ending (h : step plan p e = some p') (he : e.Stays) (hr : ∀ t, e.reading = some t → r ≤ t)
    (hp : p.Ending r) : p'.Ending r ∧ e ≠ .sendPacket := by
  rcases hp with hp | ⟨hpc, hnext⟩
  · obtain ⟨hclosed, rfl⟩ := step_closed h he hp
    exact ⟨.inl hclosed, by simp⟩
  · have hpc' : p.pc = .waiting ∨ p.pc = .sleeping := by simpa using hpc
    cases step_cases h with
    | waiting t hpc =>
      refine ⟨?_, by simp⟩
      unfold waitLoop
      split
      · exact .inr ⟨by simp, hnext⟩
      · rw [if_pos (lt_of_lt_of_le hnext (hr t rfl))]
        exact .inl (by simp [Closed])
    | sleeping hpc => exact ⟨.inr ⟨by simp, hnext⟩, by simp⟩
    | _ => simp_all

end Pacer

namespace Flood

variable {runtime : Int} {f f' : Flood} {e : Ev} {r : ℚ}

def Begun (f : Flood) : Prop := f.pc ≠ .readStart

def Closed (f : Flood) : Prop := f.pc ∈ [FloodPc.checkStop, .over]

/-- Everything one step can do, by where the loop stands. -/
inductive StepCase (runtime : Int) (f : Flood) : Ev → Flood → Prop
  | readStart (t : ℚ) (hpc : f.pc = .readStart) : StepCase runtime f (.getMicrotime t)
      { f with pc := .polling, endTime := t + runtime, nextChecktime := t + 1 / 10 }
  | polling (b : Bool) (hpc : f.pc = .polling) :
      StepCase runtime f (.socketReady b) { f with pc := if b then .sending else .readNow }
  | sending (hpc : f.pc = .sending) : StepCase runtime f .sendPacket { f with pc := .readNow }
  | readNow (t : ℚ) (hpc : f.pc = .readNow) : StepCase runtime f (.getMicrotime t)
      (if f.nextChecktime < t then { f with pc := .checkStop, now := t, nextChecktime := t + 1 / 10 }
        else loopEnd { f with now := t })
  | checkStop (b : Bool) (hpc : f.pc = .checkStop) :
      StepCase runtime f (.threadShouldStop b) (if b then { f with pc := .over } else loopEnd f)

theorem step_cases (h : step runtime f e = some f') : StepCase runtime f e f' := by
  unfold step at h
  split at h <;> cases h
  · next t hpc => exact .readStart t hpc
  · next b hpc => exact .polling b hpc
  · next hpc => exact .sending hpc
  · next t hpc => exact .readNow t hpc
  · next b hpc => exact .checkStop b hpc

theorem step_checks (h : step runtime f e = some f') : f.Begun ∧ f'.nextChecktime = f.nextChecktime ∨
    ∃ t, e.reading = some t ∧ f'.nextChecktime = t + 1 / 10 ∧ (f.Begun → f'.Closed) := by
  cases step_cases h with
  | readStart t hpc => exact .inr ⟨t, rfl, rfl, fun hbegun => absurd hpc hbegun⟩
  | polling b hpc => exact .inl ⟨by simp [Begun, hpc], rfl⟩
  | sending hpc => exact .inl ⟨by simp [Begun, hpc], rfl⟩
  | readNow t hpc =>
    split
    · exact .inr ⟨t, rfl, rfl, fun _ => by simp [Closed]⟩
    · exact .inl ⟨by simp [Begun, hpc], rfl⟩
  | checkStop b hpc =>
    refine .inl ⟨by simp [Begun, hpc], ?_⟩
    split <;> rfl

theorem step_begun (h : step runtime f e = some f') : f'.Begun := by
  have hend : ∀ g : Flood, (loopEnd g).Begun := by
    intro g
    simp only [Begun, loopEnd]
    split <;> simp
  cases step_cases h with
  | readStart t hpc => simp [Begun]
  | polling b hpc =>
    simp only [Begun]
    split <;> simp
  | sending hpc => simp [Begun]
  | readNow t hpc =>
    split
    · simp [Begun]
    · exact hend _
  | checkStop b hpc =>
    split
    · simp [Begun]
    · exact hend f

theorem step_closed (h : step runtime f e = some f') (he : e.Stays) (hf : f.Closed) :
    f'.Closed ∧ e = .threadShouldStop true := by
  have hpc : f.pc = .checkStop ∨ f.pc = .over := by simpa [Closed] using hf
  cases step_cases h with
  | checkStop b hpc =>
    cases b with
    | false => exact absurd rfl he
    | true => exact ⟨by simp [Closed], rfl⟩
  | _ => simp_all

theorem step_due (h : step runtime f (.getMicrotime r) = some f') (hbegun : f.Begun) (hnext : f.nextChecktime < r) :
    f'.Closed := by
  cases step_cases h with
  | readStart t hpc => exact absurd hpc hbegun
  | readNow t hpc =>
    rw [if_pos hnext]
    simp [Closed]

end Flood

namespace Wait

variable {timeout : Int} {w w' : Wait} {e : Ev} {r : ℚ}

def Begun (w : Wait) : Prop := w.pc ≠ .readStart

def Closed (w : Wait) : Prop := w.pc ∈ [WaitPc.checkStop, .over]

/-- Everything one step can do, by where the loop stands. -/
inductive StepCase (timeout : Int) (w : Wait) : Ev → Wait → Prop
  | readStart (t : ℚ) (hpc : w.pc = .readStart) : StepCase timeout w (.getMicrotime t)
      { pc := .readNow, endTime := t + timeout, nextChecktime := t + 1 / 10 }
  | readNow (t : ℚ) (hpc : w.pc = .readNow) : StepCase timeout w (.getMicrotime t)
      (if t < w.endTime then
        if w.nextChecktime < t then { w with pc := .checkStop, nextChecktime := t + 1 / 10 }
        else { w with pc := .sleeping }
      else { w with pc := .over })
  | checkStop (b : Bool) (hpc : w.pc = .checkStop) :
      StepCase timeout w (.threadShouldStop b) { w with pc := if b then .over else .sleeping }
  | sleeping (hpc : w.pc = .sleeping) : StepCase timeout w .mSleep { w with pc := .readNow }

theorem step_cases (h : step timeout w e = some w') : StepCase timeout w e w' := by
  unfold step at h
  split at h <;> cases h
  · next t hpc => exact .readStart t hpc
  · next t hpc => exact .readNow t hpc
  · next b hpc => exact .checkStop b hpc
  · next hpc => exact .sleeping hpc

theorem step_checks (h : step timeout w e = some w') : w.Begun ∧ w'.nextChecktime = w.nextChecktime ∨
    ∃ t, e.reading = some t ∧ w'.nextChecktime = t + 1 / 10 ∧ (w.Begun → w'.Closed) := by
  cases step_cases h with
  | readStart t hpc => exact .inr ⟨t, rfl, rfl, fun hbegun => absurd hpc hbegun⟩
  | readNow t hpc =>
    split
    · split
      · exact .inr ⟨t, rfl, rfl, fun _ => by simp [Closed]⟩
      · exact .inl ⟨by simp [Begun, hpc], rfl⟩
    · exact .inl ⟨by simp [Begun, hpc], rfl⟩
  | checkStop b hpc => exact .inl ⟨by simp [Begun, hpc], rfl⟩
  | sleeping hpc => exact .inl ⟨by simp [Begun, hpc], rfl⟩

theorem step_begun (h : step timeout w e = some w') : w'.Begun := by
  cases step_cases h with
  | readStart t hpc => simp [Begun]
  | readNow t hpc =>
    split
    · split <;> simp [Begun]
    · simp [Begun]
  | checkStop b hpc =>
    simp only [Begun]
    split <;> simp
  | sleeping hpc => simp [Begun]

theorem step_closed (h : step timeout w e = some w') (he : e.Stays) (hw : w.Closed) :
    w'.Closed ∧ e = .threadShouldStop true := by
  have hpc : w.pc = .checkStop ∨ w.pc = .over := by simpa [Closed] using hw
  cases step_cases h with
  | checkStop b hpc =>
    cases b with
    | false => exact absurd rfl he
    | true => exact ⟨by simp [Closed], rfl⟩
  | _ => simp_all

theorem step_due (h : step timeout w (.getMicrotime r) = some w') (hbegun : w.Begun) (hnext : w.nextChecktime < r) :
    w'.Closed := by
  cases step_cases h with
  | readStart t hpc => exact absurd hpc hbegun
  | readNow t hpc =>
    split <;> simp [Closed]

end Wait

namespace Load

variable {runtime : Int} {l l' : Load} {e : Ev} {r : ℚ}

/-- The reading that the loop compares with `next_checktime`. -/
def clock : Load → ℚ → Ev
  | .limited _ _, t => .getNsec t
  | _, t => .getMicrotime t

def nextChecktime : Load → ℚ
  | .none => 0
  | .limited _ p => p.nextChecktime
  | .flood f => f.nextChecktime

def Begun : Load → Prop
  | .none => False
  | .limited _ p => p.Begun
  | .flood f => f.Begun

def Closed : Load → Prop
  | .none => False
  | .limited _ p => p.Closed
  | .flood f => f.Closed

def Ending (r : ℚ) : Load → Prop
  | .none => False
  | .limited _ p => p.Ending r
  | .flood f => f.Closed

/-- A step of a loop that was chosen. -/
inductive StepCase (runtime : Int) (e : Ev) : Load → Load → Prop
  | limited (plan : Plan) (p p' : Pacer) (hp : p.step plan e = some p') :
    StepCase runtime e (.limited plan p) (.limited plan p')
  | flood (f f' : Flood) (hf : f.step runtime e = some f') : StepCase runtime e (.flood f) (.flood f')

theorem step_cases (h : l.step runtime e = some l') : StepCase runtime e l l' := by
  cases l with
  | none => cases h
  | limited plan p =>
    obtain ⟨p', hp, rfl⟩ := Option.map_eq_some_iff.mp h
    exact .limited plan p p' hp
  | flood f =>
    obtain ⟨f', hf, rfl⟩ := Option.map_eq_some_iff.mp h
    exact .flood f f' hf

theorem step_begun (h : l.step runtime e = some l') : l'.Begun := by
  cases step_cases h with
  | limited plan p p' hp =>
    obtain ⟨hread, hfault, -⟩ := Pacer.step_now hp
    simp [Begun, Pacer.Begun, hread, hfault]
  | flood f f' hf => exact Flood.step_begun hf

theorem step_checks (h : l.step runtime e = some l') : l.Begun ∧ l'.nextChecktime = l.nextChecktime ∨
    ∃ t, e.reading = some t ∧ l'.nextChecktime = t + 1 / 10 ∧ (l.Begun → l'.Closed) := by
  cases step_cases h with
  | limited plan p p' hp => exact Pacer.step_checks hp
  | flood f f' hf => exact Flood.step_checks hf

theorem step_closed (h : l.step runtime e = some l') (he : e.Stays) (hl : l.Closed) :
    l'.Closed ∧ e = .threadShouldStop true := by
  cases step_cases h with
  | limited plan p p' hp => exact Pacer.step_closed hp he hl
  | flood f f' hf => exact Flood.step_closed hf he hl

theorem step_due (h : l.step runtime (l.clock r) = some l') (hbegun : l.Begun) (hnext : l.nextChecktime < r) :
    l'.Ending r := by
  cases step_cases h with
  | limited plan p p' hp => exact Pacer.step_due hp hbegun hnext
  | flood f f' hf => exact Flood.step_due hf hbegun hnext

theorem step_ending (h : l.step runtime e = some l') (he : e.Stays) (hr : ∀ t, e.reading = some t → r ≤ t)
    (hl : l.Ending r) : l'.Ending r ∧ e ≠ .sendPacket := by
  cases step_cases h with
  | limited plan p p' hp => exact Pacer.step_ending hp he hr hl
  | flood f f' hf =>
    obtain ⟨hclosed, rfl⟩ := Flood.step_closed hf he hl
    exact ⟨hclosed, by simp⟩

end Load

/-! ## The thread -/

section
variable {size : Nat}

/-- What the thread reads from a clock. -/
def ThreadEv.reading : ThreadEv size → Option ℚ
  | .env e => e.reading
  | _ => none

def ThreadEv.Stays (e : ThreadEv size) : Prop := e ≠ .env (.threadShouldStop false)

theorem ThreadEv.stays_env {e : Ev} : (ThreadEv.env e : ThreadEv size).Stays ↔ e.Stays := by
  simp [ThreadEv.Stays, Ev.Stays]

end

namespace SenderThread

variable {c : Config} {s t u v : SenderThread c} {e : ThreadEv c.packetsize} {r b : ℚ}

def LoadBegun (s : SenderThread c) : Prop := s.pc = .loading ∧ s.load.Begun

def LoadClosed (s : SenderThread c) : Prop :=
  s.pc = .loading ∧ s.load.Closed ∨ s.pc ∈ [ThreadPc.readDuration, .waiting, .stopReceiver, .idle]

/-- No packet is sent before a check that is due when the clock reads `r`. -/
def LoadEnding (r : ℚ) (s : SenderThread c) : Prop :=
  s.pc = .loading ∧ s.load.Ending r ∨ s.pc ∈ [ThreadPc.readDuration, .waiting, .stopReceiver, .idle]

def WaitBegun (s : SenderThread c) : Prop := s.pc = .waiting ∧ s.wait.Begun

def WaitClosed (s : SenderThread c) : Prop :=
  s.pc = .waiting ∧ s.wait.Closed ∨ s.pc ∈ [ThreadPc.stopReceiver, .idle]

/-- Behind its load a thread does not come back to it. -/
theorem step_past (h : step s e = some t) (hs : s.pc ∈ [ThreadPc.readDuration, .waiting, .stopReceiver, .idle]) :
    t.pc ∈ [ThreadPc.readDuration, .waiting, .stopReceiver, .idle] ∧ e.isSend = false := by
  cases step_cases h with
  | starting fill hpc => simp [hpc] at hs
  | startReceiver hpc => simp [hpc] at hs
  | readStart time hpc => simp [hpc] at hs
  | sendPacket x l hpc hl => simp [hpc] at hs
  | loading w l hpc hw hl => simp [hpc] at hs
  | readDuration time hpc => simp [ThreadEv.isSend]
  | waiting w l hpc hw => refine ⟨?_, rfl⟩; split <;> simp
  | stopReceiver hpc => simp [ThreadEv.isSend]

/-- One touch of the load loop. -/
theorem step_loading (h : step s e = some t) (hpc : s.pc = .loading) : ∃ w l, s.load.step c.runtime w = some l ∧
    t.load = l ∧ t.pc = (if l.Over then .readDuration else .loading) ∧ (e.isSend = true → w = .sendPacket) ∧
    (e.Stays → w.Stays) ∧ w.reading = e.reading ∧ ∀ x, e = .env x → w = x := by
  cases step_cases h with
  | sendPacket x l _ hl =>
    exact ⟨.sendPacket, l, hl, rfl, rfl, fun _ => rfl, fun _ => by simp [Ev.Stays], rfl, by simp⟩
  | loading w l _ hw hl =>
    exact ⟨w, l, hl, rfl, rfl, by simp [ThreadEv.isSend], ThreadEv.stays_env.mp, rfl, by simp⟩
  | starting fill hpc' => simp [hpc] at hpc'
  | startReceiver hpc' => simp [hpc] at hpc'
  | readStart time hpc' => simp [hpc] at hpc'
  | readDuration time hpc' => simp [hpc] at hpc'
  | waiting w l hpc' hw => simp [hpc] at hpc'
  | stopReceiver hpc' => simp [hpc] at hpc'

/-- One touch of the wait loop. -/
theorem step_waiting (h : step s e = some t) (hpc : s.pc = .waiting) : ∃ w l, e = .env w ∧
    s.wait.step c.timeout w = some l ∧
    t = { s with wait := l, pc := if l.pc = .over then .stopReceiver else .waiting } := by
  cases step_cases h with
  | waiting w l _ hw => exact ⟨w, l, rfl, hw, rfl⟩
  | starting fill hpc' => simp [hpc] at hpc'
  | startReceiver hpc' => simp [hpc] at hpc'
  | readStart time hpc' => simp [hpc] at hpc'
  | sendPacket x l hpc' hl => simp [hpc] at hpc'
  | loading w l hpc' hw hl => simp [hpc] at hpc'
  | readDuration time hpc' => simp [hpc] at hpc'
  | stopReceiver hpc' => simp [hpc] at hpc'

/-- A closed wait stays closed, and does not sleep. -/
theorem step_waitClosed (h : step s e = some t) (he : e.Stays) (hs : s.WaitClosed) :
    t.WaitClosed ∧ e ≠ .env .mSleep := by
  rcases hs with ⟨hpc, hclosed⟩ | hpast
  · obtain ⟨w, l, rfl, hl, rfl⟩ := step_waiting h hpc
    obtain ⟨hclosed', rfl⟩ := Wait.step_closed hl (ThreadEv.stays_env.mp he) hclosed
    refine ⟨?_, by simp⟩
    by_cases hover : l.pc = .over
    · exact .inr (by simp [hover])
    · exact .inl ⟨if_neg hover, hclosed'⟩
  · cases step_cases h with
    | stopReceiver hpc => exact ⟨.inr (by simp), by simp⟩
    | starting fill hpc => simp [hpc] at hpast
    | startReceiver hpc => simp [hpc] at hpast
    | readStart time hpc => simp [hpc] at hpast
    | sendPacket x l hpc hl => simp [hpc] at hpast
    | loading w l hpc hw hl => simp [hpc] at hpast
    | readDuration time hpc => simp [hpc] at hpast
    | waiting w l hpc hw => simp [hpc] at hpast

theorem chooseLoad_not_begun (s : SenderThread c) : ¬ s.chooseLoad.Begun := by
  unfold chooseLoad
  split
  · simp only [Load.Begun, Pacer.Begun, Pacer.init]
    split <;> simp
  · simp [Load.Begun, Flood.Begun, Flood.init]

/-- **The load loop of a thread is a loop with a check.** -/
theorem loadChecks : Rearmed (step (c := c)) ThreadEv.reading ThreadEv.Stays (1 / 10 : ℚ)
    (fun s => s.load.nextChecktime) LoadBegun LoadClosed where
  step_next s e t h ht := by
    cases step_cases h with
    | starting fill hpc =>
      have hpc' := ht.1
      split at hpc' <;> simp [clear] at hpc'
    | startReceiver hpc => simp [LoadBegun, clear] at ht
    | readStart time hpc => exact absurd ht.2 (chooseLoad_not_begun s)
    | sendPacket x l hpc hl =>
      rcases Load.step_checks hl with ⟨hbegun, hnext⟩ | ⟨r, hread, hnext, -⟩
      · exact .inl ⟨⟨hpc, hbegun⟩, hnext⟩
      · cases hread
    | loading w l hpc hw hl =>
      rcases Load.step_checks hl with ⟨hbegun, hnext⟩ | ⟨r, hread, hnext, -⟩
      · exact .inl ⟨⟨hpc, hbegun⟩, hnext⟩
      · exact .inr ⟨r, hread, hnext⟩
    | readDuration time hpc => simp [LoadBegun] at ht
    | waiting w l hpc hw =>
      have hpc' := ht.1
      simp only at hpc'
      split at hpc' <;> simp at hpc'
    | stopReceiver hpc => simp [LoadBegun] at ht
  step_begun s e t h he hs := by
    obtain ⟨w, l, hl, hload, hpc, -, -, -, -⟩ := step_loading h hs.1
    by_cases hover : l.Over
    · right
      right
      rw [hpc, if_pos hover]
      simp
    · rw [if_neg hover] at hpc
      subst hload
      rcases Load.step_checks hl with ⟨-, hnext⟩ | ⟨r, -, -, hclosed⟩
      · exact .inl ⟨⟨hpc, Load.step_begun hl⟩, hnext⟩
      · exact .inr (.inl ⟨hpc, hclosed hs.2⟩)
  step_closed s e t h he hs := by
    rcases hs with ⟨hload, hclosed⟩ | hpast
    · obtain ⟨w, l, hl, hload, hpc, -, hstays, -, -⟩ := step_loading h hload
      subst hload
      have hclosed' := (Load.step_closed hl (hstays he) hclosed).1
      split at hpc
      · right
        rw [hpc]
        simp
      · exact .inl ⟨hpc, hclosed'⟩
    · exact .inr (step_past h hpast).1

/-- **The wait of a thread is a loop with a check.** -/
theorem waitChecks : Rearmed (step (c := c)) ThreadEv.reading ThreadEv.Stays (1 / 10 : ℚ)
    (fun s => s.wait.nextChecktime) WaitBegun WaitClosed where
  step_next s e t h ht := by
    cases step_cases h with
    | starting fill hpc =>
      have hpc' := ht.1
      split at hpc' <;> simp [clear] at hpc'
    | startReceiver hpc => simp [WaitBegun, clear] at ht
    | readStart time hpc => simp [WaitBegun] at ht
    | sendPacket x l hpc hl =>
      have hpc' := ht.1
      simp only at hpc'
      split at hpc' <;> simp at hpc'
    | loading w l hpc hw hl =>
      have hpc' := ht.1
      simp only at hpc'
      split at hpc' <;> simp at hpc'
    | readDuration time hpc => exact absurd ht.2 (by simp [Wait.Begun, Wait.init])
    | waiting w l hpc hw =>
      rcases Wait.step_checks hw with ⟨hbegun, hnext⟩ | ⟨r, hread, hnext, -⟩
      · exact .inl ⟨⟨hpc, hbegun⟩, hnext⟩
      · exact .inr ⟨r, hread, hnext⟩
    | stopReceiver hpc => simp [WaitBegun] at ht
  step_begun s e t h he hs := by
    obtain ⟨w, l, rfl, hl, rfl⟩ := step_waiting h hs.1
    by_cases hover : l.pc = .over
    · exact .inr (.inr (by simp [hover]))
    · rcases Wait.step_checks hl with ⟨-, hnext⟩ | ⟨r, -, -, hclosed⟩
      · exact .inl ⟨⟨if_neg hover, Wait.step_begun hl⟩, hnext⟩
      · exact .inr (.inl ⟨if_neg hover, hclosed hs.2⟩)
  step_closed s e t h he hs := (step_waitClosed h he hs).1

/-! ## Stop requests -/

theorem step_loadEnding (h : step s e = some t) (he : e.Stays) (hr : ∀ x, e.reading = some x → r ≤ x)
    (hs : s.LoadEnding r) : t.LoadEnding r ∧ e.isSend = false := by
  rcases hs with ⟨hpc, hending⟩ | hpast
  · obtain ⟨w, l, hl, rfl, hpc', hsend, hstays, hread, -⟩ := step_loading h hpc
    obtain ⟨hending', hw⟩ := Load.step_ending hl (hstays he) (hread ▸ hr) hending
    refine ⟨?_, Bool.eq_false_iff.mpr fun hs => hw (hsend hs)⟩
    split at hpc'
    · exact .inr (by simp [hpc'])
    · exact .inl ⟨hpc', hending'⟩
  · obtain ⟨hpast', hsend⟩ := step_past h hpast
    exact ⟨.inr hpast', hsend⟩

/-- A loop that has come to its check with the flag set sends nothing more. -/
theorem loadEnding_quiet {es : List (ThreadEv c.packetsize)} (h : Runs step s es t) (hs : s.LoadEnding r)
    (hstays : ∀ e ∈ es, e.Stays) (hclock : ∀ e ∈ es, ∀ x, e.reading = some x → r ≤ x) :
    ∀ e ∈ es, e.isSend = false := by
  induction es generalizing s with
  | nil => simp
  | cons e es ih =>
    obtain ⟨u, hu, hrest⟩ := runs_cons.mp h
    rw [List.forall_mem_cons] at hstays hclock ⊢
    obtain ⟨hending, hsend⟩ := step_loadEnding hu hstays.1 hclock.1 hs
    exact ⟨hsend, ih hrest hending hstays.2 hclock.2⟩

theorem waitClosed_quiet {es : List (ThreadEv c.packetsize)} (h : Runs step s es t) (hs : s.WaitClosed)
    (hstays : ∀ e ∈ es, e.Stays) : ∀ e ∈ es, e ≠ .env .mSleep := by
  induction es generalizing s with
  | nil => simp
  | cons e es ih =>
    obtain ⟨u, hu, hrest⟩ := runs_cons.mp h
    rw [List.forall_mem_cons] at hstays ⊢
    obtain ⟨hclosed, hsleep⟩ := step_waitClosed hu hstays.1 hs
    exact ⟨hsleep, ih hrest hclosed hstays.2⟩

/-- The load loop meets a reading that has come to its check. -/
theorem step_loadDue (h : step s e = some t) (hs : s.LoadBegun ∧ s.load.nextChecktime < r ∨ s.LoadClosed)
    (he : e.Stays) (hread : e.reading = some r) (hclock : s.pc = .loading → e = .env (s.load.clock r)) :
    t.LoadEnding r := by
  rcases hs with ⟨⟨hpc, hbegun⟩, hnext⟩ | ⟨hpc, hclosed⟩ | hpast
  · obtain ⟨w, l, hl, rfl, hpc', -, -, -, henv⟩ := step_loading h hpc
    rw [henv _ (hclock hpc)] at hl
    have hending := Load.step_due hl hbegun hnext
    split at hpc'
    · exact .inr (by simp [hpc'])
    · exact .inl ⟨hpc', hending⟩
  · obtain ⟨w, l, hl, -, -, -, hstays, hsame, -⟩ := step_loading h hpc
    obtain ⟨-, rfl⟩ := Load.step_closed hl (hstays he) hclosed
    rw [hread] at hsame
    cases hsame
  · exact .inr (step_past h hpast).1

/-- The wait loop meets a reading that has come to its check. -/
theorem step_waitDue (h : step s e = some t) (hs : s.WaitBegun ∧ s.wait.nextChecktime < r ∨ s.WaitClosed)
    (he : e.Stays) (hread : e.reading = some r) : t.WaitClosed := by
  rcases hs with ⟨⟨hpc, hbegun⟩, hnext⟩ | hclosed
  · obtain ⟨w, l, rfl, hl, rfl⟩ := step_waiting h hpc
    have hclosed : l.Closed := by
      cases Wait.step_cases hl with
      | readStart x _ => cases hread; exact Wait.step_due hl hbegun hnext
      | readNow x _ => cases hread; exact Wait.step_due hl hbegun hnext
      | checkStop b _ => cases hread
      | sleeping _ => cases hread
    by_cases hover : l.pc = .over
    · exact .inr (by simp [hover])
    · exact .inl ⟨if_neg hover, hclosed⟩
  · exact (step_waitClosed h he hclosed).1

/-- **A stop request to a sender thread.** It comes behind the events `before`, when no clock has read
    more than `b`, and stays. Once the loop that is running then reads more than `b` and a tenth of a
    second on the clock of its checks, the load loop sends no packet any more, and the wait loop does
    not sleep again. -/
theorem sender_stops {s₀ u w w' v : SenderThread c} {before mid rest : List (ThreadEv c.packetsize)}
    {e : ThreadEv c.packetsize} {b r : ℚ} (hstart : s₀.pc = .starting) (hbefore : Runs step s₀ before u)
    (hb : ∀ x ∈ before, ∀ t, x.reading = some t → t ≤ b) (hmid : Runs step u mid w) (hdue : step w e = some w')
    (hrest : Runs step w' rest v) (hstays : ∀ x ∈ mid ++ e :: rest, x.Stays) (hread : e.reading = some r)
    (hr : b + 1 / 10 < r) (hclock : ∀ x ∈ rest, ∀ t, x.reading = some t → r ≤ t) :
    (u.LoadBegun → (w.pc = .loading → e = .env (w.load.clock r)) → ∀ x ∈ rest, x.isSend = false) ∧
      (u.WaitBegun → ∀ x ∈ rest, x ≠ .env .mSleep) := by
  rw [List.forall_mem_append, List.forall_mem_cons] at hstays
  obtain ⟨hstaysMid, hstaysDue, hstaysRest⟩ := hstays
  refine ⟨?_, ?_⟩
  · intro hbegun hown
    have hnext := loadChecks.armed (fun h => by simp [LoadBegun, hstart] at h) hbefore hb hbegun
    have hwatched := loadChecks.watched hmid hstaysMid (.inl ⟨hbegun, hnext⟩)
    have hending := step_loadDue hdue (hwatched.imp_left fun h => ⟨h.1, lt_of_le_of_lt h.2 hr⟩) hstaysDue hread hown
    exact loadEnding_quiet hrest hending hstaysRest hclock
  · intro hbegun
    have hnext := waitChecks.armed (fun h => by simp [WaitBegun, hstart] at h) hbefore hb hbegun
    have hwatched := waitChecks.watched hmid hstaysMid (.inl ⟨hbegun, hnext⟩)
    have hclosed := step_waitDue hdue (hwatched.imp_left fun h => ⟨h.1, lt_of_le_of_lt h.2 hr⟩) hstaysDue hread
    exact waitClosed_quiet hrest hclosed hstaysRest

/-- A thread without a rate, in its load loop. -/
def flooding (f : Flood) : SenderThread Config.default :=
  { (new Config.default).threadStart with pc := .loading, load := .flood f }

/-- It is asked to stop at once, and is out of both loops after two readings. -/
theorem sender_stops_flooding :
    let rest : List (ThreadEv Config.default.packetsize) := [.env (.threadShouldStop true), .env (.getMicrotime 1),
      .env (.getMicrotime 1), .env (.getMicrotime 2), .env (.threadShouldStop true), .stopReceiver]
    ∀ x ∈ rest, x.isSend = false := by
  intro rest
  have hdue : step (flooding ⟨.readNow, 0 + (10 : Int), 0, 0 + 1 / 10⟩) (.env (.getMicrotime 1)) =
      some (flooding ⟨.checkStop, 0 + (10 : Int), 1, 1 + 1 / 10⟩) := by
    simp [step, flooding, stepLoad, Load.step, Flood.step, Load.Over]
    norm_num
    intro h
    cases h
  obtain ⟨v, hrest⟩ : ∃ v, Runs step (flooding ⟨.checkStop, 0 + (10 : Int), 1, 1 + 1 / 10⟩) rest v :=
    Option.isSome_iff_exists.mp (by decide +kernel)
  have hbefore : Runs step (new Config.default).threadStart [.run (Buffer.filled _ 0), .startReceiver,
      .env (.getMicrotime 0), .env (.getMicrotime 0)] (flooding ⟨.polling, 0 + (10 : Int), 0, 0 + 1 / 10⟩) := rfl
  have hmid : Runs step (flooding ⟨.polling, 0 + (10 : Int), 0, 0 + 1 / 10⟩) [.env (.socketReady false)]
      (flooding ⟨.readNow, 0 + (10 : Int), 0, 0 + 1 / 10⟩) := rfl
  have hlate : (0 : ℚ) + 1 / 10 < 1 := by norm_num
  have hstops := sender_stops rfl hbefore (by simp [ThreadEv.reading, Ev.reading]) hmid hdue hrest
    (by simp [rest, ThreadEv.Stays]) rfl hlate (by simp [rest, ThreadEv.reading, Ev.reading])
  exact hstops.1 ⟨rfl, by simp [flooding, Load.Begun, Flood.Begun]⟩ (fun _ => rfl)

end SenderThread

end UdpPingPong
