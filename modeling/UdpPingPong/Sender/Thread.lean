import UdpPingPong.Sender.Packet
import UdpPingPong.Sender.Pacing

/- A sender thread: `UDPEchoSenderThread::run` with the loops it calls.

   `SenderThread` is the thread object between two touches of its environment, and
   `SenderThread.step` runs the code to the next one, as `Pacer.step` does for the
   rate-limited loop. The unlimited loop is `Flood`, `waitForTimeout` is `Wait`.
   `run` chooses the loop once, by `queryrate > 0`, when it has read its start time.

   1. `SenderThread.step_cases`: everything one step can do;
   2. `SenderThread.step_buffer`: which steps write the packet buffer;
   3. `SenderThread.run_limited`: a thread with a positive rate never floods, and what
      it sends is what its pacing loop sends. -/
namespace UdpPingPong

open Exec Greedy Wire

/-! ## The loops without a rate limit -/

/-- Where `runWithoutRateLimit` next touches its environment. -/
inductive FloodPc where
  | readStart | polling | sending | readNow | checkStop | over
  deriving DecidableEq, Repr

/-- The local variables of `runWithoutRateLimit`. -/
structure Flood where
  pc : FloodPc
  endTime : ℚ
  now : ℚ
  nextChecktime : ℚ
  deriving DecidableEq, Repr

namespace Flood

def init : Flood := { pc := .readStart, endTime := 0, now := 0, nextChecktime := 0 }

/-- The end of the loop body. -/
def loopEnd (s : Flood) : Flood := { s with pc := if s.endTime < s.now then .over else .polling }

def step (runtime : Int) (s : Flood) (e : Ev) : Option Flood :=
  match s.pc, e with
  | .readStart, .getMicrotime t => some { s with pc := .polling, endTime := t + runtime, nextChecktime := t + 1 / 10 }
  | .polling, .socketReady b => some { s with pc := if b then .sending else .readNow }
  | .sending, .sendPacket => some { s with pc := .readNow }
  | .readNow, .getMicrotime t =>
    some (if s.nextChecktime < t then { s with pc := .checkStop, now := t, nextChecktime := t + 1 / 10 }
      else loopEnd { s with now := t })
  | .checkStop, .threadShouldStop b => some (if b then { s with pc := .over } else loopEnd s)
  | _, _ => none

end Flood

/-- Where `waitForTimeout` next touches its environment. -/
inductive WaitPc where
  | readStart | readNow | checkStop | sleeping | over
  deriving DecidableEq, Repr

/-- The local variables of `waitForTimeout`. -/
structure Wait where
  pc : WaitPc
  endTime : ℚ
  nextChecktime : ℚ
  deriving DecidableEq, Repr

namespace Wait

def init : Wait := { pc := .readStart, endTime := 0, nextChecktime := 0 }

def step (timeout : Int) (s : Wait) (e : Ev) : Option Wait :=
  match s.pc, e with
  | .readStart, .getMicrotime t => some { pc := .readNow, endTime := t + timeout, nextChecktime := t + 1 / 10 }
  | .readNow, .getMicrotime t =>
    some (if t < s.endTime then
        if s.nextChecktime < t then { s with pc := .checkStop, nextChecktime := t + 1 / 10 }
        else { s with pc := .sleeping }
      else { s with pc := .over })
  | .checkStop, .threadShouldStop b => some { s with pc := if b then .over else .sleeping }
  | .sleeping, .mSleep => some { s with pc := .readNow }
  | _, _ => none

end Wait

/-- The loop that generates the load. -/
inductive Load where
  | none
  | limited (plan : Plan) (s : Pacer)
  | flood (s : Flood)

namespace Load

def step (runtime : Int) : Load → Ev → Option Load
  | .none, _ => Option.none
  | .limited plan s, e => (s.step plan e).map (limited plan)
  | .flood s, e => (s.step runtime e).map flood

/-- The loop has returned. -/
def Over : Load → Prop
  | .none => False
  | .limited _ s => s.pc = .left ∨ s.pc = .done
  | .flood s => s.pc = .over

instance : ∀ l : Load, Decidable l.Over
  | .none => inferInstanceAs (Decidable False)
  | .limited _ s => inferInstanceAs (Decidable (s.pc = .left ∨ s.pc = .done))
  | .flood s => inferInstanceAs (Decidable (s.pc = .over))

end Load

/-! ## The thread -/

/-- What a sender thread does to its environment: it enters `run` with a random fill of its
    buffer, starts and stops its receiver, calls `sendPacket`, and else an `Ev`. -/
inductive ThreadEv (size : Nat) where
  | run (fill : Buffer size)
  | startReceiver
  | sendPacket (x : Draw size)
  | env (e : Ev)
  | stopReceiver

/-- The `sendPacket` calls among the events. -/
def ThreadEv.isSend {size : Nat} : ThreadEv size → Bool
  | .sendPacket _ => true
  | _ => false

/-- Where `run` next touches its environment; in `starting` the thread is created and has not
    entered `run` yet, in `idle` it is not running. -/
inductive ThreadPc where
  | idle | starting | startReceiver | readStart | loading | readDuration | waiting | stopReceiver
  deriving DecidableEq, Repr

/-- A sender thread object, with the local variables of the loop it is in. -/
structure SenderThread (c : Config) where
  pc : ThreadPc
  queryrate : Int
  buffer : Buffer c.packetsize
  counter : SendCounter
  start : ℚ
  duration : ℚ
  load : Load
  wait : Wait

namespace SenderThread

variable {c : Config}

/-- A thread object as its constructor leaves it; its buffer is not allocated before `run`. -/
def new (c : Config) : SenderThread c :=
  { pc := .idle, queryrate := 0, buffer := Buffer.filled c.packetsize 0, counter := SendCounter.zero
    start := 0, duration := 0, load := .none, wait := Wait.init }

def setQueryRate (s : SenderThread c) (qps : Int) : SenderThread c := { s with queryrate := qps }

/-- The thread is created; it takes its first step at any later time. -/
def threadStart (s : SenderThread c) : SenderThread c := { s with pc := .starting, load := .none }

/-- The plan `runWithRateLimit` computes from the thread object. -/
def plan (c : Config) (queryrate : Int) : Plan :=
  Plan.ofThread c.runtime queryrate c.zeitscheibe c.verbose

/-- From the receiver's start to the reading of the start time. -/
def clear (s : SenderThread c) : SenderThread c :=
  { s with pc := .readStart, counter := SendCounter.zero, duration := 0 }

/-- The mode switch of `run`. -/
def chooseLoad (s : SenderThread c) : Load :=
  if 0 < s.queryrate then .limited (plan c s.queryrate) (Pacer.init (plan c s.queryrate))
  else .flood Flood.init

/-- One touch of the load loop; when the loop returns, `run` reads the clock. -/
def stepLoad (s : SenderThread c) (e : Ev) : Option (SenderThread c) :=
  (s.load.step c.runtime e).map fun l =>
    { s with load := l, pc := if l.Over then .readDuration else .loading }

def stepWait (s : SenderThread c) (e : Ev) : Option (SenderThread c) :=
  (s.wait.step c.timeout e).map fun w =>
    { s with wait := w, pc := if w.pc = .over then .stopReceiver else .waiting }

/-- `sendPacket` itself: the buffer and the counters. -/
def packetSent (s : SenderThread c) (x : Draw c.packetsize) : SenderThread c :=
  { s with buffer := UdpPingPong.sendPacket c s.buffer x
           counter := s.counter.count c.packetsize x.n x.errno }

/-- From one touch of the environment to the next. -/
def step (s : SenderThread c) (e : ThreadEv c.packetsize) : Option (SenderThread c) :=
  match s.pc, e with
  | .starting, .run fill =>
    some (if c.ignoreResponses then clear { s with buffer := fill }
      else { s with buffer := fill, pc := .startReceiver })
  | .startReceiver, .startReceiver => some s.clear
  | .readStart, .env (.getMicrotime t) => some { s with pc := .loading, start := t, load := s.chooseLoad }
  | .loading, .sendPacket x => (s.packetSent x).stepLoad .sendPacket
  | .loading, .env e => if e = .sendPacket then none else s.stepLoad e
  | .readDuration, .env (.getMicrotime t) =>
    some { s with pc := .waiting, duration := t - s.start, wait := Wait.init }
  | .waiting, .env e => s.stepWait e
  | .stopReceiver, .stopReceiver => some { s with pc := .idle }
  | _, _ => none

/-- The thread is in `runWithoutRateLimit`. -/
def InFlood (s : SenderThread c) : Prop := ∃ f, s.load = .flood f

/-- All slices of the thread's rate-limited loop are over. -/
def Finished (s : SenderThread c) : Prop :=
  ∃ plan p, s.load = .limited plan p ∧ p.slicesOver = plan.totalZeitscheiben

variable {s s' : SenderThread c} {e : ThreadEv c.packetsize}

/-- Everything one step can do, by where the thread stands. -/
inductive StepCase (s : SenderThread c) : ThreadEv c.packetsize → SenderThread c → Prop
  | starting (fill) (hpc : s.pc = .starting) : StepCase s (.run fill)
      (if c.ignoreResponses then clear { s with buffer := fill }
        else { s with buffer := fill, pc := .startReceiver })
  | startReceiver (hpc : s.pc = .startReceiver) : StepCase s .startReceiver s.clear
  | readStart (t) (hpc : s.pc = .readStart) : StepCase s (.env (.getMicrotime t))
      { s with pc := .loading, start := t, load := s.chooseLoad }
  | sendPacket (x l) (hpc : s.pc = .loading) (hl : s.load.step c.runtime .sendPacket = some l) :
      StepCase s (.sendPacket x)
        { s.packetSent x with load := l, pc := if l.Over then .readDuration else .loading }
  | loading (v l) (hpc : s.pc = .loading) (hv : v ≠ .sendPacket)
      (hl : s.load.step c.runtime v = some l) : StepCase s (.env v)
        { s with load := l, pc := if l.Over then .readDuration else .loading }
  | readDuration (t) (hpc : s.pc = .readDuration) : StepCase s (.env (.getMicrotime t))
      { s with pc := .waiting, duration := t - s.start, wait := Wait.init }
  | waiting (v w) (hpc : s.pc = .waiting) (hw : s.wait.step c.timeout v = some w) :
      StepCase s (.env v) { s with wait := w, pc := if w.pc = .over then .stopReceiver else .waiting }
  | stopReceiver (hpc : s.pc = .stopReceiver) : StepCase s .stopReceiver { s with pc := .idle }

theorem step_cases (h : step s e = some s') : StepCase s e s' := by
  unfold step at h
  split at h
  · next fill hpc =>
    cases h
    exact .starting fill hpc
  · next hpc =>
    cases h
    exact .startReceiver hpc
  · next t hpc =>
    cases h
    exact .readStart t hpc
  · next x hpc =>
    obtain ⟨l, hl, rfl⟩ := Option.map_eq_some_iff.mp h
    exact .sendPacket x l hpc hl
  · next v hpc =>
    split at h
    · cases h
    · next hv =>
      obtain ⟨l, hl, rfl⟩ := Option.map_eq_some_iff.mp h
      exact .loading v l hpc hv hl
  · next t hpc =>
    cases h
    exact .readDuration t hpc
  · next v hpc =>
    obtain ⟨w, hw, rfl⟩ := Option.map_eq_some_iff.mp h
    exact .waiting v w hpc hw
  · next hpc =>
    cases h
    exact .stopReceiver hpc
  · cases h

/-- Only a fill and `sendPacket` write the buffer. -/
theorem step_buffer (h : step s e = some s') : s'.buffer = match e with
    | .run fill => fill
    | .sendPacket x => UdpPingPong.sendPacket c s.buffer x
    | _ => s.buffer := by
  cases step_cases h with
  | starting fill hpc => split <;> rfl
  | startReceiver hpc => rfl
  | readStart t hpc => rfl
  | sendPacket x l hpc hl => rfl
  | loading v l hpc hv hl => rfl
  | readDuration t hpc => rfl
  | waiting v w hpc hw => rfl
  | stopReceiver hpc => rfl

/-- What a step does to the counters: they are cleared on the way into the load loop, whether or
    not a receiver is started first, and only `sendPacket` counts. -/
theorem step_counter (h : step s e = some s') : match e with
    | .run _ => s.pc = .starting ∧ (s'.pc = .startReceiver ∧ s'.counter = s.counter ∨
        s'.pc = .readStart ∧ s'.counter = SendCounter.zero)
    | .startReceiver => s.pc = .startReceiver ∧ s'.pc = .readStart ∧ s'.counter = SendCounter.zero
    | .sendPacket x => s'.pc ≠ .starting ∧ s'.pc ≠ .startReceiver ∧ s.pc ≠ .starting ∧
        s'.counter = s.counter.count c.packetsize x.n x.errno
    | .env _ | .stopReceiver => s'.pc ≠ .starting ∧ s'.pc ≠ .startReceiver ∧ s'.counter = s.counter := by
  cases step_cases h with
  | starting fill hpc =>
    refine ⟨hpc, ?_⟩
    split
    · exact .inr ⟨rfl, rfl⟩
    · exact .inl ⟨rfl, rfl⟩
  | startReceiver hpc => exact ⟨hpc, rfl, rfl⟩
  | readStart t hpc => simp
  | sendPacket x l hpc hl => refine ⟨?_, ?_, by simp [hpc], rfl⟩ <;> split <;> simp
  | loading v l hpc hv hl => refine ⟨?_, ?_, rfl⟩ <;> split <;> simp
  | readDuration t hpc => simp
  | waiting v w hpc hw => refine ⟨?_, ?_, rfl⟩ <;> split <;> simp
  | stopReceiver hpc => simp

/-! ## A thread with a positive rate -/

/-- A thread with the positive rate `rate` that has sent `n` packets: it has not chosen its loop
    yet, or its loop is the rate-limited one and `n` is what that loop sent. -/
def Limited (rate n : Int) (s : SenderThread c) : Prop :=
  s.queryrate = rate ∧
    (s.load = .none ∧ n = 0 ∧ (s.pc = .starting ∨ s.pc = .startReceiver ∨ s.pc = .readStart) ∨
      ∃ p, s.load = .limited (plan c rate) p ∧ Pacer.Inv (plan c rate) n p ∧
        s.pc ≠ .starting ∧ s.pc ≠ .startReceiver ∧ s.pc ≠ .readStart)

theorem step_limited {rate n : Int} (hrate : 0 < rate) (hQ : 0 ≤ (plan c rate).queries)
    (hT : 0 < (plan c rate).totalZeitscheiben) (h : step s e = some s') (hl : Limited rate n s) :
    Limited rate (n + if e.isSend then 1 else 0) s' := by
  obtain ⟨hq, hload⟩ := hl
  -- The two cases of `hload`, with what one touch of the pacing loop keeps.
  have hmore : ∀ {v l}, s.pc = .loading → s.load.step c.runtime v = some l →
      ∃ p, l = .limited (plan c rate) p ∧
        Pacer.Inv (plan c rate) (n + if v = .sendPacket then 1 else 0) p := by
    intro v l hpc hstep
    rcases hload with ⟨-, -, hp⟩ | ⟨p, hp, hi, -⟩
    · simp [hpc] at hp
    · rw [hp] at hstep
      obtain ⟨p', hp', rfl⟩ := Option.map_eq_some_iff.mp hstep
      exact ⟨p', rfl, Pacer.step_inv hQ hT hp' hi⟩
  cases step_cases h with
  | starting fill hpc =>
    obtain ⟨hnone, hn, -⟩ := hload.resolve_right (by simp [hpc])
    refine ⟨by split <;> exact hq, .inl ?_⟩
    split <;> simp [clear, hnone, hn, ThreadEv.isSend]
  | startReceiver hpc =>
    obtain ⟨hnone, hn, -⟩ := hload.resolve_right (by simp [hpc])
    exact ⟨hq, .inl (by simp [clear, hnone, hn, ThreadEv.isSend])⟩
  | readStart t hpc =>
    obtain ⟨-, hn, -⟩ := hload.resolve_right (by simp [hpc])
    refine ⟨hq, .inr ⟨Pacer.init (plan c rate), ?_, ?_, by simp⟩⟩
    · simp only [chooseLoad, hq, if_pos hrate]
    · simpa [hn, ThreadEv.isSend] using Pacer.init_inv hT
  | sendPacket x l hpc hl =>
    obtain ⟨p, rfl, hi⟩ := hmore hpc hl
    refine ⟨hq, .inr ⟨p, rfl, by simpa [ThreadEv.isSend] using hi, ?_⟩⟩
    split <;> simp
  | loading v l hpc hv hl =>
    obtain ⟨p, rfl, hi⟩ := hmore hpc hl
    refine ⟨hq, .inr ⟨p, rfl, by simpa [ThreadEv.isSend, hv] using hi, ?_⟩⟩
    split <;> simp
  | readDuration t hpc =>
    obtain ⟨p, hp, hi, -⟩ := hload.resolve_left (by simp [hpc])
    exact ⟨hq, .inr ⟨p, hp, by simpa [ThreadEv.isSend] using hi, by simp⟩⟩
  | waiting v w hpc hw =>
    obtain ⟨p, hp, hi, -⟩ := hload.resolve_left (by simp [hpc])
    refine ⟨hq, .inr ⟨p, hp, by simpa [ThreadEv.isSend] using hi, ?_⟩⟩
    split <;> simp
  | stopReceiver hpc =>
    obtain ⟨p, hp, hi, -⟩ := hload.resolve_left (by simp [hpc])
    exact ⟨hq, .inr ⟨p, hp, by simpa [ThreadEv.isSend] using hi, by simp⟩⟩

/-- **A thread with a positive rate**, over a whole run of it. -/
theorem run_limited {rate : Int} (hrate : 0 < rate) (hQ : 0 ≤ (plan c rate).queries)
    (hT : 0 < (plan c rate).totalZeitscheiben) {s0 : SenderThread c} (hq : s0.queryrate = rate)
    {es : List (ThreadEv c.packetsize)} (h : Runs step s0.threadStart es s) :
    Limited rate (es.countP ThreadEv.isSend) s := by
  apply Runs.trace_induct (P := fun es s => Limited rate (es.countP ThreadEv.isSend) s) _ _ h
  · exact ⟨hq, .inl ⟨rfl, rfl, .inl rfl⟩⟩
  · intro es s e s' _ hl hs
    have := step_limited hrate hQ hT hs hl
    rw [List.countP_append, List.countP_singleton]
    exact_mod_cast this

theorem Limited.not_inFlood {rate n : Int} (h : Limited rate n s) : ¬ s.InFlood := by
  intro h
  obtain ⟨f, hf⟩ := h
  obtain ⟨-, ⟨hp, -⟩ | ⟨p, hp, -⟩⟩ := h <;> rw [hf] at hp <;> cases hp

theorem Limited.sent_le {rate n : Int} (hQ : 0 ≤ (plan c rate).queries)
    (hT : 0 < (plan c rate).totalZeitscheiben) (h : Limited rate n s) : n ≤ c.runtime * rate := by
  obtain ⟨-, ⟨-, rfl, -⟩ | ⟨p, -, hi, -⟩⟩ := h
  · exact hQ
  · exact hi.sent_le hQ hT

theorem Limited.all_sent {rate n : Int} (hT : 0 < (plan c rate).totalZeitscheiben)
    (h : Limited rate n s) (hfin : s.Finished) : n = c.runtime * rate := by
  obtain ⟨pl, p, hload, hover⟩ := hfin
  obtain ⟨-, ⟨hp, -⟩ | ⟨p', hp, hi, -⟩⟩ := h <;> rw [hload] at hp <;> cases hp
  exact hi.all_sent hT hover

/-- A thread whose rate is not positive can get into the unlimited loop. -/
theorem reach_flood {s0 : SenderThread c} (hq : s0.queryrate ≤ 0) :
    ∃ es s, Runs step s0.threadStart es s ∧ s.InFlood := by
  have hload : ∀ s : SenderThread c, s.queryrate = s0.queryrate → s.chooseLoad = .flood Flood.init := by
    intro s hs
    rw [chooseLoad, if_neg (by omega)]
  let s1 : SenderThread c := { s0.threadStart with buffer := Buffer.filled c.packetsize 0 }
  let s2 : SenderThread c := { s1.clear with pc := .loading, start := 0, load := s1.clear.chooseLoad }
  have hflood : s2.InFlood := ⟨Flood.init, hload s1.clear rfl⟩
  have hread : step s1.clear (.env (.getMicrotime 0)) = some s2 := rfl
  by_cases hig : c.ignoreResponses = true
  · have hrun : step s0.threadStart (.run (Buffer.filled c.packetsize 0)) = some s1.clear := by
      simp [step, threadStart, hig, s1]
    exact ⟨_, s2, runs_cons.mpr ⟨_, hrun, Runs.single hread⟩, hflood⟩
  · have hrun : step s0.threadStart (.run (Buffer.filled c.packetsize 0)) =
        some { s1 with pc := .startReceiver } := by
      simp [step, threadStart, hig, s1]
    have hstart : step { s1 with pc := .startReceiver } .startReceiver = some s1.clear := rfl
    exact ⟨_, s2, runs_cons.mpr ⟨_, hrun, runs_cons.mpr ⟨_, hstart, Runs.single hread⟩⟩, hflood⟩

end SenderThread

end UdpPingPong
