import UdpPingPong.Bouncer.Lifecycle

/- Stopping the bouncer while its threads run: `ThreadPool::stopThreads`, the
   destructor of `Thread`, and `Thread::threadStartUp` in the threads themselves.

   A step is one action under a mutex, of the thread that calls `start` and `stop`
   or of one worker's thread. The pool decides that nothing runs from the flag
   `IsRunning`, which a worker's thread sets in its first step and clears before
   its last one.

   1. `WorkerObject.step`: what the thread of a worker does, around `Worker.step`;
   2. `State.advance`: the next action of the calling thread; which one it is
      depends on where it stands, `Control`;
   3. `Safe`: a step touches no deleted object, and no thread of an earlier start
      takes a step after a stop;
   4. `Inv` and `Inv.step`: the objects outside of the pool are silent, and while
      the pool is scanned so are those the scan has passed;
   5. `stop_waits_for_threads`: every run is safe in which the flag is never read
      of a thread in front of its first or its last step. -/
namespace UdpPingPong
namespace Teardown

open Exec Wire

/-! ## The worker threads -/

/-- Where the thread of a worker object stands. -/
inductive ThreadState where
  | absent    -- `pthread_create` was not called
  | spawned   -- created, in front of `threadStartUp`
  | running   -- in `run`
  | leaving   -- behind `run`
  | ending    -- behind `threadStartUp`, in front of `threadShouldDeleteOnExit`
  | ended
  deriving DecidableEq, Repr

/-- A `UDPEchoBouncerThread`: the flags of `Thread`, and the worker that `run` works on. -/
structure WorkerObject where
  thread : ThreadState
  isRunning : Bool
  shouldStop : Bool
  deleted : Bool
  worker : Worker

/-- The steps of a worker's thread. -/
inductive ThreadEvent where
  | startUp (time : Int)
  | round (r : Round)
  | finish
  | exit

namespace WorkerObject

/-- An object as its constructor and `setNoEcho` leave it, around the buffer it allocated. -/
def new (noEcho : Bool) (buffer : Buffer 4096) : WorkerObject :=
  { thread := .absent, isRunning := false, shouldStop := false, deleted := false
    worker := (Worker.new buffer).setNoEcho noEcho }

def setPacketSize (w : WorkerObject) (size : ResponseSize) : WorkerObject :=
  { w with worker := w.worker.setPacketSize size.bytes }

/-- `threadSignalStop`. -/
def threadSignalStop (w : WorkerObject) : WorkerObject := { w with shouldStop := true }

/-- `threadStart`, when the thread is created. -/
def threadStart (w : WorkerObject) : WorkerObject := { w with thread := .spawned, isRunning := false }

/-- One step of the thread. `threadShouldStop` answers with the flag. -/
def step (w : WorkerObject) : ThreadEvent → Option WorkerObject
  | .startUp time =>
    if w.thread = .spawned then
      some { w with thread := .running, isRunning := true, worker := w.worker.enter time }
    else none
  | .round r =>
    if w.thread = .running ∧ r.stop = w.shouldStop then
      (w.worker.step r).map fun worker =>
        { w with worker, thread := if worker.left then .leaving else .running }
    else none
  | .finish =>
    if w.thread = .leaving then some { w with thread := .ending, isRunning := false, shouldStop := false }
    else none
  | .exit => if w.thread = .ending then some { w with thread := .ended } else none

end WorkerObject

/-! ## The calling thread -/

/-- What is called, and what a `stop` returns to. -/
inductive Caller where
  | stop
  | start (numThreads : Nat)
  deriving DecidableEq, Repr

/-- Where the calling thread stands: in the loops over the pool with the workers still to come. -/
inductive Control where
  | idle
  | signalling (todo : List Nat) (caller : Caller)
  | scanning (todo : List Nat) (caller : Caller)
  | deleting (todo : List Nat) (caller : Caller)
  | stopping (i : Nat) (todo : List Nat) (caller : Caller)
  | opening (numThreads : Nat)
  | adding (m : Nat)
  | starting (todo : List Nat)
  deriving DecidableEq, Repr

/-- What the system answers to the next action: to `socket`, to the `bind` of a worker, which memory
    a worker gets and where its address stands among those of the pool, and whether a thread is
    created. -/
structure Answer where
  socket : Int
  bind : BindAnswer
  buffer : Buffer 4096
  place : Nat
  created : Bool

/-- A bouncer with all the worker objects there ever were, numbered; the pool holds the numbers of
    its workers in the order of their addresses. `retired` counts the objects there were when `stop`
    last returned. -/
structure State where
  noEcho : Bool
  packetSize : ResponseSize
  sockfd : Int
  running : Bool
  workers : List WorkerObject
  pool : List Nat
  poolLocked : Bool
  control : Control
  retired : Nat

inductive Event where
  | call (c : Caller)
  | control (a : Answer)
  | thread (i : Nat) (e : ThreadEvent)

namespace State

def new (packetSize : ResponseSize) (noEcho : Bool) : State :=
  { noEcho, packetSize, sockfd := 0, running := false, workers := [], pool := [], poolLocked := false
    control := .idle, retired := 0 }

def update (s : State) (i : Nat) (f : WorkerObject → WorkerObject) : State :=
  { s with workers := s.workers.modify i f }

/-- `threadIsRunning` of worker `i`. -/
def isRunning (s : State) (i : Nat) : Bool := s.workers[i]?.any WorkerObject.isRunning

/-- A call; a pool that is still locked throws at once. -/
def call (s : State) (c : Caller) : State :=
  if s.poolLocked then s else { s with control := .signalling s.pool c }

/-- `stop` returns to its caller. -/
def stopReturns (s : State) (c : Caller) : State :=
  { s with
    sockfd := 0
    running := false
    pool := []
    retired := s.workers.length
    control := match c with
      | .stop => .idle
      | .start n => .opening n }

/-- The next action of the calling thread. -/
def advance (s : State) (a : Answer) : Option State :=
  match s.control with
  | .idle => none
  -- `signalStopThreads`
  | .signalling (i :: todo) c =>
    some { s.update i WorkerObject.threadSignalStop with control := .signalling todo c }
  | .signalling [] c => some { s with control := .scanning s.pool c }
  -- `running`: the first worker that runs ends the scan, and after a millisecond there is another one
  | .scanning (i :: todo) c =>
    some { s with control := if s.isRunning i then .scanning s.pool c else .scanning todo c }
  | .scanning [] c => some { s with control := .deleting s.pool c }
  -- `delete`, with the wait of `threadStop` in the destructor of `Thread`
  | .deleting (i :: todo) c =>
    some { s.update i (fun w => { w with deleted := true }) with control := .stopping i todo c }
  | .stopping i todo c =>
    if s.isRunning i then some (s.update i WorkerObject.threadSignalStop)
    else some { s.update i (fun w => { w with shouldStop := false }) with control := .deleting todo c }
  | .deleting [] c => some (s.stopReturns c)
  -- `createSocket`
  | .opening n =>
    some { s with
      sockfd := a.socket
      control := if a.socket = 0 then .idle else .adding (Bouncer.requested n) }
  -- `startBouncerThreads`: a worker that cannot be bound is not in the pool
  | .adding (m + 1) =>
    let w := WorkerObject.new s.noEcho a.buffer
    match Bouncer.workerBind a.bind with
    | .error _ => some { s with workers := s.workers ++ [w], control := .idle }
    | .ok _ =>
      some { s with
        workers := s.workers ++ [w.setPacketSize s.packetSize]
        pool := s.pool.insertIdx (min a.place s.pool.length) s.workers.length
        control := .adding m }
  | .adding 0 => some { s with control := .starting s.pool }
  -- `startThreads`: a thread that is not created leaves the pool locked
  | .starting (i :: todo) =>
    if s.isRunning i then some { s with control := .starting todo }
    else if a.created then some { s.update i WorkerObject.threadStart with control := .starting todo }
    else some { s with poolLocked := true, control := .idle }
  | .starting [] => some { s with running := true, control := .idle }

end State

def step (s : State) : Event → Option State
  | .call c => if s.control = .idle then some (s.call c) else none
  | .control a => s.advance a
  | .thread i e => match s.workers[i]? with
    | some w => (w.step e).map fun w' => s.update i fun _ => w'
    | none => none

/-! ## What should hold -/

/-- The worker objects an event uses. -/
def State.uses (s : State) : Event → List Nat
  | .call _ => []
  | .control _ => match s.control with
    | .signalling (i :: _) _ => [i]
    | .scanning (i :: _) _ => [i]
    | .deleting (i :: _) _ => [i]
    | .starting (i :: _) => [i]
    | _ => []
  | .thread i _ => [i]

/-- **A safe step**: it uses no deleted object, and it is no step of a thread that was started
    before `stop` last returned. -/
def Safe (s : State) (e : Event) : Prop :=
  (∀ i ∈ s.uses e, ∀ w, s.workers[i]? = some w → w.deleted = false) ∧
    ∀ i te, e = .thread i te → s.retired ≤ i

/-- The worker whose flag `running` reads next. -/
def Control.asks : Control → Option Nat
  | .scanning (i :: _) _ => some i
  | _ => none

/-- **The flag tells the truth** when `running` reads it: the thread is not in front of its first step,
    nor of its last one. -/
def FlagTells (s : State) : Event → Prop
  | .control _ => ∀ i ∈ s.control.asks, ∀ w ∈ s.workers[i]?, w.thread ≠ .spawned ∧ w.thread ≠ .ending
  | _ => True

instance (s : State) : DecidablePred (FlagTells s)
  | .control _ => inferInstanceAs (Decidable (∀ i ∈ s.control.asks, ∀ w ∈ s.workers[i]?,
      w.thread ≠ .spawned ∧ w.thread ≠ .ending))
  | .call _ => .isTrue trivial
  | .thread _ _ => .isTrue trivial

/-! ## The invariant -/

namespace WorkerObject

/-- There is no thread any more, or none yet. -/
def Silent (w : WorkerObject) : Prop := w.thread = .absent ∨ w.thread = .ended

def Usable (w : WorkerObject) : Prop := w.deleted = false

/-- The flag is set from the first step of the thread to the end of `threadStartUp`, and a deleted
    object has no thread. -/
structure Sound (w : WorkerObject) : Prop where
  flag : w.isRunning = true ↔ w.thread = .running ∨ w.thread = .leaving
  silent : w.deleted = true → w.Silent

/-- An object whose thread was not created yet. -/
structure Fresh (w : WorkerObject) : Prop where
  thread : w.thread = .absent
  isRunning : w.isRunning = false
  deleted : w.deleted = false

theorem new_fresh (noEcho : Bool) (buffer : Buffer 4096) : (new noEcho buffer).Fresh := ⟨rfl, rfl, rfl⟩

theorem Fresh.sound {w : WorkerObject} (h : w.Fresh) : w.Sound := by
  refine ⟨by simp [h.thread, h.isRunning], ?_⟩
  intro hd
  rw [h.deleted] at hd
  cases hd

variable {w w' : WorkerObject} {e : ThreadEvent}

/-- Everything a step of a thread can do. -/
theorem step_cases (h : w.step e = some w') :
    (w.thread = .spawned ∧ ∃ worker, w' = { w with thread := .running, isRunning := true, worker }) ∨
    (w.thread = .running ∧ ∃ worker,
      w' = { w with thread := if worker.left then .leaving else .running, worker }) ∨
    (w.thread = .leaving ∧ w' = { w with thread := .ending, isRunning := false, shouldStop := false }) ∨
    (w.thread = .ending ∧ w' = { w with thread := .ended }) := by
  cases e with
  | startUp time =>
    simp only [step] at h
    split at h
    · next ht =>
      obtain rfl := Option.some.inj h
      exact .inl ⟨ht, _, rfl⟩
    · cases h
  | round r =>
    simp only [step] at h
    split at h
    · next ht =>
      obtain ⟨worker, -, rfl⟩ := Option.map_eq_some_iff.mp h
      exact .inr (.inl ⟨ht.1, worker, rfl⟩)
    · cases h
  | finish =>
    simp only [step] at h
    split at h
    · next ht =>
      obtain rfl := Option.some.inj h
      exact .inr (.inr (.inl ⟨ht, rfl⟩))
    · cases h
  | exit =>
    simp only [step] at h
    split at h
    · next ht =>
      obtain rfl := Option.some.inj h
      exact .inr (.inr (.inr ⟨ht, rfl⟩))
    · cases h

/-- A thread that takes a step is there. -/
theorem not_silent (h : w.step e = some w') : ¬ w.Silent := by
  intro hs
  rcases step_cases h with ⟨ht, -⟩ | ⟨ht, -⟩ | ⟨ht, -⟩ | ⟨ht, -⟩
  all_goals
    rw [Silent, ht] at hs
    rcases hs with hs | hs <;> cases hs

/-- No thread deletes its object. -/
theorem step_deleted (h : w.step e = some w') : w'.deleted = w.deleted := by
  rcases step_cases h with ⟨-, worker, rfl⟩ | ⟨-, worker, rfl⟩ | ⟨-, rfl⟩ | ⟨-, rfl⟩
  all_goals rfl

theorem step_sound (hw : w.Sound) (h : w.step e = some w') : w'.Sound := by
  refine ⟨?_, ?_⟩
  · have hflag := hw.flag
    rcases step_cases h with ⟨ht, worker, rfl⟩ | ⟨ht, worker, rfl⟩ | ⟨ht, rfl⟩ | ⟨ht, rfl⟩
    · simp
    · rw [ht] at hflag
      cases hl : worker.left <;> simpa using hflag
    · simp
    · rw [ht] at hflag
      simpa using hflag
  · intro hd
    rw [step_deleted h] at hd
    exact absurd (hw.silent hd) (not_silent h)

/-- The flag is clear of a thread between its first and its last step only if there is none. -/
theorem silent_of_flag (hw : w.Sound) (hf : w.isRunning = false) (ht : w.thread ≠ .spawned ∧ w.thread ≠ .ending) :
    w.Silent := by
  have hflag := hw.flag
  rw [hf] at hflag
  unfold Silent
  cases h : w.thread with
  | absent => exact .inl rfl
  | spawned => exact absurd h ht.1
  | running => simp [h] at hflag
  | leaving => simp [h] at hflag
  | ending => exact absurd h ht.2
  | ended => exact .inr rfl

end WorkerObject

/-- `P` holds of worker `i`, if there is one. -/
def State.At (s : State) (i : Nat) (P : WorkerObject → Prop) : Prop := ∀ w, s.workers[i]? = some w → P w

namespace Control

/-- The workers the loop still visits. -/
def todo : Control → List Nat
  | signalling todo _ => todo
  | scanning todo _ => todo
  | deleting todo _ => todo
  | stopping _ todo _ => todo
  | starting todo => todo
  | _ => []

/-- The workers of the pool that are not deleted yet. -/
def usable (pool : List Nat) : Control → List Nat
  | deleting todo _ => todo
  | stopping _ todo _ => todo
  | _ => pool

/-- The workers of the pool whose threads are known to have ended. -/
def silent (pool : List Nat) : Control → List Nat
  | scanning todo _ => pool.filter (· ∉ todo)
  | deleting _ _ => pool
  | stopping _ _ _ => pool
  | _ => []

end Control

structure Inv (s : State) : Prop where
  sound : ∀ i, s.At i WorkerObject.Sound
  nodup : s.pool.Nodup
  retired : s.retired ≤ s.workers.length
  pool : ∀ i ∈ s.pool, s.retired ≤ i ∧ i < s.workers.length
  outside : ∀ i, i ∉ s.pool → s.At i WorkerObject.Silent
  todo : s.control.todo <:+ s.pool
  usable : ∀ i ∈ s.control.usable s.pool, s.At i WorkerObject.Usable
  silent : ∀ i ∈ s.control.silent s.pool, s.At i WorkerObject.Silent

variable {s s' : State}

theorem at_update_iff {i j : Nat} {f : WorkerObject → WorkerObject} {P : WorkerObject → Prop} :
    (s.update j f).At i P ↔ s.At i fun w => P (if j = i then f w else w) := by
  simp only [State.At, State.update, List.getElem?_modify, Option.map_eq_map, Option.map_eq_some_iff]
  refine ⟨fun h w hw => h _ ⟨w, hw, rfl⟩, ?_⟩
  intro h w ⟨v, hv, hw⟩
  rw [← hw]
  exact h v hv

theorem at_update_same {i j : Nat} {f : WorkerObject → WorkerObject} {P : WorkerObject → Prop}
    (hf : s.At j fun w => P w → P (f w)) (h : s.At i P) : (s.update j f).At i P := by
  rw [at_update_iff]
  intro w hw
  split
  · next hj =>
    subst hj
    exact hf w hw (h w hw)
  · exact h w hw

theorem at_update_ne {i j : Nat} {f : WorkerObject → WorkerObject} {P : WorkerObject → Prop} (hj : j ≠ i)
    (h : s.At i P) : (s.update j f).At i P := by
  rw [at_update_iff]
  intro w hw
  rw [if_neg hj]
  exact h w hw

theorem at_append {i : Nat} {w : WorkerObject} {P : WorkerObject → Prop} (hw : P w) (h : s.At i P) :
    State.At { s with workers := s.workers ++ [w] } i P := by
  intro v hv
  rcases Nat.lt_or_ge i s.workers.length with hlt | hge
  · apply h
    rwa [List.getElem?_append_left hlt] at hv
  · rw [List.getElem?_append_right hge] at hv
    rw [List.mem_singleton.mp (List.mem_of_getElem? hv)]
    exact hw

/-- The flag that is read. -/
theorem at_isRunning {i : Nat} {b : Bool} (h : s.isRunning i = b) : s.At i fun w => w.isRunning = b := by
  intro w hw
  rwa [State.isRunning, hw] at h

namespace Inv

theorem new (packetSize : ResponseSize) (noEcho : Bool) : Inv (State.new packetSize noEcho) := by
  have hnone : ∀ i P, (State.new packetSize noEcho).At i P := by
    intro i P w hw
    cases hw
  refine ⟨fun i => hnone i _, List.nodup_nil, le_refl _, ?_, fun i _ => hnone i _, List.suffix_refl _, ?_, ?_⟩
  all_goals
    intro i hi
    cases hi

section

variable {c : Control}

theorem todo_at (hi : Inv s) (hc : s.control = c) : c.todo <:+ s.pool := by
  rw [← hc]
  exact hi.todo

theorem usable_at (hi : Inv s) (hc : s.control = c) : ∀ i ∈ c.usable s.pool, s.At i WorkerObject.Usable := by
  rw [← hc]
  exact hi.usable

theorem silent_at (hi : Inv s) (hc : s.control = c) : ∀ i ∈ c.silent s.pool, s.At i WorkerObject.Silent := by
  rw [← hc]
  exact hi.silent

end

/-- The calling thread moves on; workers and pool are the same. -/
theorem move (hi : Inv s) (hworkers : s'.workers = s.workers) (hpool : s'.pool = s.pool)
    (hretired : s'.retired = s.retired) (htodo : s'.control.todo <:+ s.pool)
    (husable : ∀ i ∈ s'.control.usable s.pool, s.At i WorkerObject.Usable)
    (hsilent : ∀ i ∈ s'.control.silent s.pool, s.At i WorkerObject.Silent) : Inv s' := by
  have hat : ∀ i P, s'.At i P ↔ s.At i P := by
    intro i P
    rw [State.At, State.At, hworkers]
  refine ⟨?_, ?_, ?_, ?_, ?_, ?_, ?_, ?_⟩
  · exact fun i => (hat i _).mpr (hi.sound i)
  · rw [hpool]
    exact hi.nodup
  · rw [hretired, hworkers]
    exact hi.retired
  · rw [hpool, hretired, hworkers]
    exact hi.pool
  · intro i h
    rw [hpool] at h
    exact (hat i _).mpr (hi.outside i h)
  · rw [hpool]
    exact htodo
  · rw [hpool]
    exact fun i h => (hat i _).mpr (husable i h)
  · rw [hpool]
    exact fun i h => (hat i _).mpr (hsilent i h)

/-- One worker changes, and what is known of it stays. -/
theorem update (hi : Inv s) {j : Nat} {f : WorkerObject → WorkerObject}
    (hsound : s.At j fun w => w.Sound → (f w).Sound) (hsilent : s.At j fun w => w.Silent → (f w).Silent)
    (husable : s.At j fun w => w.Usable → (f w).Usable) : Inv (s.update j f) := by
  have hlen : (s.update j f).workers.length = s.workers.length := List.length_modify ..
  refine ⟨?_, hi.nodup, ?_, ?_, ?_, hi.todo, ?_, ?_⟩
  · exact fun i => at_update_same hsound (hi.sound i)
  · rw [hlen]
    exact hi.retired
  · rw [hlen]
    exact hi.pool
  · exact fun i h => at_update_same hsilent (hi.outside i h)
  · exact fun i h => at_update_same husable (hi.usable i h)
  · exact fun i h => at_update_same hsilent (hi.silent i h)

/-- The stop flag of a worker is set or cleared. -/
theorem updateStop (hi : Inv s) (j : Nat) (b : Bool) : Inv (s.update j fun w => { w with shouldStop := b }) :=
  hi.update (fun _ _ h => ⟨h.flag, h.silent⟩) (fun _ _ h => h) (fun _ _ h => h)

/-- A step of a worker's thread. -/
theorem thread (hi : Inv s) {i : Nat} {e : ThreadEvent} (h : step s (.thread i e) = some s') : Inv s' := by
  simp only [step] at h
  split at h
  · next w hw =>
    obtain ⟨w', hw', rfl⟩ := Option.map_eq_some_iff.mp h
    have hthis : ∀ v, s.workers[i]? = some v → v = w := fun v hv => Option.some.inj (hv.symm.trans hw)
    apply hi.update
    · intro v hv hsound
      rw [hthis v hv] at hsound
      exact WorkerObject.step_sound hsound hw'
    · intro v hv hsilent
      rw [hthis v hv] at hsilent
      exact absurd hsilent (WorkerObject.not_silent hw')
    · intro v hv husable
      rw [hthis v hv] at husable
      exact (WorkerObject.step_deleted hw').trans husable
  · cases h

/-- `stop` returns: no worker has a thread. -/
theorem stopReturns (hi : Inv s) {c : Caller} (hc : s.control = .deleting [] c) : Inv (s.stopReturns c) := by
  have hsilent : ∀ i, s.At i WorkerObject.Silent := by
    intro i
    by_cases hp : i ∈ s.pool
    · exact hi.silent_at hc i hp
    · exact hi.outside i hp
  refine ⟨hi.sound, List.nodup_nil, le_refl _, ?_, fun i _ => hsilent i, ?_, ?_, ?_⟩
  · intro i h
    cases h
  · cases c <;> exact List.suffix_refl _
  · intro i h
    cases c <;> cases h
  · intro i h
    cases c <;> cases h

/-- A new worker object that is in no pool. -/
theorem append (hi : Inv s) {w : WorkerObject} (hw : w.Fresh) : Inv { s with workers := s.workers ++ [w] } := by
  have hlen : s.workers.length ≤ (s.workers ++ [w]).length := by simp
  refine ⟨?_, hi.nodup, le_trans hi.retired hlen, ?_, ?_, hi.todo, ?_, ?_⟩
  · exact fun i => at_append hw.sound (hi.sound i)
  · intro i h
    exact ⟨(hi.pool i h).1, lt_of_lt_of_le (hi.pool i h).2 hlen⟩
  · exact fun i h => at_append (.inl hw.thread) (hi.outside i h)
  · exact fun i h => at_append hw.deleted (hi.usable i h)
  · exact fun i h => at_append (.inl hw.thread) (hi.silent i h)

/-- A worker comes into the pool, while there is no loop over it. -/
theorem insert (hi : Inv s) {m m' j k : Nat} (hc : s.control = .adding m) (hk : k ≤ s.pool.length)
    (hj : j ∉ s.pool) (hretired : s.retired ≤ j) (hlt : j < s.workers.length) (husable : s.At j WorkerObject.Usable) :
    Inv { s with pool := s.pool.insertIdx k j, control := .adding m' } := by
  have hmem : ∀ i, i ∈ s.pool.insertIdx k j ↔ i = j ∨ i ∈ s.pool := fun i => List.mem_insertIdx hk
  have hall := hi.usable_at hc
  refine ⟨hi.sound, ?_, hi.retired, ?_, ?_, List.nil_suffix, ?_, ?_⟩
  · rw [(List.perm_insertIdx j s.pool hk).nodup_iff]
    exact List.nodup_cons.mpr ⟨hj, hi.nodup⟩
  · intro i h
    rcases (hmem i).mp h with rfl | h
    · exact ⟨hretired, hlt⟩
    · exact hi.pool i h
  · intro i h
    apply hi.outside
    exact fun hp => h ((hmem i).mpr (.inr hp))
  · intro i h
    rcases (hmem i).mp h with rfl | h
    · exact husable
    · exact hall i h
  · intro i h
    cases h

/-- A worker of the pool changes, and the calling thread moves on. -/
theorem change (hi : Inv s) {i : Nat} {f : WorkerObject → WorkerObject} {c : Control} (hpool : i ∈ s.pool)
    (hsound : s.At i fun w => w.Sound → (f w).Sound) (htodo : c.todo <:+ s.pool)
    (husable : ∀ j ∈ c.usable s.pool, (s.update i f).At j WorkerObject.Usable)
    (hsilent : ∀ j ∈ c.silent s.pool, (s.update i f).At j WorkerObject.Silent) :
    Inv { s.update i f with control := c } := by
  have hlen : (s.update i f).workers.length = s.workers.length := List.length_modify ..
  refine ⟨?_, hi.nodup, ?_, ?_, ?_, htodo, husable, hsilent⟩
  · exact fun j => at_update_same hsound (hi.sound j)
  · show s.retired ≤ (s.update i f).workers.length
    rw [hlen]
    exact hi.retired
  · show ∀ j ∈ s.pool, s.retired ≤ j ∧ j < (s.update i f).workers.length
    rw [hlen]
    exact hi.pool
  · intro j hj
    have hne : i ≠ j := fun h => hj (h ▸ hpool)
    exact at_update_ne hne (hi.outside j hj)

/-- A thread is created for a worker of the pool. -/
theorem spawn (hi : Inv s) {i : Nat} {todo : List Nat} (hc : s.control = .starting (i :: todo)) :
    Inv { s.update i WorkerObject.threadStart with control := .starting todo } := by
  have htodo := hi.todo_at hc
  have hall := hi.usable_at hc
  have hpool : i ∈ s.pool := htodo.subset List.mem_cons_self
  apply hi.change hpool
  · intro w hw _
    refine ⟨by simp [WorkerObject.threadStart], ?_⟩
    intro hd
    have husable : w.deleted = false := hall i hpool w hw
    exact absurd (husable.symm.trans hd) Bool.false_ne_true
  · exact (List.suffix_cons i todo).trans htodo
  · intro j hj
    apply at_update_same _ (hall j hj)
    exact fun w _ h => h
  · intro j hj
    cases hj

/-- A worker of the pool is deleted. -/
theorem delete (hi : Inv s) {i : Nat} {todo : List Nat} {c : Caller} (hc : s.control = .deleting (i :: todo) c) :
    Inv { s.update i (fun w => { w with deleted := true }) with control := .stopping i todo c } := by
  have htodo := hi.todo_at hc
  have hsilent := hi.silent_at hc
  have hpool : i ∈ s.pool := htodo.subset List.mem_cons_self
  have hnot : i ∉ todo := (List.nodup_cons.mp (hi.nodup.sublist htodo.sublist)).1
  apply hi.change hpool
  · exact fun w hw h => ⟨h.flag, fun _ => hsilent i hpool w hw⟩
  · exact (List.suffix_cons i todo).trans htodo
  · intro j hj
    have hne : i ≠ j := by
      intro h
      rw [h] at hnot
      exact hnot hj
    exact at_update_ne hne (hi.usable_at hc j (List.mem_cons_of_mem _ hj))
  · intro j hj
    apply at_update_same _ (hsilent j hj)
    exact fun w _ h => h

/-- `running` finds worker `i` not running: it has no thread. -/
theorem scanned (hi : Inv s) {i : Nat} {todo : List Nat} {c : Caller} (hc : s.control = .scanning (i :: todo) c)
    (hok : s.At i fun w => w.thread ≠ .spawned ∧ w.thread ≠ .ending) (hf : s.isRunning i = false) :
    Inv { s with control := .scanning todo c } := by
  have hall := hi.usable_at hc
  refine hi.move rfl rfl rfl ((List.suffix_cons i todo).trans (hi.todo_at hc)) hall ?_
  intro j hj
  obtain ⟨hpool, hnot⟩ := List.mem_filter.mp hj
  by_cases hji : j = i
  · intro w hw
    rw [hji] at hw
    exact WorkerObject.silent_of_flag (hi.sound i w hw) (at_isRunning hf w hw) (hok w hw)
  · apply hi.silent_at hc
    apply List.mem_filter.mpr
    simpa [hpool, hji] using hnot

variable {a : Answer}

theorem signalStopThreads (hi : Inv s) {todo : List Nat} {c : Caller} (hc : s.control = .signalling todo c)
    (h : s.advance a = some s') : Inv s' := by
  cases todo with
  | nil =>
    have hall := hi.usable_at hc
    simp only [State.advance, hc] at h
    obtain rfl := Option.some.inj h
    exact hi.move rfl rfl rfl (List.suffix_refl _) hall (by simp [Control.silent])
  | cons i todo =>
    have htodo := (List.suffix_cons i todo).trans (hi.todo_at hc)
    have hu := hi.updateStop i true
    have hall := hu.usable_at hc
    simp only [State.advance, hc] at h
    obtain rfl := Option.some.inj h
    exact hu.move rfl rfl rfl htodo hall (by simp [Control.silent])

theorem running (hi : Inv s) {todo : List Nat} {c : Caller} (hc : s.control = .scanning todo c)
    (hok : FlagTells s (.control a)) (h : s.advance a = some s') : Inv s' := by
  have hall := hi.usable_at hc
  cases todo with
  | nil =>
    simp only [State.advance, hc] at h
    obtain rfl := Option.some.inj h
    refine hi.move rfl rfl rfl (List.suffix_refl _) hall ?_
    intro i hpool
    apply hi.silent_at hc
    simpa [Control.silent] using hpool
  | cons i todo =>
    simp only [State.advance, hc] at h
    obtain rfl := Option.some.inj h
    cases hf : s.isRunning i with
    | true => exact hi.move rfl rfl rfl (List.suffix_refl _) hall (by simp [Control.silent])
    | false =>
      rw [FlagTells, hc] at hok
      exact hi.scanned hc (hok i rfl) hf

theorem destroyAllThreads (hi : Inv s) {todo : List Nat} {c : Caller} (hc : s.control = .deleting todo c)
    (h : s.advance a = some s') : Inv s' := by
  cases todo with
  | nil =>
    simp only [State.advance, hc] at h
    obtain rfl := Option.some.inj h
    exact hi.stopReturns hc
  | cons i todo =>
    simp only [State.advance, hc] at h
    obtain rfl := Option.some.inj h
    exact hi.delete hc

theorem threadStop (hi : Inv s) {i : Nat} {todo : List Nat} {c : Caller} (hc : s.control = .stopping i todo c)
    (h : s.advance a = some s') : Inv s' := by
  simp only [State.advance, hc] at h
  split at h
  · obtain rfl := Option.some.inj h
    exact hi.updateStop i true
  · obtain rfl := Option.some.inj h
    have hu := hi.updateStop i false
    have htodo := hu.todo_at hc
    have hall := hu.usable_at hc
    have hsilent := hu.silent_at hc
    exact hu.move rfl rfl rfl htodo hall hsilent

theorem createSocket (hi : Inv s) {n : Nat} (hc : s.control = .opening n) (h : s.advance a = some s') : Inv s' := by
  simp only [State.advance, hc] at h
  obtain rfl := Option.some.inj h
  have hall := hi.usable_at hc
  by_cases hs : a.socket = 0
  · simp only [if_pos hs]
    exact hi.move rfl rfl rfl List.nil_suffix hall (by simp [Control.silent])
  · simp only [if_neg hs]
    exact hi.move rfl rfl rfl List.nil_suffix hall (by simp [Control.silent])

theorem startBouncerThreads (hi : Inv s) {m : Nat} (hc : s.control = .adding m) (h : s.advance a = some s') :
    Inv s' := by
  cases m with
  | zero =>
    have hall := hi.usable_at hc
    simp only [State.advance, hc] at h
    obtain rfl := Option.some.inj h
    exact hi.move rfl rfl rfl (List.suffix_refl _) hall (by simp [Control.silent])
  | succ m =>
    have hnew := WorkerObject.new_fresh s.noEcho a.buffer
    simp only [State.advance, hc] at h
    split at h
    · obtain rfl := Option.some.inj h
      have happend := hi.append hnew
      have hall := happend.usable_at hc
      exact happend.move rfl rfl rfl List.nil_suffix hall (by simp [Control.silent])
    · obtain rfl := Option.some.inj h
      have hfresh : ((WorkerObject.new s.noEcho a.buffer).setPacketSize s.packetSize).Fresh :=
        ⟨hnew.thread, hnew.isRunning, hnew.deleted⟩
      -- the number of the new object is the length of the list it is appended to
      refine (hi.append hfresh).insert hc (min_le_right _ _) ?_ hi.retired (by simp) ?_
      · intro hmem
        exact Nat.lt_irrefl _ (hi.pool _ hmem).2
      · intro w hw
        rw [List.getElem?_concat_length] at hw
        obtain rfl := Option.some.inj hw
        exact hfresh.deleted

theorem startThreads (hi : Inv s) {todo : List Nat} (hc : s.control = .starting todo) (h : s.advance a = some s') :
    Inv s' := by
  have hall := hi.usable_at hc
  cases todo with
  | nil =>
    simp only [State.advance, hc] at h
    obtain rfl := Option.some.inj h
    exact hi.move rfl rfl rfl List.nil_suffix hall (by simp [Control.silent])
  | cons i todo =>
    simp only [State.advance, hc] at h
    split at h
    · obtain rfl := Option.some.inj h
      have htodo := (List.suffix_cons i todo).trans (hi.todo_at hc)
      exact hi.move rfl rfl rfl htodo hall (by simp [Control.silent])
    · split at h
      · obtain rfl := Option.some.inj h
        exact hi.spawn hc
      · obtain rfl := Option.some.inj h
        exact hi.move rfl rfl rfl List.nil_suffix hall (by simp [Control.silent])

/-- The next action of the calling thread. -/
theorem advance (hi : Inv s) (hok : FlagTells s (.control a)) (h : s.advance a = some s') : Inv s' := by
  cases hc : s.control with
  | idle =>
    simp only [State.advance, hc] at h
    cases h
  | signalling todo c => exact hi.signalStopThreads hc h
  | scanning todo c => exact hi.running hc hok h
  | deleting todo c => exact hi.destroyAllThreads hc h
  | stopping i todo c => exact hi.threadStop hc h
  | opening n => exact hi.createSocket hc h
  | adding m => exact hi.startBouncerThreads hc h
  | starting todo => exact hi.startThreads hc h

/-- **The invariant is kept** by every step of which the flag tells the truth. -/
theorem step (hi : Inv s) {e : Event} (hok : FlagTells s e) (h : Teardown.step s e = some s') : Inv s' := by
  cases e with
  | call c =>
    simp only [Teardown.step] at h
    split at h
    · next hc =>
      have hall := hi.usable_at hc
      obtain rfl := Option.some.inj h
      rw [State.call]
      split
      · exact hi
      · exact hi.move rfl rfl rfl (List.suffix_refl _) hall (by simp [Control.silent])
    · cases h
  | control a => exact hi.advance hok h
  | thread i e => exact hi.thread h

/-- A thread that takes a step belongs to a worker of the pool. -/
theorem thread_pool (hi : Inv s) {i : Nat} {e : ThreadEvent} (h : Teardown.step s (.thread i e) = some s') :
    i ∈ s.pool ∧ s.At i WorkerObject.Usable := by
  simp only [Teardown.step] at h
  split at h
  · next w hw =>
    obtain ⟨w', hw', -⟩ := Option.map_eq_some_iff.mp h
    have hnot := WorkerObject.not_silent hw'
    refine ⟨?_, ?_⟩
    · by_contra hp
      exact hnot (hi.outside i hp w hw)
    · intro v hv
      rw [Option.some.inj (hv.symm.trans hw)]
      by_contra hd
      exact hnot ((hi.sound i w hw).silent (by simpa [WorkerObject.Usable] using hd))
  · cases h

/-- The calling thread uses no worker that is deleted. -/
theorem uses_usable (hi : Inv s) (a : Answer) : ∀ i ∈ s.uses (.control a), s.At i WorkerObject.Usable := by
  have hhead : ∀ {i j : Nat} {todo : List Nat}, i ∈ [j] → j :: todo <:+ s.pool → i ∈ s.pool := by
    intro i j todo h hsuffix
    rw [List.mem_singleton.mp h]
    exact hsuffix.subset List.mem_cons_self
  intro i h
  rw [State.uses] at h
  split at h
  · next hc => exact hi.usable_at hc i (hhead h (hi.todo_at hc))
  · next hc => exact hi.usable_at hc i (hhead h (hi.todo_at hc))
  · next hc =>
    -- in the loop that deletes them, only the workers still to come are used
    rw [List.mem_singleton.mp h]
    exact hi.usable_at hc _ List.mem_cons_self
  · next hc => exact hi.usable_at hc i (hhead h (hi.todo_at hc))
  · cases h

/-- **A step is safe.** -/
theorem safe (hi : Inv s) {e : Event} (h : Teardown.step s e = some s') : Safe s e := by
  cases e with
  | call c =>
    refine ⟨?_, ?_⟩
    · intro i hi
      cases hi
    · intro i te hte
      cases hte
  | control a =>
    refine ⟨hi.uses_usable a, ?_⟩
    intro i te hte
    cases hte
  | thread i e =>
    obtain ⟨hpool, husable⟩ := hi.thread_pool h
    refine ⟨?_, ?_⟩
    · intro j hj
      rw [List.mem_singleton.mp hj]
      exact husable
    · intro j te hte
      cases hte
      exact (hi.pool i hpool).1

/-- Deleted workers have no thread, and those from before the last stop have none. -/
theorem no_thread (hi : Inv s) {i : Nat} {w : WorkerObject} (hw : s.workers[i]? = some w)
    (h : w.deleted = true ∨ i < s.retired) : w.Silent := by
  rcases h with hd | hlt
  · exact (hi.sound i w hw).silent hd
  · apply hi.outside i _ w hw
    intro hp
    exact Nat.not_lt.mpr (hi.pool i hp).1 hlt

end Inv

/-- **Stopping waits for the threads**: in every run in which the flag tells the truth whenever it is
    read, no step uses a deleted object or is one of a thread that was started before a stop; and no
    worker that is deleted, or from before the last stop, has a thread. -/
theorem stop_waits_for_threads (packetSize : ResponseSize) (noEcho : Bool) {es : List Event}
    (h : Runs step (State.new packetSize noEcho) es s)
    (ha : Along step FlagTells (State.new packetSize noEcho) es) :
    Along step Safe (State.new packetSize noEcho) es ∧
      ∀ i w, s.workers[i]? = some w → w.deleted = true ∨ i < s.retired → w.Silent := by
  have hstep : ∀ t e u, Inv t → FlagTells t e → step t e = some u → Inv u := fun _ _ _ hi hok hs => hi.step hok hs
  have hinv := h.invariant_along (Inv.new packetSize noEcho) hstep ha
  have hsafe := h.along_of_invariant (Inv.new packetSize noEcho) hstep (fun _ _ _ hi hs => hi.safe hs) ha
  exact ⟨hsafe, fun i w hw hd => hinv.no_thread hw hd⟩

/-- The system grants everything. -/
def granted : Answer :=
  { socket := 3, bind := ⟨4, 0, 0⟩, buffer := Buffer.filled 4096 0, place := 0, created := true }

/-- A start with one worker. -/
def startEvents : List Event := .call (.start 1) :: List.replicate 8 (.control granted)

/-- The worker's thread runs; a stop finds it running, and then ended. -/
def patientStop : List Event :=
  startEvents ++ [.thread 0 (.startUp 0), .call .stop, .control granted, .control granted, .control granted,
    .thread 0 (.round { recv := none, time := 5, stop := true }), .thread 0 .finish, .thread 0 .exit] ++
    List.replicate 5 (.control granted)

theorem stop_waits_for_threads_patient : ∃ s, Runs step (State.new ⟨0, .inl rfl⟩ false) patientStop s ∧
    Along step Safe (State.new ⟨0, .inl rfl⟩ false) patientStop ∧
      ∀ i w, s.workers[i]? = some w → w.deleted = true ∨ i < s.retired → w.Silent :=
  ⟨_, rfl, stop_waits_for_threads ⟨0, .inl rfl⟩ false rfl (by decide +kernel)⟩

/-- A stop that comes before the worker's thread takes its first step. -/
def hastyStop : List Event := startEvents ++ .call .stop :: List.replicate 7 (.control granted)

/-- The stop returns, and then the thread starts on its deleted object. -/
theorem late_thread_uses_deleted : ∃ s s', Runs step (State.new ⟨0, .inl rfl⟩ false) hastyStop s ∧
    s.control = .idle ∧ step s (.thread 0 (.startUp 0)) = some s' ∧
      ¬ Along step Safe (State.new ⟨0, .inl rfl⟩ false) (hastyStop ++ [.thread 0 (.startUp 0)]) := by
  have hrun : ∃ s s', Runs step (State.new ⟨0, .inl rfl⟩ false) hastyStop s ∧ s.control = .idle ∧
      step s (.thread 0 (.startUp 0)) = some s' ∧ ∃ w, s.workers[0]? = some w ∧ w.deleted = true :=
    ⟨_, _, rfl, rfl, rfl, _, rfl, rfl⟩
  obtain ⟨s, s', hr, hc, hs, w, hw, hd⟩ := hrun
  refine ⟨s, s', hr, hc, hs, ?_⟩
  intro h
  obtain ⟨-, husable, -⟩ := (along_snoc hr).mp h
  have := husable 0 (List.mem_singleton_self 0) w hw
  rw [hd] at this
  cases this

end Teardown
end UdpPingPong
