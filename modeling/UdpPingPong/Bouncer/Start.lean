import UdpPingPong.Bouncer.Worker

/- Starting and stopping a bouncer, `UDPEchoBouncer::start` and `stop`, whatever its workers are.

   What the operating system answers during a `start` comes with the call. `start` adds
   workers to the pool one by one, and a worker that cannot be bound throws through the
   loop, with the workers before it in the pool and the control socket open.

   1. `BouncerOf`: a bouncer over the workers it holds and the response size as it stores it,
      with `stop`, and with `startWith` over how it makes a worker and what `threadStart`
      does to one;
   2. `startWith_cases`: everything a start can do;
   3. `startWith_refines`: bouncers whose workers correspond start alike. -/
namespace UdpPingPong

open Exec Wire

/-- What throws. -/
inductive Failure where
  | couldNotOpenSocket
  | couldNotBindToInterface
  | threadStart
  | deadlock
  deriving DecidableEq, Repr

/-- What the system answers to the calls of one `UDPEchoBouncerThread::bind`. -/
structure BindAnswer where
  socket : Int
  bind : Int
  getsockopt : Int
  deriving DecidableEq, Repr

/-- What the system answers during one `start`: to the `socket` call of `createSocket`, to the
    `bind` of worker number `i`, and whether it creates the thread of worker number `i`. -/
structure StartAnswer where
  socket : Int
  bind : Nat → BindAnswer
  threadCreated : Nat → Bool

/-- A `UDPEchoBouncer`. The mutex of the thread pool is error checking: a second lock by the same
    thread throws. -/
structure BouncerOf (ω σ : Type) where
  pool : List ω
  poolLocked : Bool
  sockfd : Int
  packetSize : σ
  noEcho : Bool
  running : Bool
  deriving DecidableEq

namespace Bouncer

/-- `UDPEchoBouncerThread::bind`: its failure, or the worker's socket. -/
def workerBind (a : BindAnswer) : Except Failure Int :=
  if a.socket = 0 then .error .couldNotOpenSocket
  else if a.bind ≠ 0 then .error .couldNotBindToInterface
  else if a.getsockopt < 0 then .error .couldNotBindToInterface
  else .ok a.socket

/-- The workers `start` asks for: at least one. -/
def requested (numThreads : Nat) : Nat := if numThreads = 0 then 1 else numThreads

/-- The worker is bound. -/
def Bound (a : BindAnswer) : Prop := ∃ sockfd, workerBind a = .ok sockfd

end Bouncer

open Bouncer (workerBind requested Bound)

namespace BouncerOf

variable {ω σ ω' σ' : Type}

/-- `stop`, and what it throws. -/
def stop (b : BouncerOf ω σ) : BouncerOf ω σ × Option Failure :=
  if b.poolLocked then (b, some .deadlock)
  else ({ b with pool := [], sockfd := 0, running := false }, none)

/-- `createSocket`. -/
def createSocket (b : BouncerOf ω σ) (socket : Int) : BouncerOf ω σ × Option Failure :=
  if socket = 0 then ({ b with sockfd := socket }, some .couldNotOpenSocket)
  else ({ b with sockfd := socket }, none)

def addThread (b : BouncerOf ω σ) (w : ω) : BouncerOf ω σ := { b with pool := b.pool ++ [w] }

/-- The loop of `startBouncerThreads` from worker number `i` on, with `m` workers to go. -/
def addWorkers (newWorker : BouncerOf ω σ → Nat → Int → ω) (bind : Nat → BindAnswer) (b : BouncerOf ω σ) (i : Nat) :
    Nat → BouncerOf ω σ × Option Failure
  | 0 => (b, none)
  | m + 1 => match workerBind (bind i) with
    | .error e => (b, some e)
    | .ok sockfd => addWorkers newWorker bind (b.addThread (newWorker b i sockfd)) (i + 1) m

/-- `ThreadPool::startThreads` over the workers from number `i` on: those started so far and the
    others, and whether all threads were created. -/
def startWorkers (threadStart : ω → ω) (created : Nat → Bool) : Nat → List ω → List ω × Bool
  | _, [] => ([], true)
  | i, w :: ws =>
    if created i then
      let (ws, ok) := startWorkers threadStart created (i + 1) ws
      (threadStart w :: ws, ok)
    else (w :: ws, false)

/-- A failed `threadStart` throws out of `startThreads` with the pool's mutex held. -/
def startThreads (threadStart : ω → ω) (created : Nat → Bool) (b : BouncerOf ω σ) : BouncerOf ω σ × Option Failure :=
  match startWorkers threadStart created 0 b.pool with
  | (pool, true) => ({ b with pool }, none)
  | (pool, false) => ({ b with pool, poolLocked := true }, some .threadStart)

/-- `start`, and what it throws. -/
def startWith (newWorker : BouncerOf ω σ → Nat → Int → ω) (threadStart : ω → ω) (b : BouncerOf ω σ)
    (numThreads : Nat) (answer : StartAnswer) : BouncerOf ω σ × Option Failure :=
  match b.stop with
  | (b, some e) => (b, some e)
  | (b, none) => match b.createSocket answer.socket with
    | (b, some e) => (b, some e)
    | (b, none) => match addWorkers newWorker answer.bind b 0 (requested numThreads) with
      | (b, some e) => (b, some e)
      | (b, none) => match startThreads threadStart answer.threadCreated b with
        | (b, some e) => (b, some e)
        | (b, none) => ({ b with running := true }, none)

/-! ## The loops of a start -/

section
variable {newWorker : BouncerOf ω σ → Nat → Int → ω} {threadStart : ω → ω} {b : BouncerOf ω σ}

/-- A worker made with the settings of the bouncer. -/
def Made (newWorker : BouncerOf ω σ → Nat → Int → ω) (b : BouncerOf ω σ) (w : ω) : Prop :=
  ∃ (c : BouncerOf ω σ) (i : Nat) (sockfd : Int), c.packetSize = b.packetSize ∧ c.noEcho = b.noEcho ∧
    w = newWorker c i sockfd

/-- What holds from `i` on holds at `i` and from `i + 1` on. -/
theorem forall_from_succ {P : Nat → Prop} {i m : Nat} :
    (∀ j, i ≤ j → j < i + (m + 1) → P j) ↔ P i ∧ ∀ j, i + 1 ≤ j → j < i + 1 + m → P j := by
  refine ⟨?_, ?_⟩
  · intro h
    exact ⟨h i (le_refl _) (by omega), fun j h1 h2 => h j (by omega) (by omega)⟩
  · intro h j h1 h2
    obtain ⟨hi, h⟩ := h
    by_cases hj : j = i
    · exact hj ▸ hi
    · exact h j (by omega) (by omega)

/-- The loop adds unstarted workers, `m` of them unless one cannot be bound. -/
theorem addWorkers_spec (newWorker : BouncerOf ω σ → Nat → Int → ω) (bind : Nat → BindAnswer) : ∀ (m : Nat) (b : BouncerOf ω σ) (i : Nat),
    ∃ ws r, addWorkers newWorker bind b i m = ({ b with pool := b.pool ++ ws }, r) ∧
      (r = none ↔ ∀ j, i ≤ j → j < i + m → Bound (bind j)) ∧ (r = none → ws.length = m) ∧
      ∀ w ∈ ws, Made newWorker b w
  | 0, b, i => by
    refine ⟨[], none, ?_, ?_, fun _ => rfl, by simp⟩
    · rw [addWorkers, List.append_nil]
    · simp only [true_iff]
      intro j h1 h2
      omega
  | m + 1, b, i => by
    rw [addWorkers]
    cases hb : workerBind (bind i) with
    | error e =>
      refine ⟨[], some e, by rw [List.append_nil], ?_, by simp, by simp⟩
      rw [forall_from_succ]
      simp only [reduceCtorEq, false_iff]
      intro h
      obtain ⟨⟨sockfd, hs⟩, -⟩ := h
      rw [hb] at hs
      cases hs
    | ok sockfd =>
      obtain ⟨ws, r, hr, hiff, hlen, hmade⟩ := addWorkers_spec newWorker bind m (b.addThread (newWorker b i sockfd)) (i + 1)
      refine ⟨newWorker b i sockfd :: ws, r, ?_, ?_, ?_, ?_⟩
      · show addWorkers newWorker bind (b.addThread (newWorker b i sockfd)) (i + 1) m = _
        rw [hr, addThread, List.append_assoc, List.singleton_append]
      · rw [hiff, forall_from_succ]
        exact (and_iff_right ⟨sockfd, hb⟩).symm
      · intro h
        rw [List.length_cons, hlen h]
      · exact List.forall_mem_cons.mpr ⟨⟨b, i, sockfd, rfl, rfl, rfl⟩, hmade⟩

theorem startWorkers_spec (threadStart : ω → ω) (created : Nat → Bool) : ∀ (ws : List ω) (i : Nat),
    (startWorkers threadStart created i ws).1.length = ws.length ∧
      ((startWorkers threadStart created i ws).2 = true ↔ ∀ j, i ≤ j → j < i + ws.length → created j = true) ∧
      ((startWorkers threadStart created i ws).2 = true →
        (startWorkers threadStart created i ws).1 = ws.map threadStart) ∧
      ∀ w ∈ (startWorkers threadStart created i ws).1, w ∈ ws ∨ w ∈ ws.map threadStart
  | [], i => by
    refine ⟨rfl, ?_, fun _ => rfl, by simp [startWorkers]⟩
    simp only [startWorkers, true_iff]
    intro j h1 h2
    simp only [List.length_nil] at h2
    omega
  | w :: ws, i => by
    obtain ⟨hlen, hiff, hstarted, hmem⟩ := startWorkers_spec threadStart created ws (i + 1)
    rw [startWorkers, List.length_cons, forall_from_succ]
    by_cases hc : created i = true
    · rw [if_pos hc]
      refine ⟨by simp [hlen], ?_, ?_, ?_⟩
      · show (startWorkers threadStart created (i + 1) ws).2 = true ↔ _
        rw [hiff]
        exact (and_iff_right hc).symm
      · intro h
        rw [List.map_cons, ← hstarted h]
      · refine List.forall_mem_cons.mpr ⟨.inr List.mem_cons_self, fun v hv => ?_⟩
        exact (hmem v hv).imp (List.mem_cons_of_mem w) (List.mem_cons_of_mem (threadStart w))
    · -- the loop ends with the first thread that is not created
      rw [if_neg hc]
      exact ⟨rfl, by simp [hc], by simp, fun v hv => .inl hv⟩

/-! ## A start -/

theorem stop_unlocked (hb : b.poolLocked = false) :
    b.stop = ({ b with pool := [], sockfd := 0, running := false }, none) := by
  rw [stop, hb, if_neg Bool.false_ne_true]

/-- Everything a start can do to a bouncer whose pool is not locked. -/
inductive StartCase (newWorker : BouncerOf ω σ → Nat → Int → ω) (threadStart : ω → ω) (b : BouncerOf ω σ) (n : Nat)
    (a : StartAnswer) : BouncerOf ω σ × Option Failure → Prop
  | noSocket (hs : a.socket = 0) : StartCase newWorker threadStart b n a
      ({ b with pool := [], sockfd := 0, running := false }, some .couldNotOpenSocket)
  | bindFails (ws e) (hs : a.socket ≠ 0) (i) (hi : i < requested n) (hbind : ¬ Bound (a.bind i))
      (hmade : ∀ w ∈ ws, Made newWorker b w) : StartCase newWorker threadStart b n a
      ({ b with pool := ws, sockfd := a.socket, running := false }, some e)
  | threadFails (ws) (hs : a.socket ≠ 0) (i) (hi : i < requested n) (hcreated : a.threadCreated i = false)
      (hmade : ∀ w ∈ ws, Made newWorker b w ∨ ∃ v, Made newWorker b v ∧ threadStart v = w) :
      StartCase newWorker threadStart b n a
      ({ b with pool := ws, poolLocked := true, sockfd := a.socket, running := false }, some .threadStart)
  | started (ws) (hs : a.socket ≠ 0) (hlen : ws.length = requested n)
      (hall : ∀ i < requested n, Bound (a.bind i) ∧ a.threadCreated i = true)
      (hmade : ∀ w ∈ ws, ∃ v, Made newWorker b v ∧ threadStart v = w) : StartCase newWorker threadStart b n a
      ({ b with pool := ws, sockfd := a.socket, running := true }, none)

theorem startWith_cases (hb : b.poolLocked = false) (n : Nat) (a : StartAnswer) :
    StartCase newWorker threadStart b n a (b.startWith newWorker threadStart n a) := by
  by_cases hs : a.socket = 0
  · have h : b.startWith newWorker threadStart n a =
        ({ b with pool := [], sockfd := 0, running := false }, some .couldNotOpenSocket) := by
      simp only [startWith, stop_unlocked hb, createSocket, hs, if_true]
    rw [h]
    exact .noSocket hs
  · obtain ⟨ws, r, hadd, hbound, hlen, hmade⟩ := addWorkers_spec newWorker a.bind (requested n)
      { b with pool := [], sockfd := a.socket, running := false } 0
    rw [List.nil_append] at hadd
    cases r with
    | some e =>
      -- `startBouncerThreads` throws behind `createSocket`: nothing is undone
      have h : b.startWith newWorker threadStart n a =
          ({ b with pool := ws, sockfd := a.socket, running := false }, some e) := by
        simp only [startWith, stop_unlocked hb, createSocket, hs, if_false, hadd]
      have hsome : ∃ i < requested n, ¬ Bound (a.bind i) := by
        by_contra hall
        simp only [not_exists, not_and, not_not] at hall
        exact absurd (hbound.mpr fun j _ hj => hall j (by omega)) (by simp)
      obtain ⟨i, hi, hbind⟩ := hsome
      rw [h]
      exact .bindFails ws e hs i hi hbind hmade
    | none =>
      obtain ⟨hlen', hok, hstarted, hmem⟩ := startWorkers_spec threadStart a.threadCreated ws 0
      have hall := hbound.mp rfl
      rw [hlen rfl] at hlen' hok
      cases hw : startWorkers threadStart a.threadCreated 0 ws with
      | mk ws' ok =>
        rw [hw] at hlen' hok hstarted hmem
        have hafter : ∀ w ∈ ws.map threadStart, ∃ v, Made newWorker b v ∧ threadStart v = w := by
          intro w hw
          obtain ⟨v, hv, hvw⟩ := List.mem_map.mp hw
          exact ⟨v, hmade v hv, hvw⟩
        cases ok with
        | false =>
          have h : b.startWith newWorker threadStart n a =
              ({ b with pool := ws', poolLocked := true, sockfd := a.socket, running := false },
                some .threadStart) := by
            simp only [startWith, stop_unlocked hb, createSocket, hs, if_false, hadd, startThreads, hw]
          have hsome : ∃ i < requested n, a.threadCreated i = false := by
            by_contra hcreated
            simp only [not_exists, not_and, Bool.not_eq_false] at hcreated
            exact absurd (hok.mpr fun j _ hj => hcreated j (by omega)) (by simp)
          obtain ⟨i, hi, hcreated⟩ := hsome
          rw [h]
          exact .threadFails ws' hs i hi hcreated fun w hw => (hmem w hw).imp (hmade w) (hafter w)
        | true =>
          have h : b.startWith newWorker threadStart n a =
              ({ b with pool := ws', sockfd := a.socket, running := true }, none) := by
            simp only [startWith, stop_unlocked hb, createSocket, hs, if_false, hadd, startThreads, hw]
          have hboth : ∀ i < requested n, Bound (a.bind i) ∧ a.threadCreated i = true := fun i hi =>
            ⟨hall i (Nat.zero_le i) (by omega), hok.mp rfl i (Nat.zero_le i) (by omega)⟩
          rw [h]
          obtain rfl : ws' = ws.map threadStart := hstarted rfl
          exact .started _ hs hlen' hboth hafter

end

/-! ## Bouncers that start alike -/

/-- `c` is the bouncer `b`, with `f` of its workers and a response size that corresponds. -/
structure RefinesBy (f : ω → ω') (R : σ → σ' → Prop) (b : BouncerOf ω σ) (c : BouncerOf ω' σ') : Prop where
  pool : b.pool.map f = c.pool
  poolLocked : b.poolLocked = c.poolLocked
  sockfd : b.sockfd = c.sockfd
  packetSize : R b.packetSize c.packetSize
  noEcho : b.noEcho = c.noEcho
  running : b.running = c.running

section
variable {f : ω → ω'} {R : σ → σ' → Prop} {b : BouncerOf ω σ} {c : BouncerOf ω' σ'}
  {newWorker : BouncerOf ω σ → Nat → Int → ω} {newWorker' : BouncerOf ω' σ' → Nat → Int → ω'}
  {threadStart : ω → ω} {threadStart' : ω' → ω'}

theorem addWorkers_refines (hnew : ∀ b c, RefinesBy f R b c → ∀ i sockfd, f (newWorker b i sockfd) = newWorker' c i sockfd)
    (bind : Nat → BindAnswer) : ∀ (m : Nat) {b : BouncerOf ω σ} {c : BouncerOf ω' σ'} (i : Nat), RefinesBy f R b c →
      RefinesBy f R (addWorkers newWorker bind b i m).1 (addWorkers newWorker' bind c i m).1 ∧
        (addWorkers newWorker bind b i m).2 = (addWorkers newWorker' bind c i m).2
  | 0, _, _, _, h => ⟨h, rfl⟩
  | m + 1, b, c, i, h => by
    rw [addWorkers, addWorkers]
    cases workerBind (bind i) with
    | error e => exact ⟨h, rfl⟩
    | ok sockfd =>
      apply addWorkers_refines hnew bind m (i + 1)
      refine ⟨?_, h.poolLocked, h.sockfd, h.packetSize, h.noEcho, h.running⟩
      show (b.pool ++ [_]).map f = c.pool ++ [_]
      rw [List.map_append, h.pool, List.map_singleton, hnew b c h]

theorem startWorkers_map (hstart : ∀ w, f (threadStart w) = threadStart' (f w)) (created : Nat → Bool) :
    ∀ (ws : List ω) (i : Nat), startWorkers threadStart' created i (ws.map f) =
      ((startWorkers threadStart created i ws).1.map f, (startWorkers threadStart created i ws).2)
  | [], _ => rfl
  | w :: ws, i => by
    rw [List.map_cons, startWorkers, startWorkers, startWorkers_map hstart created ws (i + 1)]
    split
    · rw [List.map_cons, hstart]
    · rfl

theorem startThreads_refines (hstart : ∀ w, f (threadStart w) = threadStart' (f w)) (created : Nat → Bool)
    (h : RefinesBy f R b c) :
    RefinesBy f R (startThreads threadStart created b).1 (startThreads threadStart' created c).1 ∧
      (startThreads threadStart created b).2 = (startThreads threadStart' created c).2 := by
  rw [startThreads, startThreads, ← h.pool, startWorkers_map hstart]
  cases startWorkers threadStart created 0 b.pool with
  | mk pool ok =>
    cases ok with
    | true => exact ⟨⟨rfl, h.poolLocked, h.sockfd, h.packetSize, h.noEcho, h.running⟩, rfl⟩
    | false => exact ⟨⟨rfl, rfl, h.sockfd, h.packetSize, h.noEcho, h.running⟩, rfl⟩

theorem stop_refines (h : RefinesBy f R b c) : RefinesBy f R b.stop.1 c.stop.1 ∧ b.stop.2 = c.stop.2 := by
  unfold stop
  rw [h.poolLocked]
  split
  · exact ⟨h, rfl⟩
  · exact ⟨⟨rfl, rfl, rfl, h.packetSize, h.noEcho, rfl⟩, rfl⟩

theorem createSocket_refines (h : RefinesBy f R b c) (socket : Int) :
    RefinesBy f R (b.createSocket socket).1 (c.createSocket socket).1 ∧
      (b.createSocket socket).2 = (c.createSocket socket).2 := by
  unfold createSocket
  split
  · exact ⟨⟨h.pool, h.poolLocked, rfl, h.packetSize, h.noEcho, h.running⟩, rfl⟩
  · exact ⟨⟨h.pool, h.poolLocked, rfl, h.packetSize, h.noEcho, h.running⟩, rfl⟩

/-- One step after another, where a failure of the first one ends both. -/
theorem andThen_refines {r : BouncerOf ω σ × Option Failure} {r' : BouncerOf ω' σ' × Option Failure}
    {g : BouncerOf ω σ → BouncerOf ω σ × Option Failure} {g' : BouncerOf ω' σ' → BouncerOf ω' σ' × Option Failure}
    (h : RefinesBy f R r.1 r'.1 ∧ r.2 = r'.2)
    (hnext : ∀ b c, RefinesBy f R b c → RefinesBy f R (g b).1 (g' c).1 ∧ (g b).2 = (g' c).2) :
    RefinesBy f R (match r with | (b, some e) => (b, some e) | (b, none) => g b).1
        (match r' with | (c, some e) => (c, some e) | (c, none) => g' c).1 ∧
      (match r with | (b, some e) => (b, some e) | (b, none) => g b).2 =
        (match r' with | (c, some e) => (c, some e) | (c, none) => g' c).2 := by
  obtain ⟨b, e⟩ := r
  obtain ⟨c, e'⟩ := r'
  obtain ⟨hr, rfl⟩ := h
  cases e with
  | some e => exact ⟨hr, rfl⟩
  | none => exact hnext b c hr

/-- **Bouncers whose workers correspond start alike**, with the same failure. -/
theorem startWith_refines
    (hnew : ∀ b c, RefinesBy f R b c → ∀ i sockfd, f (newWorker b i sockfd) = newWorker' c i sockfd)
    (hstart : ∀ w, f (threadStart w) = threadStart' (f w)) (h : RefinesBy f R b c) (n : Nat) (a : StartAnswer) :
    RefinesBy f R (b.startWith newWorker threadStart n a).1 (c.startWith newWorker' threadStart' n a).1 ∧
      (b.startWith newWorker threadStart n a).2 = (c.startWith newWorker' threadStart' n a).2 := by
  refine andThen_refines (stop_refines h) fun b c h => ?_
  refine andThen_refines (createSocket_refines h a.socket) fun b c h => ?_
  refine andThen_refines (addWorkers_refines hnew a.bind _ 0 h) fun b c h => ?_
  refine andThen_refines (startThreads_refines hstart a.threadCreated h) fun b c h => ?_
  exact ⟨⟨h.pool, h.poolLocked, h.sockfd, h.packetSize, h.noEcho, rfl⟩, rfl⟩

end

end BouncerOf

end UdpPingPong
