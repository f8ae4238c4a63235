import Mathlib.Algebra.BigOperators.Fin
import UdpPingPong.Sender.Ids
import UdpPingPong.Sender.Rtt

/- The attempts to send: every call of `sendPacket` is counted once.

   A thread counts the results of `::send`, from the point on where `run` clears its
   counters; `getResults` adds up the counters of the pool. The counters are followed
   here for packets of any size, from whatever earlier runs left in them.

   1. `Accounted.count`: what one call keeps;
   2. `Accounted.add`: two accounts make one;
   3. `session_counters`: the threads of a session change their counters by such calls;
   4. `attempts_accounted`: the accounts of all threads and of the pool, over every
      interleaving of their calls and in every session. -/
namespace UdpPingPong

open Exec

/-- A result of `::send`: its value and `errno`. -/
abbrev SendResult := Int × Nat

/-- What changes the counters of a thread: `run` clears them, or `::send` has returned. -/
inductive Attempt where
  | run
  | send (n : Int) (errno : Nat)
  deriving DecidableEq, Repr

/-- The results since `run` began, with one more event. -/
def Attempt.note (results : List SendResult) : Attempt → List SendResult
  | .run => []
  | .send n errno => results ++ [(n, errno)]

/-- The results of `::send` since `run` began. -/
def resultsSinceRun (es : List Attempt) : List SendResult := es.foldl Attempt.note []

/-- The index at which `sendPacket` counts in `counter_errorcodes`. -/
def errorIndex (packetsize : Nat) (x : SendResult) : Option Nat :=
  if 0 < x.1 ∧ x.1 = packetsize then none
  else if x.1 < 0 then
    if x.2 < 255 then some x.2 else none
  else none

namespace SendCounter

def step (packetsize : Nat) (s : SendCounter) : Attempt → Option SendCounter
  | .run => some SendCounter.zero
  | .send n errno => some (s.count packetsize n errno)

/-- `getCounterErrorCode`; there is no value where it reads in front of the array. -/
def getCounterErrorCode (s : SendCounter) (err : Int) : Option Int :=
  if err < 255 then if 0 ≤ err then s.counterErrorcodes[err.toNat]? else none else some 0

/-- The loop of `getResults` reads inside the array. -/
theorem getCounterErrorCode_eq (s : SendCounter) (i : Fin 255) :
    s.getCounterErrorCode (i.val : Int) = some s.counterErrorcodes[i] := by
  have hi := i.isLt
  rw [getCounterErrorCode, if_pos (by omega), if_pos (by omega), Int.toNat_natCast]
  exact Vector.getElem?_eq_getElem hi

/-- The counters of two threads. -/
def add (s t : SendCounter) : SendCounter :=
  { counterSend := s.counterSend + t.counterSend
    counter0Bytes := s.counter0Bytes + t.counter0Bytes
    errors := s.errors + t.errors
    counterErrorcodes := Vector.zipWith (· + ·) s.counterErrorcodes t.counterErrorcodes }

end SendCounter

/-- The counters `s` **account for the results** of `::send`, each exactly once. -/
structure Accounted (packetsize : Nat) (results : List SendResult) (s : SendCounter) : Prop where
  total : s.counterSend + s.errors + s.counter0Bytes = results.length
  sent : s.counterSend = results.countP fun x => x.1 = (packetsize : Int)
  failed : s.errors =
    ∑ i : Fin 255, s.counterErrorcodes[i] + ((results.countP fun x => x.1 < 0 ∧ 255 ≤ x.2 : Nat) : Int)
  index : ∀ x ∈ results, ∀ i ∈ errorIndex packetsize x, i < 255
  code : ∀ i : Fin 255, s.counterErrorcodes[i] = (results.filterMap (errorIndex packetsize)).count i.val

section
variable {packetsize : Nat} {results results' : List SendResult} {s s' : SendCounter}

theorem errorIndex_lt {x : SendResult} {i : Nat} (h : errorIndex packetsize x = some i) : i < 255 := by
  unfold errorIndex at h
  split at h
  · cases h
  · split at h
    · split at h
      · next hlt =>
        obtain rfl := Option.some.inj h
        exact hlt
      · cases h
    · cases h

theorem Accounted.zero : Accounted packetsize [] SendCounter.zero := by
  refine ⟨rfl, rfl, ?_, ?_, ?_⟩
  · simp [SendCounter.zero]
  · intro x hx
    cases hx
  · simp [SendCounter.zero]

/-- The counters of two threads account for the results of both. -/
theorem Accounted.add (h : Accounted packetsize results s) (h' : Accounted packetsize results' s') :
    Accounted packetsize (results ++ results') (s.add s') := by
  have hget : ∀ i : Fin 255, (s.add s').counterErrorcodes[i] = s.counterErrorcodes[i] + s'.counterErrorcodes[i] :=
    fun i => Vector.getElem_zipWith i.isLt
  constructor
  case total =>
    have ht := h.total
    have ht' := h'.total
    simp only [SendCounter.add, List.length_append]
    omega
  case sent =>
    rw [List.countP_append, Nat.cast_add, ← h.sent, ← h'.sent]
    rfl
  case failed =>
    have hf := h.failed
    have hf' := h'.failed
    simp only [hget, Finset.sum_add_distrib, List.countP_append, Nat.cast_add]
    show s.errors + s'.errors = _
    omega
  case index =>
    intro x _ i hi
    exact errorIndex_lt hi
  case code =>
    intro i
    rw [hget, h.code, h'.code, List.filterMap_append, List.count_append, Nat.cast_add]

/-- The error code of one call, counted in its place. -/
theorem SendCounter.count_counterErrorcodes (s : SendCounter) (n : Int) (errno : Nat) (i : Fin 255) :
    (s.count packetsize n errno).counterErrorcodes[i] =
      s.counterErrorcodes[i] + if errorIndex packetsize (n, errno) = some i.val then 1 else 0 := by
  simp only [count, errorIndex]
  split
  · simp
  · split
    · split
      · by_cases hi : errno = i.val
        · subst hi
          simp
        · simp [hi]
      · simp
    · simp

/-- One call counts in at most one place. -/
theorem sum_errorIndex (packetsize : Nat) (x : SendResult) :
    ∑ i : Fin 255, (if errorIndex packetsize x = some i.val then 1 else 0 : Int) =
      if (errorIndex packetsize x).isSome then 1 else 0 := by
  cases h : errorIndex packetsize x with
  | none => simp
  | some k =>
    have hplace : ∀ i : Fin 255, some k = some i.val ↔ ⟨k, errorIndex_lt h⟩ = i := by
      intro i
      rw [Option.some.injEq, Fin.ext_iff]
    simp [hplace]

theorem SendCounter.count_errors (s : SendCounter) (hp : 1 ≤ packetsize) (n : Int) (errno : Nat) :
    (s.count packetsize n errno).errors = s.errors + if n < 0 then 1 else 0 := by
  unfold count
  split
  · rw [if_neg (by omega), add_zero]
  · split
    · rfl
    · exact (add_zero _).symm

theorem errorIndex_isSome (hp : 1 ≤ packetsize) {n : Int} {errno : Nat} :
    (errorIndex packetsize (n, errno)).isSome ↔ n < 0 ∧ errno < 255 := by
  unfold errorIndex
  split
  · simp only [Option.isSome_none, Bool.false_eq_true, false_iff]
    omega
  · split
    · next hn => split <;> simp_all
    · next hn => simp [hn]

/-- **One call** is accounted for. -/
theorem Accounted.count (hp : 1 ≤ packetsize) (h : Accounted packetsize results s) (n : Int) (errno : Nat) :
    Accounted packetsize (results ++ [(n, errno)]) (s.count packetsize n errno) := by
  constructor
  case total =>
    have ht := h.total
    rw [List.length_append, List.length_singleton]
    unfold SendCounter.count
    split
    · simp only
      omega
    · split
      · simp only
        omega
      · simp only
        omega
  case sent =>
    rw [SendCounter.count_counterSend s hp, h.sent, List.countP_append, List.countP_singleton]
    simp
  case failed =>
    -- a failure is counted in its place, or has none
    have hsplit : (if n < 0 then 1 else 0 : Int) =
        (if (errorIndex packetsize (n, errno)).isSome then 1 else 0) + if n < 0 ∧ 255 ≤ errno then 1 else 0 := by
      simp only [errorIndex_isSome hp]
      by_cases hn : n < 0 <;> by_cases he : errno < 255 <;> simp [hn, he]
    rw [SendCounter.count_errors s hp, h.failed, hsplit, List.countP_append, List.countP_singleton]
    simp only [SendCounter.count_counterErrorcodes, Finset.sum_add_distrib, sum_errorIndex, decide_eq_true_eq]
    push_cast
    exact add_add_add_comm _ _ _ _
  case index =>
    intro x _ i hi
    exact errorIndex_lt hi
  case code =>
    intro i
    rw [SendCounter.count_counterErrorcodes, h.code, List.filterMap_append, List.count_append]
    cases hx : errorIndex packetsize (n, errno) <;> simp [hx, List.count_singleton]

/-! ## Runs -/

theorem resultsSinceRun_snoc (es : List Attempt) (e : Attempt) :
    resultsSinceRun (es ++ [e]) = e.note (resultsSinceRun es) := by
  rw [resultsSinceRun, List.foldl_append]
  rfl

/-- **A thread** accounts for the results since `run` began, whatever its counters were before. -/
theorem run_accounted (hp : 1 ≤ packetsize) {es : List Attempt} (h : Runs (SendCounter.step packetsize) s es s') :
    .run ∈ es → Accounted packetsize (resultsSinceRun es) s' := by
  apply Runs.trace_induct (P := fun es t => .run ∈ es → Accounted packetsize (resultsSinceRun es) t) _ _ h
  · intro hrun
    cases hrun
  · intro es t e u _ ih hs hrun
    rw [resultsSinceRun_snoc]
    cases e with
    | run =>
      obtain rfl := Option.some.inj hs
      exact Accounted.zero
    | send n errno =>
      obtain rfl := Option.some.inj hs
      have hbefore : .run ∈ es := by simpa using hrun
      exact (ih hbefore).count hp n errno

end

/-! ## The pool -/

variable {c : Config}

/-- The counters of `sendPacket` among the results. -/
def Results.sendCounter (res : Results) : SendCounter :=
  { counterSend := res.counterSend, counter0Bytes := res.counter0Bytes, errors := res.counterErrors
    counterErrorcodes := res.counterErrorcodes }

/-- What `getResults` adds for each error code is what `getCounterErrorCode` reads. -/
theorem Results.add_counterErrorcodes (res : Results) (p : Peer c) (i : Fin 255) :
    ∃ x, p.thread.counter.getCounterErrorCode (i.val : Int) = some x ∧
      (res.add p).counterErrorcodes[i] = res.counterErrorcodes[i] + x := by
  refine ⟨_, SendCounter.getCounterErrorCode_eq _ i, ?_⟩
  exact Vector.getElem_zipWith i.isLt

/-- `getResults` adds up what accounts for the results of each thread. -/
theorem foldl_add_accounted {packetsize : Nat} {peers : List (Peer c)} {results : List (List SendResult)}
    (h : List.Forall₂ (fun p xs => Accounted packetsize xs p.thread.counter) peers results) :
    ∀ (res : Results) {before : List SendResult}, Accounted packetsize before res.sendCounter →
      Accounted packetsize (before ++ results.flatten) (peers.foldl Results.add res).sendCounter := by
  induction h with
  | nil =>
    intro res before hres
    simpa using hres
  | cons hp _ ih =>
    intro res before hres
    have hadd := ih (res.add _) (hres.add hp)
    rwa [List.append_assoc] at hadd

theorem getResults_accounted {packetsize : Nat} {peers : List (Peer c)} {results : List (List SendResult)}
    (h : List.Forall₂ (fun p xs => Accounted packetsize xs p.thread.counter) peers results) :
    Accounted packetsize results.flatten (getResults peers).sendCounter :=
  foldl_add_accounted h Results.zero Accounted.zero

/-- The account of a pool, from those of its threads. -/
theorem pool_accounted {packetsize : Nat} {peers : List (Peer c)} {results : Nat → List SendResult}
    (h : ∀ (i : Nat) (p : Peer c), peers[i]? = some p → Accounted packetsize (results i) p.thread.counter) :
    Accounted packetsize ((List.range peers.length).flatMap results) (getResults peers).sendCounter := by
  rw [List.flatMap_def]
  apply getResults_accounted
  rw [List.forall₂_iff_get]
  refine ⟨by simp, ?_⟩
  intro i hi hi'
  simpa using h i peers[i] (List.getElem?_eq_getElem hi)

/-- The accounts of a pool of threads, each with its attempts: each thread that has begun to run
    accounts for its results since then, and if all have, the sums of `getResults` account for the
    results of all of them. -/
structure PoolAccounted (packetsize : Nat) (attempts : Nat → List Attempt) (counters : List SendCounter) : Prop where
  thread : ∀ (i : Nat) (s : SendCounter), counters[i]? = some s → .run ∈ attempts i →
    Accounted packetsize (resultsSinceRun (attempts i)) s
  pool : ∀ (c : Config) (peers : List (Peer c)), (peers.map fun p => p.thread.counter) = counters →
    (∀ i, i < peers.length → .run ∈ attempts i) →
    Accounted packetsize ((List.range peers.length).flatMap fun i => resultsSinceRun (attempts i))
      (getResults peers).sendCounter

theorem PoolAccounted.of_threads {packetsize : Nat} {attempts : Nat → List Attempt} {counters : List SendCounter}
    (h : ∀ (i : Nat) (s : SendCounter), counters[i]? = some s → .run ∈ attempts i →
      Accounted packetsize (resultsSinceRun (attempts i)) s) : PoolAccounted packetsize attempts counters := by
  refine ⟨h, ?_⟩
  intro c peers hpeers hall
  apply pool_accounted
  intro i p hget
  apply h i
  · rw [← hpeers, List.getElem?_map, hget]
    rfl
  · exact hall i (List.getElem?_eq_some_iff.mp hget).1

/-! ## The threads of a session -/

/-- What an event of a session does to the counters of its thread. -/
def SessionEv.attempts (c : Config) : SessionEv c.packetsize → List Attempt
  | .touch (.run _) => if c.ignoreResponses then [.run] else []
  | .touch .startReceiver => [.run]
  | .touch (.sendPacket x) => [.send x.n x.errno]
  | _ => []

/-- The attempts of thread `i` in a session. -/
def threadAttempts (i : Nat) (es : List (Nat × SessionEv c.packetsize)) : List Attempt :=
  (eventsOf i es).flatMap (SessionEv.attempts c)

section
variable {s t : SenderThread c}

theorem session_counter {e : SessionEv c.packetsize} (h : s.session e = some t) :
    Runs (SendCounter.step c.packetsize) s.counter (e.attempts c) t.counter := by
  cases e with
  | start qps =>
    simp only [SenderThread.session] at h
    split at h
    · obtain rfl := Option.some.inj h
      exact runs_nil.mpr rfl
    · cases h
  | touch e =>
    cases SenderThread.step_cases h with
    | starting fill hpc =>
      simp only [SessionEv.attempts]
      split
      · exact Runs.single rfl
      · exact runs_nil.mpr rfl
    | startReceiver hpc => exact Runs.single rfl
    | sendPacket x l hpc hl => exact Runs.single rfl
    | readStart u hpc => exact runs_nil.mpr rfl
    | loading v l hpc hv hl => exact runs_nil.mpr rfl
    | readDuration u hpc => exact runs_nil.mpr rfl
    | waiting v w hpc hw => exact runs_nil.mpr rfl
    | stopReceiver hpc => exact runs_nil.mpr rfl

/-- **The threads of the sender** change their counters by attempts and in no other way. -/
theorem session_counters {es : List (SessionEv c.packetsize)} (h : Runs SenderThread.session s es t) :
    Runs (SendCounter.step c.packetsize) s.counter (es.flatMap (SessionEv.attempts c)) t.counter := by
  induction es generalizing s with
  | nil =>
    rw [runs_nil.mp h]
    exact runs_nil.mpr rfl
  | cons e es ih =>
    obtain ⟨u, hu, hr⟩ := runs_cons.mp h
    rw [List.flatMap_cons]
    exact (session_counter hu).append (ih hr)

end

/-- **The threads of a session** account for the attempts of all its runs. -/
theorem session_accounted {pool pool' : List (SenderThread c)} {es : List (Nat × SessionEv c.packetsize)}
    (h : Runs sessionStep pool es pool') :
    PoolAccounted c.packetsize (fun i => threadAttempts i es) (pool'.map fun t => t.counter) := by
  have hp : 1 ≤ c.packetsize := Nat.le_trans (by decide) c.packetsize_ok
  apply PoolAccounted.of_threads
  intro i s hs hrun
  rw [List.getElem?_map, Option.map_eq_some_iff] at hs
  obtain ⟨t, ht, rfl⟩ := hs
  obtain ⟨_, -, hr⟩ := h.proj_back ht
  exact run_accounted hp (session_counters hr) hrun

/-- **Every attempt is accounted for exactly once**: in every interleaving of the calls of any number
    of threads, from any counters; and in every session of the sender's threads, which change their
    counters by such calls only. -/
theorem attempts_accounted {packetsize : Nat} (hp : 1 ≤ packetsize) (pool : List SendCounter)
    {pool' : List SendCounter} {es : List (Nat × Attempt)}
    (h : Runs (stepAt (SendCounter.step packetsize)) pool es pool') :
    PoolAccounted packetsize (fun i => eventsOf i es) pool' ∧
    ∀ (c : Config) (threads threads' : List (SenderThread c)) (es : List (Nat × SessionEv c.packetsize)),
      Runs sessionStep threads es threads' →
      PoolAccounted c.packetsize (fun i => threadAttempts i es) (threads'.map fun t => t.counter) := by
  refine ⟨?_, fun _ _ _ _ hsession => session_accounted hsession⟩
  apply PoolAccounted.of_threads
  intro i s hs hrun
  obtain ⟨_, -, hr⟩ := h.proj_back hs
  exact run_accounted hp hr hrun

/-- Two threads run with packets of one byte, after an earlier run in which each had an error: the
    first one sends a packet and gets the errors 111 and 300, the second one sends 0 bytes. -/
theorem attempts_accounted_two_threads :
    let es := [(0, Attempt.run), (1, .run), (0, .send 1 0), (1, .send 0 0), (0, .send (-1) 111), (0, .send (-1) 300)]
    let pool' := [((SendCounter.zero.count 1 1 0).count 1 (-1) 111).count 1 (-1) 300, SendCounter.zero.count 1 0 0]
    PoolAccounted 1 (fun i => eventsOf i es) pool' ∧
    ∀ (c : Config) (threads threads' : List (SenderThread c)) (es : List (Nat × SessionEv c.packetsize)),
      Runs sessionStep threads es threads' →
      PoolAccounted c.packetsize (fun i => threadAttempts i es) (threads'.map fun t => t.counter) :=
  attempts_accounted (le_refl 1) (List.replicate 2 (SendCounter.zero.count 1 (-1) 5)) rfl

end UdpPingPong
