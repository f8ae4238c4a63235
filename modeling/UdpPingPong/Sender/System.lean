import UdpPingPong.Sender.Pool
import UdpPingPong.Sender.Receiver

/- The sender as a whole: `UDPSender::main` runs the same threads once for every rate,
   with a network and a bouncer that answer each datagram at most once.

   A thread has its own socket for all runs, connected to the bouncer. Its datagrams
   and their replies may overtake each other, be late or get lost, and the socket
   keeps what arrives while no receiver runs. A message carries the number of the
   load step it was sent in; the code never looks at that number.

   1. `Peer.step_inv`, `System.step_inv`: what every step keeps, as long as receivers
      read replies to datagrams of the step that is running;
   2. `replies_attributed`: in every run of that kind no step has received more than
      it sent;
   3. `late_reply_counted`: a reply that is read in a later step is counted there. -/
namespace UdpPingPong

open Exec Greedy Wire

variable {c : Config}

/-- A datagram or its reply, and the load step the datagram was sent in. -/
structure Message where
  bytes : List UInt8
  loadStep : Nat
  deriving DecidableEq, Repr

/-- A sender thread with its receiver and its socket: datagrams on their way to the bouncer,
    replies on their way back, and the receive buffer of the socket. -/
structure Peer (c : Config) where
  thread : SenderThread c
  receiver : Receiver
  requests : List Message
  replies : List Message
  socket : List Message

/-- What happens around one sender thread: the thread takes a step, its receiver enters `run`,
    reads the next datagram from the socket or fails to; the bouncer answers datagram number `i`
    with some bytes; the network loses a datagram or a reply, or delivers a reply. -/
inductive PeerEv (size : Nat) where
  | thread (e : ThreadEv size)
  | receiverRun (time : Int)
  | recv (microtime : ℚ) (time : Int) (stop : Bool)
  | recvFails (microtime : ℚ) (time : Int) (stop : Bool)
  | answer (i : Nat) (bytes : List UInt8)
  | loseRequest (i : Nat)
  | loseReply (i : Nat)
  | deliver (i : Nat)

namespace Peer

/-- A thread as `prepareThreads` makes it, with the buffer its receiver allocated. -/
def new (c : Config) (recbuffer : Buffer 4096) : Peer c :=
  { thread := SenderThread.new c, receiver := Receiver.new recbuffer, requests := [], replies := [], socket := [] }

/-- A step of the thread, with what it does to its receiver and its socket. `threadStop` waits
    until the receiver is not running. -/
def stepThread (k : Nat) (p : Peer c) (e : ThreadEv c.packetsize) : Option (Peer c) :=
  match e with
  | .run fill => (p.thread.step (.run fill)).map fun t =>
    { p with thread := t, receiver := p.receiver.resetCounter }
  | .startReceiver => match p.receiver.threadStart with
    | none => none
    | some r => (p.thread.step .startReceiver).map fun t => { p with thread := t, receiver := r }
  | .sendPacket x => (p.thread.step (.sendPacket x)).map fun t =>
    { p with
      thread := t
      requests := if x.Accepted then p.requests ++ [{ bytes := t.buffer.bytes, loadStep := k }] else p.requests }
  | .stopReceiver => if p.receiver.pc = .running then none
    else (p.thread.step .stopReceiver).map fun t => { p with thread := t }
  | .env e => (p.thread.step (.env e)).map fun t => { p with thread := t }

/-- One event around the thread during load step number `k`. -/
def step (value : UInt64 → ℚ) (k : Nat) (p : Peer c) (e : PeerEv c.packetsize) : Option (Peer c) :=
  match e with
  | .thread e => p.stepThread k e
  | .receiverRun time => (p.receiver.step value (.run time)).map fun r => { p with receiver := r }
  | .recv microtime time stop => match p.socket with
    | [] => none
    | m :: rest => (p.receiver.step value (.round (some m.bytes) microtime time stop)).map fun r =>
      { p with receiver := r, socket := rest }
  | .recvFails microtime time stop => (p.receiver.step value (.round none microtime time stop)).map fun r =>
    { p with receiver := r }
  | .answer i bytes => match p.requests[i]? with
    | some m => some { p with
        requests := p.requests.eraseIdx i, replies := p.replies ++ [{ bytes, loadStep := m.loadStep }] }
    | none => none
  | .loseRequest i => some { p with requests := p.requests.eraseIdx i }
  | .loseReply i => some { p with replies := p.replies.eraseIdx i }
  | .deliver i => match p.replies[i]? with
    | some m => some { p with replies := p.replies.eraseIdx i, socket := p.socket ++ [m] }
    | none => none

end Peer

/-! ## Results -/

/-- The fields of `UDPSender::Results` that `getResults` fills in. An average over no packets is
    no number; the counters are 64 bits wide in the code and whole numbers here. -/
structure Results where
  counterSend : Int
  counterReceived : Int
  bytesReceived : Int
  counterErrors : Int
  counter0Bytes : Int
  packagesLost : Int
  duration : ℚ
  rttTotal : Option ℚ
  rttMin : ℚ
  rttMax : ℚ
  counterErrorcodes : Vector Int 255

def Results.zero : Results :=
  { counterSend := 0, counterReceived := 0, bytesReceived := 0, counterErrors := 0, counter0Bytes := 0
    packagesLost := 0, duration := 0, rttTotal := some 0, rttMin := 0, rttMax := 0
    counterErrorcodes := Vector.replicate 255 0 }

section
variable (round : ℚ → ℚ)

/-- `getRoundTripTimeAverage`; `round` is the rounding of the operations on `double`. -/
def Receiver.rttAverageRounded (r : Receiver) : Option ℚ :=
  if r.counterReceived = 0 then none else some (round (r.rttTotal / round r.counterReceived))

/-- The body of the loop of `getResults`. -/
def Results.addRounded (res : Results) (p : Peer c) : Results :=
  { res with
    counterSend := res.counterSend + p.thread.counter.counterSend
    counterReceived := res.counterReceived + p.receiver.counterReceived
    bytesReceived := res.bytesReceived + p.receiver.bytesReceived
    counterErrors := res.counterErrors + p.thread.counter.errors
    counter0Bytes := res.counter0Bytes + p.thread.counter.counter0Bytes
    duration := round (res.duration + p.thread.duration)
    rttTotal := do return round ((← res.rttTotal) + (← p.receiver.rttAverageRounded round))
    rttMin := if res.rttMin = 0 then p.receiver.rttMin
      else if p.receiver.rttMin < res.rttMin then p.receiver.rttMin else res.rttMin
    rttMax := if res.rttMax < p.receiver.rttMax then p.receiver.rttMax else res.rttMax
    counterErrorcodes := Vector.zipWith (· + ·) res.counterErrorcodes p.thread.counter.counterErrorcodes }

/-- `getResults`, on the threads in the order of the pool; `ThreadCount` is their number. -/
def getResultsRounded (peers : List (Peer c)) : Results :=
  let res := peers.foldl (Results.addRounded round) Results.zero
  { res with
    packagesLost := res.counterSend - res.counterReceived
    duration := round (res.duration / peers.length) }

end

/-- `getRoundTripTimeAverage` in exact arithmetic. -/
def Receiver.rttAverage (r : Receiver) : Option ℚ := r.rttAverageRounded id

/-- The body of the loop of `getResults` in exact arithmetic. -/
def Results.add (res : Results) (p : Peer c) : Results := res.addRounded id p

/-- `getResults` in exact arithmetic. The rounding touches the duration and the sum of the averages
    only (`getResultsRounded_eq`). -/
def getResults (peers : List (Peer c)) : Results := getResultsRounded id peers

theorem Receiver.rttAverage_eq (r : Receiver) :
    r.rttAverage = if r.counterReceived = 0 then none else some (r.rttTotal / r.counterReceived) := rfl

@[simp] theorem Results.add_rttTotal (res : Results) (p : Peer c) :
    (res.add p).rttTotal = do return (← res.rttTotal) + (← p.receiver.rttAverage) := rfl

theorem getResults_eq (peers : List (Peer c)) : getResults peers =
    { peers.foldl Results.add Results.zero with
      packagesLost := (peers.foldl Results.add Results.zero).counterSend -
        (peers.foldl Results.add Results.zero).counterReceived
      duration := (peers.foldl Results.add Results.zero).duration / peers.length } := rfl

theorem foldl_addRounded (round : ℚ → ℚ) : ∀ (peers : List (Peer c)) (res : Results) (d : ℚ) (a : Option ℚ),
    ∃ d' a', peers.foldl (Results.addRounded round) { res with duration := d, rttTotal := a } =
      { peers.foldl Results.add res with duration := d', rttTotal := a' }
  | [], _, d, a => ⟨d, a, rfl⟩
  | p :: peers, res, _, _ => foldl_addRounded round peers (res.add p) _ _

/-- **What the rounding touches**: with any rounding `getResults` gives the exact results but for the
    duration and the sum of the averages. -/
theorem getResultsRounded_eq (round : ℚ → ℚ) (peers : List (Peer c)) :
    ∃ d a, getResultsRounded round peers = { getResults peers with duration := d, rttTotal := a } := by
  obtain ⟨d, a, h⟩ := foldl_addRounded round peers Results.zero 0 (some 0)
  refine ⟨round (d / peers.length), a, ?_⟩
  have hfold : peers.foldl (Results.addRounded round) Results.zero =
      { peers.foldl Results.add Results.zero with duration := d, rttTotal := a } := h
  rw [getResultsRounded, hfold]
  rfl

theorem foldl_add_counters : ∀ (peers : List (Peer c)) (res : Results),
    (peers.foldl Results.add res).counterSend =
        res.counterSend + (peers.map fun p => p.thread.counter.counterSend).sum ∧
      (peers.foldl Results.add res).counterReceived =
        res.counterReceived + (peers.map fun p => p.receiver.counterReceived).sum
  | [], res => by simp
  | p :: peers, res => by
    obtain ⟨hs, hr⟩ := foldl_add_counters peers (res.add p)
    rw [List.foldl_cons, hs, hr]
    simp only [Results.add, Results.addRounded, List.map_cons, List.sum_cons]
    exact ⟨Int.add_assoc _ _ _, Int.add_assoc _ _ _⟩

/-! ## The program -/

/-- The program between two events: the rates to come, the number of load steps started, and the
    results of those that are over. In `running` a step has been started and not been evaluated. -/
structure System (c : Config) where
  rates : List Int
  loadStep : Nat
  running : Bool
  peers : List (Peer c)
  results : List Results

/-- `main` starts the next run, or evaluates the one that is over; or something happens around
    thread number `i`. -/
inductive SystemEv (size : Nat) where
  | run
  | getResults
  | peer (i : Nat) (e : PeerEv size)

namespace System

/-- The program with one thread for each of the receive buffers. -/
def new (c : Config) (rates : List Int) (recbuffers : List (Buffer 4096)) : System c :=
  { rates, loadStep := 0, running := false, peers := recbuffers.map (Peer.new c), results := [] }

/-- No thread is running. `ThreadPool::running` reads the flags of the threads half a second after they
    were created; one that has not entered `run` by then counts as stopped there, and as running here. -/
def AllIdle (s : System c) : Prop := ∀ p ∈ s.peers, p.thread.pc = .idle

instance (s : System c) : Decidable s.AllIdle := inferInstanceAs (Decidable (∀ p ∈ s.peers, _))

/-- The peers with the threads of a run that starts. -/
def withThreads (peers : List (Peer c)) (threads : List (SenderThread c)) : List (Peer c) :=
  List.zipWith (fun p t => { p with thread := t }) peers threads

/-- `UDPSender::run` comes back when no thread is running. -/
def step (value : UInt64 → ℚ) (s : System c) (e : SystemEv c.packetsize) : Option (System c) :=
  match e with
  | .run => match s.rates with
    | [] => none
    | rate :: rates =>
      if s.running = false ∧ s.AllIdle then
        (startRun (s.peers.map Peer.thread) rate).map fun threads =>
          { s with
            rates, loadStep := s.loadStep + 1, running := true
            peers := withThreads s.peers threads }
      else none
  | .getResults =>
    if s.running = true ∧ s.AllIdle then
      some { s with running := false, results := s.results ++ [UdpPingPong.getResults s.peers] }
    else none
  | .peer i e => match s.peers[i]? with
    | some p => (p.step value s.loadStep e).map fun p' => { s with peers := s.peers.set i p' }
    | none => none

end System

/-! ## Replies of the step that is running -/

/-- The messages of load step `k`. -/
def ofStep (k : Nat) (l : List Message) : Nat := l.countP fun m => m.loadStep = k

theorem ofStep_append (k : Nat) (l l' : List Message) : ofStep k (l ++ l') = ofStep k l + ofStep k l' :=
  List.countP_append

theorem ofStep_singleton (k : Nat) (m : Message) : ofStep k [m] = if m.loadStep = k then 1 else 0 := by
  simp [ofStep, List.countP_singleton]

theorem ofStep_eraseIdx_le (k : Nat) (l : List Message) (i : Nat) : ofStep k (l.eraseIdx i) ≤ ofStep k l :=
  (List.eraseIdx_sublist l i).countP_le

theorem ofStep_eraseIdx {k : Nat} {l : List Message} {i : Nat} {m : Message} (h : l[i]? = some m) :
    ofStep k (l.eraseIdx i) + ofStep k [m] = ofStep k l := by
  obtain ⟨hi, rfl⟩ := List.getElem?_eq_some_iff.mp h
  have hperm := (List.getElem_cons_eraseIdx_perm hi).countP_eq fun m : Message => m.loadStep = k
  rw [← List.singleton_append, List.countP_append, Nat.add_comm] at hperm
  exact hperm

namespace Peer

/-- The messages of load step `k` that are on their way, or wait in the socket. -/
def underway (k : Nat) (p : Peer c) : Nat := ofStep k p.requests + ofStep k p.replies + ofStep k p.socket

/-- What a receiver reads is a reply to a datagram of load step `k`. -/
def FreshRead (k : Nat) (p : Peer c) : PeerEv c.packetsize → Prop
  | .recv _ _ _ => ∀ m ∈ p.socket.head?, m.loadStep = k
  | _ => True

instance (k : Nat) (p : Peer c) : ∀ e, Decidable (p.FreshRead k e)
  | .recv _ _ _ => inferInstanceAs (Decidable (∀ m ∈ p.socket.head?, m.loadStep = k))
  | .thread _ | .receiverRun _ | .recvFails _ _ _ | .answer _ _ | .loseRequest _ | .loseReply _
  | .deliver _ => .isTrue trivial

/-- During load step `k` what was received, and what may still be, was sent. Before the counters
    are cleared nothing of the step is on its way. -/
structure Inv (k : Nat) (p : Peer c) : Prop where
  received : 0 ≤ p.receiver.counterReceived
  attributed : p.receiver.counterReceived + p.underway k ≤ p.thread.counter.counterSend
  starting : p.thread.pc = .starting → p.underway k = 0
  started : p.thread.pc = .startReceiver → p.underway k = 0 ∧ p.receiver.counterReceived = 0
  later : ∀ j, k < j → p.underway j = 0

theorem new_inv (c : Config) (recbuffer : Buffer 4096) : Inv 0 (new c recbuffer) := by
  refine ⟨le_refl _, le_refl _, ?_, ?_, fun _ _ => rfl⟩ <;> intro h <;> cases h

variable {value : UInt64 → ℚ} {k : Nat} {p p' : Peer c}

/-- A thread behind its start that counts nothing changes nothing. -/
theorem Inv.of_thread (hi : Inv k p) {t : SenderThread c} (hpc₁ : t.pc ≠ .starting)
    (hpc₂ : t.pc ≠ .startReceiver) (hc : t.counter = p.thread.counter) : Inv k { p with thread := t } := by
  refine ⟨hi.received, ?_, fun h => absurd h hpc₁, fun h => absurd h hpc₂, hi.later⟩
  show p.receiver.counterReceived + ((p.underway k : Nat) : Int) ≤ t.counter.counterSend
  rw [hc]
  exact hi.attributed

theorem stepThread_inv {e : ThreadEv c.packetsize} (h : p.stepThread k e = some p') (hi : Inv k p) :
    Inv k p' := by
  have ⟨hreceived, hattributed, hstarting, hstarted, hlater⟩ := hi
  cases e with
  | run fill =>
    obtain ⟨t, ht, rfl⟩ := Option.map_eq_some_iff.mp h
    obtain ⟨hpc, hcases⟩ := SenderThread.step_counter ht
    -- the counters of the receiver are cleared, and nothing of this step is under way yet
    have hnone := hstarting hpc
    rcases hcases with ⟨hpc', hc⟩ | ⟨hpc', hc⟩
    · refine ⟨le_refl _, ?_, by simp [hpc'], fun _ => ⟨hnone, rfl⟩, hlater⟩
      show 0 + ((p.underway k : Nat) : Int) ≤ t.counter.counterSend
      rw [hc]
      omega
    · refine ⟨le_refl _, ?_, by simp [hpc'], by simp [hpc'], hlater⟩
      show 0 + ((p.underway k : Nat) : Int) ≤ t.counter.counterSend
      rw [hc, hnone]
      exact le_refl _
  | startReceiver =>
    simp only [stepThread] at h
    split at h
    · cases h
    · next r hr =>
      obtain rfl := Receiver.threadStart_eq hr
      obtain ⟨t, ht, rfl⟩ := Option.map_eq_some_iff.mp h
      obtain ⟨hpc, hpc', hc⟩ := SenderThread.step_counter ht
      obtain ⟨hnone, hzero⟩ := hstarted hpc
      refine ⟨hreceived, ?_, by simp [hpc'], by simp [hpc'], hlater⟩
      show p.receiver.counterReceived + ((p.underway k : Nat) : Int) ≤ t.counter.counterSend
      rw [hzero, hnone, hc]
      exact le_refl _
  | sendPacket x =>
    obtain ⟨t, ht, rfl⟩ := Option.map_eq_some_iff.mp h
    obtain ⟨hpc₁, hpc₂, -, hc⟩ := SenderThread.step_counter ht
    have hsize : 0 < c.packetsize := Nat.lt_of_lt_of_le (by decide) c.packetsize_ok
    have hsent : t.counter.counterSend = p.thread.counter.counterSend + if x.Accepted then 1 else 0 := by
      rw [hc, SendCounter.count_counterSend _ hsize]
      rfl
    -- a datagram that is accepted is counted and put under way, both for step `k`
    refine ⟨hreceived, ?_, fun h => absurd h hpc₁, fun h => absurd h hpc₂, fun j hj => ?_⟩
    · simp only [underway] at hattributed ⊢
      rw [hsent]
      split
      · rw [ofStep_append, ofStep_singleton, if_pos rfl]
        push_cast at hattributed ⊢
        omega
      · simpa using hattributed
    · have hnone := hlater j hj
      simp only [underway] at hnone ⊢
      split
      · rw [ofStep_append, ofStep_singleton, if_neg (by simp only; omega)]
        omega
      · exact hnone
  | env e =>
    obtain ⟨t, ht, rfl⟩ := Option.map_eq_some_iff.mp h
    obtain ⟨hpc₁, hpc₂, hc⟩ := SenderThread.step_counter ht
    exact hi.of_thread hpc₁ hpc₂ hc
  | stopReceiver =>
    simp only [stepThread] at h
    split at h
    · cases h
    · obtain ⟨t, ht, rfl⟩ := Option.map_eq_some_iff.mp h
      obtain ⟨hpc₁, hpc₂, hc⟩ := SenderThread.step_counter ht
      exact hi.of_thread hpc₁ hpc₂ hc

/-- Messages only move on or get lost, and what is received was underway. -/
theorem Inv.of_le (hi : Inv k p) (hthread : p'.thread = p.thread) (h0 : 0 ≤ p'.receiver.counterReceived)
    (hle : p'.receiver.counterReceived + p'.underway k ≤ p.receiver.counterReceived + p.underway k)
    (hj : ∀ j, p'.underway j ≤ p.underway j) : Inv k p' := by
  obtain ⟨hreceived, hattributed, hstarting, hstarted, hlater⟩ := hi
  refine ⟨h0, ?_, ?_, ?_, fun j hkj => Nat.eq_zero_of_le_zero (hlater j hkj ▸ hj j)⟩
  · rw [hthread]
    omega
  · rw [hthread]
    intro hpc
    have := hstarting hpc
    have := hj k
    omega
  · rw [hthread]
    intro hpc
    obtain ⟨hnone, hzero⟩ := hstarted hpc
    have := hj k
    omega

/-- Neither thread looks at the messages: they move on, or get lost. -/
theorem Inv.of_moved (hi : Inv k p) (hthread : p'.thread = p.thread) (hreceiver : p'.receiver = p.receiver)
    (hj : ∀ j, p'.underway j ≤ p.underway j) : Inv k p' := by
  have hk := hj k
  apply hi.of_le hthread _ _ hj
  · rw [hreceiver]
    exact hi.received
  · rw [hreceiver]
    omega

/-- A datagram of the running step is read: it was underway, now it is received. -/
theorem Inv.of_read (hi : Inv k p) (hthread : p'.thread = p.thread) {m : Message}
    (hsocket : p.socket = m :: p'.socket) (hm : m.loadStep = k)
    (hrest : p'.requests = p.requests ∧ p'.replies = p.replies)
    (hone : p'.receiver.counterReceived = p.receiver.counterReceived + 1) : Inv k p' := by
  have hsplit : ∀ j, p.underway j = p'.underway j + if k = j then 1 else 0 := by
    intro j
    simp only [underway, hsocket, hrest.1, hrest.2, ← List.singleton_append (l := p'.socket), ofStep_append,
      ofStep_singleton, hm]
    omega
  have hreceived := hi.received
  apply hi.of_le hthread
  · rw [hone]
    omega
  · rw [hone, hsplit k, if_pos rfl]
    push_cast
    omega
  · intro j
    rw [hsplit j]
    exact Nat.le_add_right _ _

/-- **One step around a thread**, when receivers read replies of the running step. -/
theorem step_inv {e : PeerEv c.packetsize} (h : p.step value k e = some p') (hfresh : p.FreshRead k e)
    (hi : Inv k p) : Inv k p' := by
  cases e with
  | thread e => exact stepThread_inv h hi
  | receiverRun time =>
    obtain ⟨r, hr, rfl⟩ := Option.map_eq_some_iff.mp h
    have hzero : r.counterReceived = 0 := Receiver.step_counterReceived hr
    have hreceived := hi.received
    refine hi.of_le rfl (by simp [hzero]) ?_ fun _ => le_refl _
    show r.counterReceived + ((p.underway k : Nat) : Int) ≤ _
    omega
  | recv microtime time stop =>
    simp only [step] at h
    cases hsock : p.socket with
    | nil => simp [hsock] at h
    | cons m rest =>
      simp only [hsock] at h
      obtain ⟨r, hr, rfl⟩ := Option.map_eq_some_iff.mp h
      -- the only place where the condition on the reads is used
      have hm : m.loadStep = k := hfresh m (by rw [hsock]; rfl)
      exact hi.of_read rfl hsock hm ⟨rfl, rfl⟩ (Receiver.step_counterReceived hr)
  | recvFails microtime time stop =>
    obtain ⟨r, hr, rfl⟩ := Option.map_eq_some_iff.mp h
    have hsame : r.counterReceived = p.receiver.counterReceived := Receiver.step_counterReceived hr
    refine hi.of_le rfl (by simp only [hsame]; exact hi.received) ?_ fun _ => le_refl _
    show r.counterReceived + ((p.underway k : Nat) : Int) ≤ _
    rw [hsame]
  | answer i bytes =>
    simp only [step] at h
    split at h
    · next m hm =>
      obtain rfl := Option.some.inj h
      refine hi.of_moved rfl rfl fun j => ?_
      -- the reply belongs to the step of the request it answers
      have herase := ofStep_eraseIdx (k := j) hm
      simp only [underway, ofStep_append, ofStep_singleton] at herase ⊢
      omega
    · cases h
  | loseRequest i =>
    obtain rfl := Option.some.inj h
    refine hi.of_moved rfl rfl fun j => ?_
    have herase := ofStep_eraseIdx_le j p.requests i
    simp only [underway]
    omega
  | loseReply i =>
    obtain rfl := Option.some.inj h
    refine hi.of_moved rfl rfl fun j => ?_
    have herase := ofStep_eraseIdx_le j p.replies i
    simp only [underway]
    omega
  | deliver i =>
    simp only [step] at h
    split at h
    · next m hm =>
      obtain rfl := Option.some.inj h
      refine hi.of_moved rfl rfl fun j => ?_
      have herase := ofStep_eraseIdx (k := j) hm
      simp only [underway, ofStep_append] at herase ⊢
      omega
    · cases h

/-- The next load step starts a thread. -/
theorem Inv.start (hi : Inv k p) (rate : Int) :
    Inv (k + 1) { p with thread := (p.thread.setQueryRate rate).threadStart } := by
  have hnone : p.underway (k + 1) = 0 := hi.later _ (Nat.lt_succ_self k)
  have hattributed := hi.attributed
  refine ⟨hi.received, ?_, fun _ => hnone, ?_, fun j hj => hi.later j (by omega)⟩
  · show p.receiver.counterReceived + ((p.underway (k + 1) : Nat) : Int) ≤ p.thread.counter.counterSend
    rw [hnone]
    push_cast
    omega
  · intro h
    cases h

end Peer

namespace System

/-- What a receiver reads is a reply to a datagram of the step that is running. -/
def FreshRead (s : System c) : SystemEv c.packetsize → Prop
  | .peer i e => ∀ p ∈ s.peers[i]?, p.FreshRead s.loadStep e
  | _ => True

instance (s : System c) : ∀ e, Decidable (s.FreshRead e)
  | .peer i e => inferInstanceAs (Decidable (∀ p ∈ s.peers[i]?, p.FreshRead s.loadStep e))
  | .run | .getResults => .isTrue trivial

/-- What every reachable state keeps: the invariant of each peer, and results in which nothing
    was received that was not sent. -/
structure Inv (s : System c) : Prop where
  peers : ∀ p ∈ s.peers, p.Inv s.loadStep
  results : ∀ r ∈ s.results, r.counterReceived ≤ r.counterSend ∧ 0 ≤ r.packagesLost

theorem new_inv (c : Config) (rates : List Int) (recbuffers : List (Buffer 4096)) :
    Inv (new c rates recbuffers) := by
  refine ⟨fun p hp => ?_, fun r hr => by cases hr⟩
  obtain ⟨b, -, rfl⟩ := List.mem_map.mp hp
  exact Peer.new_inv c b

theorem getResults_attributed {k : Nat} {peers : List (Peer c)} (h : ∀ p ∈ peers, p.Inv k) :
    (getResults peers).counterReceived ≤ (getResults peers).counterSend ∧
      0 ≤ (getResults peers).packagesLost := by
  obtain ⟨hs, hr⟩ := foldl_add_counters peers Results.zero
  have hle : (peers.map fun p => p.receiver.counterReceived).sum ≤
      (peers.map fun p => p.thread.counter.counterSend).sum := by
    apply List.sum_le_sum
    intro p hp
    have := (h p hp).attributed
    omega
  have hzero : (Results.zero).counterSend = 0 ∧ (Results.zero).counterReceived = 0 := ⟨rfl, rfl⟩
  simp only [getResults_eq]
  omega

/-- Every peer of a run that starts has its thread started with some rate. -/
theorem mem_withThreads {peers : List (Peer c)} {rate : Int} {threads : List (SenderThread c)}
    (h : startRun (peers.map Peer.thread) rate = some threads) {p' : Peer c}
    (hp : p' ∈ withThreads peers threads) :
    ∃ p ∈ peers, ∃ q, p' = { p with thread := (p.thread.setQueryRate q).threadStart } := by
  rw [startRun, assignRates_eq, Option.map_some] at h
  generalize deal rate (peers.map Peer.thread).length = rates at h
  obtain rfl := Option.some.inj h
  obtain ⟨i, hi⟩ := List.mem_iff_getElem?.mp hp
  simp only [withThreads, List.getElem?_zipWith, List.getElem?_map] at hi
  cases hp : peers[i]? with
  | none => simp [hp] at hi
  | some p =>
    cases hq : rates[i]? with
    | none => simp [hp, hq] at hi
    | some q =>
      refine ⟨p, List.mem_of_getElem? hp, q, ?_⟩
      simpa [hp, hq] using hi.symm

/-- **One step of the program**, when receivers read replies of the running step. -/
theorem step_inv {value : UInt64 → ℚ} {s s' : System c} {e : SystemEv c.packetsize}
    (h : step value s e = some s') (hfresh : s.FreshRead e) (hi : Inv s) : Inv s' := by
  obtain ⟨hpeers, hresults⟩ := hi
  cases e with
  | run =>
    simp only [step] at h
    split at h
    · cases h
    · split at h
      · obtain ⟨threads, hstart, rfl⟩ := Option.map_eq_some_iff.mp h
        refine ⟨fun p' hp' => ?_, hresults⟩
        obtain ⟨p, hp, q, rfl⟩ := mem_withThreads hstart hp'
        exact (hpeers p hp).start q
      · cases h
  | getResults =>
    simp only [step] at h
    split at h
    · obtain rfl := Option.some.inj h
      refine ⟨hpeers, fun r hr => ?_⟩
      rcases List.mem_append.mp hr with hr | hr
      · exact hresults r hr
      · obtain rfl := List.mem_singleton.mp hr
        exact getResults_attributed hpeers
    · cases h
  | peer i e =>
    simp only [step] at h
    split at h
    · next p hp =>
      obtain ⟨p', hp', rfl⟩ := Option.map_eq_some_iff.mp h
      refine ⟨fun q hq => ?_, hresults⟩
      rcases List.mem_or_eq_of_mem_set hq with hq | rfl
      · exact hpeers q hq
      · exact Peer.step_inv hp' (hfresh p hp) (hpeers p (List.mem_of_getElem? hp))
    · cases h

end System

/-- **Replies are attributed to the step that caused them**, in every run of the program over any
    list of rates, with any number of threads and any order of sends, answers, losses, deliveries
    and reads, in which no receiver reads a reply to a datagram of an earlier step. -/
theorem replies_attributed {value : UInt64 → ℚ} {rates : List Int} {recbuffers : List (Buffer 4096)}
    {es : List (SystemEv c.packetsize)} {s : System c}
    (h : Runs (System.step value) (System.new c rates recbuffers) es s)
    (hfresh : Along (System.step value) System.FreshRead (System.new c rates recbuffers) es) :
    ∀ r ∈ s.results, r.counterReceived ≤ r.counterSend ∧ 0 ≤ r.packagesLost :=
  (h.invariant_along (I := System.Inv) (System.new_inv c rates recbuffers)
    (fun _ _ _ hi hf hs => System.step_inv hs hf hi) hfresh).results

/-- One second in one slice, packets of 16 bytes. -/
def oneSlice : Config :=
  { packetsize := admitPacketsize 16, runtime := 1, timeout := 1, zeitscheibe := 1
    ignoreResponses := false, alwaysRandomize := false, packetsize_ok := admitPacketsize_ge 16 }

/-- A thread at rate 1 starts its receiver and sends its packet. -/
def sendOne : List (PeerEv oneSlice.packetsize) :=
  [.thread (.run (Buffer.filled _ 7)), .thread .startReceiver, .receiverRun 0,
    .thread (.env (.getMicrotime 0)), .thread (.env (.getNsec 0)), .thread (.env (.getMicrotime 0)),
    .thread (.sendPacket { rnd := Buffer.filled _ 0, time := 0, n := oneSlice.packetsize, errno := 0 })]

/-- It waits for the end of its slice and of the timeout, and stops its receiver. -/
def finishRun : List (PeerEv oneSlice.packetsize) :=
  [.thread (.env (.getNsec 1)), .thread (.env (.threadShouldStop false)), .thread (.env (.getMicrotime 1)),
    .thread (.env (.getMicrotime 1)), .thread (.env (.getMicrotime 1)), .thread (.env (.getMicrotime 2)),
    .recvFails 0 1 true, .thread .stopReceiver]

/-- A load step of this thread, with what happens while its receiver runs, and after it. -/
def oneStep (during after : List (PeerEv oneSlice.packetsize)) : List (SystemEv oneSlice.packetsize) :=
  .run :: (sendOne ++ during ++ finishRun).map (.peer 0) ++ .getResults :: after.map (.peer 0)

/-- A step whose reply comes in time. -/
def repliedStep : List (SystemEv oneSlice.packetsize) :=
  oneStep [.answer 0 [], .deliver 0, .recv 0 0 false] []

/-- Two steps; the reply of the first one comes when its receiver has stopped. -/
def lateReply : List (SystemEv oneSlice.packetsize) :=
  oneStep [] [.answer 0 [], .deliver 0] ++
    oneStep [.answer 0 [], .deliver 0, .recv 0 0 false, .recv 0 0 false] []

theorem replies_attributed_replied_step : ∃ s,
    Runs (System.step fun w => w.toNat) (System.new oneSlice [1] [Buffer.filled _ 0]) repliedStep s ∧
      ∀ r ∈ s.results, r.counterReceived ≤ r.counterSend ∧ 0 ≤ r.packagesLost :=
  have ⟨s, hrun⟩ := Option.isSome_iff_exists.mp (show ((repliedStep).foldlM
    (System.step fun w => w.toNat) (System.new oneSlice [1] [Buffer.filled _ 0])).isSome by decide +kernel)
  ⟨s, hrun, replies_attributed hrun (by decide +kernel)⟩

/-- The second step sends one packet and counts two replies. -/
theorem late_reply_counted : ¬ ∀ es s,
    Runs (System.step fun w => w.toNat) (System.new oneSlice [1, 1] [Buffer.filled _ 0]) es s →
      ∀ r ∈ s.results, r.counterReceived ≤ r.counterSend ∧ 0 ≤ r.packagesLost := by
  intro h
  obtain ⟨s, hrun, hres⟩ := Option.map_eq_some_iff.mp (show ((lateReply).foldlM
    (System.step fun w => w.toNat) (System.new oneSlice [1, 1] [Buffer.filled _ 0])).map
    (fun s => s.results.map fun r => (r.counterSend, r.counterReceived)) = some [(1, 0), (1, 2)] by decide +kernel)
  obtain ⟨r, hr, hpair⟩ := List.mem_map.mp (show ((1 : Int), (2 : Int)) ∈
    s.results.map fun r => (r.counterSend, r.counterReceived) by rw [hres]; decide)
  obtain ⟨h1, h2⟩ := Prod.mk.inj hpair
  have hle := (h lateReply s hrun r hr).1
  omega

end UdpPingPong
