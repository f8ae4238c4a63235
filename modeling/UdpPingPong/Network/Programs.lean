import UdpPingPong.Bouncer.Worker
import UdpPingPong.Sender.System

/- The two programs together: the sender with all its threads, a bouncer with all its
   workers, and the network between them.

   In `System` the bouncer answers a datagram with any bytes. Here each answer is what a
   worker of the bouncer makes of the datagram: some worker reads it into its buffer,
   replies to the client it came from or stays silent, and counts it. The workers bind
   their sockets to one address, and which of them gets a datagram is up to the system.
   Once a second a bouncer that is not quiet reads the counters and clears them; what
   stays of a counter depends on what the worker does meanwhile (`Counting`).

   1. `Net.step_cases`: everything one step can do, and what it is for the sender;
   2. `Net.refines_sender`: what the sender sees of a run of the two programs is a run of
      `System` through the same states, so what holds of the sender with any bouncer
      holds here. -/
namespace UdpPingPong

open Exec Wire

variable {c : Config}

/-! ## The two programs -/

/-- The sender, and the worker objects of the bouncer. -/
structure Net (c : Config) where
  sender : System c
  workers : List Worker

/-- Something happens in the sender or in the network; the bouncer starts a worker, worker `j`
    reads datagram number `n` of thread `i`, or fails to read one; its counters are read, and `left`
    is what stays in them. -/
inductive NetEv (size : Nat) where
  | sender (e : SystemEv size)
  | start (buffer : Buffer 4096) (noEcho : Bool) (packetSize : Nat) (time : Int)
  | bounce (j i n : Nat) (time : Int) (stop : Bool)
  | bounceFails (j : Nat) (time : Int) (stop : Bool)
  | readCounter (j : Nat) (left : EchoCounter)

/-- The bouncer takes part as a worker only. -/
def SystemEv.isAnswer {size : Nat} : SystemEv size → Bool
  | .peer _ (.answer _ _) => true
  | _ => false

/-- `getAndClearCounter` takes from each field of a counter, and `left` stays. -/
def EchoCounter.Leaves (counter left : EchoCounter) : Prop :=
  left.packetsReceived ≤ counter.packetsReceived ∧ left.packetsSend ≤ counter.packetsSend ∧
    left.bytesReceived ≤ counter.bytesReceived ∧ left.bytesSend ≤ counter.bytesSend

instance (counter left : EchoCounter) : Decidable (counter.Leaves left) := inferInstanceAs (Decidable (_ ∧ _ ∧ _ ∧ _))

namespace System

/-- Datagram number `n` of thread `i` arrives at the bouncer. -/
def takeRequest (s : System c) (i n : Nat) : System c :=
  { s with peers := s.peers.modify i fun p => { p with requests := p.requests.eraseIdx n } }

/-- A reply sets out for its client; `k` is the load step of the datagram it answers. -/
def postReply (s : System c) (k : Nat) (r : Datagram) : System c :=
  { s with peers := s.peers.modify r.client fun p =>
      { p with replies := p.replies ++ [{ bytes := r.bytes, loadStep := k }] } }

end System

namespace Net

/-- The sender before its first load step, with a bouncer that has no workers yet. -/
def new (c : Config) (rates : List Int) (recbuffers : List (Buffer 4096)) : Net c :=
  { sender := System.new c rates recbuffers, workers := [] }

/-- `startBouncerThreads` for one worker. -/
def startWorker (buffer : Buffer 4096) (noEcho : Bool) (packetSize : Nat) (time : Int) : Worker :=
  (((Worker.new buffer).setNoEcho noEcho).setPacketSize packetSize).enter time

def step (value : UInt64 → ℚ) (s : Net c) (e : NetEv c.packetsize) : Option (Net c) :=
  match e with
  | .sender e => if e.isAnswer then none
    else (System.step value s.sender e).map fun sender => { s with sender }
  | .start buffer noEcho packetSize time =>
    some { s with workers := s.workers ++ [startWorker buffer noEcho packetSize time] }
  | .bounce j i n time stop =>
    match s.workers[j]?, s.sender.peers[i]?.bind fun p => p.requests[n]? with
    | some w, some m =>
      let d : Datagram := { bytes := m.bytes, client := i }
      (Worker.step w { recv := some d, time, stop }).map fun w' =>
        let sender := s.sender.takeRequest i n
        { sender := match w.reply d with
            | some r => sender.postReply m.loadStep r
            | none => sender
          workers := s.workers.set j w' }
    | _, _ => none
  | .bounceFails j time stop =>
    match s.workers[j]? with
    | some w => (Worker.step w { recv := none, time, stop }).map fun w' => { s with workers := s.workers.set j w' }
    | none => none
  | .readCounter j left =>
    match s.workers[j]? with
    | some w => if w.counter.Leaves left then some { s with workers := s.workers.set j { w with counter := left } }
      else none
    | none => none

end Net

/-! ## The sender's side of a step -/

namespace System

variable {s : System c} {i n : Nat} {p : Peer c}

/-- A datagram that is taken and not answered is lost for the sender. -/
theorem takeRequest_eq (value : UInt64 → ℚ) (hp : s.peers[i]? = some p) :
    System.step value s (.peer i (.loseRequest n)) = some (s.takeRequest i n) := by
  obtain ⟨hi, rfl⟩ := List.getElem?_eq_some_iff.mp hp
  have hmodify : ∀ f, s.peers.modify i f = s.peers.set i (f s.peers[i]) := fun f => List.modify_eq_set_get f hi
  simp [System.step, Peer.step, takeRequest, hi, hmodify]

/-- The reply of a worker goes to the thread its datagram came from. -/
theorem postReply_eq (value : UInt64 → ℚ) (hp : s.peers[i]? = some p) {m : Message} (hm : p.requests[n]? = some m)
    {r : Datagram} (hr : r.client = i) :
    System.step value s (.peer i (.answer n r.bytes)) = some ((s.takeRequest i n).postReply m.loadStep r) := by
  obtain ⟨hi, rfl⟩ := List.getElem?_eq_some_iff.mp hp
  subst hr
  have hmodify : ∀ f, s.peers.modify r.client f = s.peers.set r.client (f s.peers[r.client]) :=
    fun f => List.modify_eq_set_get f hi
  simp only [System.step, Peer.step, takeRequest, postReply, List.modify_modify_eq]
  simp [hi, hm, hmodify]

end System

namespace Net

/-- What a worker that takes datagram number `n` of thread `i` means for the sender. -/
def bounceEv {size : Nat} (w : Worker) (i n : Nat) (m : Message) : SystemEv size :=
  .peer i (match w.reply { bytes := m.bytes, client := i } with
    | some r => .answer n r.bytes
    | none => .loseRequest n)

variable {value : UInt64 → ℚ} {s s' : Net c} {e : NetEv c.packetsize}

/-- Everything one step can do. -/
inductive StepCase (value : UInt64 → ℚ) (s : Net c) : NetEv c.packetsize → Net c → Prop
  | sender (e sender) (he : e.isAnswer = false) (hs : System.step value s.sender e = some sender) :
      StepCase value s (.sender e) { s with sender }
  | start (buffer noEcho packetSize time) : StepCase value s (.start buffer noEcho packetSize time)
      { s with workers := s.workers ++ [startWorker buffer noEcho packetSize time] }
  | bounce (j i n time stop w w' p m sender) (hw : s.workers[j]? = some w) (hp : s.sender.peers[i]? = some p)
      (hm : p.requests[n]? = some m)
      (hr : Worker.step w { recv := some { bytes := m.bytes, client := i }, time, stop } = some w')
      (hs : System.step value s.sender (bounceEv w i n m) = some sender) :
      StepCase value s (.bounce j i n time stop) { sender, workers := s.workers.set j w' }
  | bounceFails (j time stop w w') (hw : s.workers[j]? = some w)
      (hr : Worker.step w { recv := none, time, stop } = some w') :
      StepCase value s (.bounceFails j time stop) { s with workers := s.workers.set j w' }
  | readCounter (j left w) (hw : s.workers[j]? = some w) (hleft : w.counter.Leaves left) :
      StepCase value s (.readCounter j left) { s with workers := s.workers.set j { w with counter := left } }

/-- A worker replies to the client of the datagram. -/
theorem reply_client {w : Worker} {d r : Datagram} (h : w.reply d = some r) : r.client = d.client := by
  rw [Worker.reply_eq] at h
  split at h
  · cases h
  · obtain rfl := Option.some.inj h
    rfl

theorem step_cases (h : step value s e = some s') : StepCase value s e s' := by
  cases e with
  | sender e =>
    simp only [step] at h
    split at h
    · cases h
    · next he =>
      obtain ⟨sender, hs, rfl⟩ := Option.map_eq_some_iff.mp h
      exact .sender e sender (Bool.eq_false_iff.mpr he) hs
  | start buffer noEcho packetSize time =>
    obtain rfl := Option.some.inj h
    exact .start buffer noEcho packetSize time
  | bounce j i n time stop =>
    simp only [step] at h
    split at h
    · next w m hw hm =>
      obtain ⟨p, hp, hm⟩ := Option.bind_eq_some_iff.mp hm
      obtain ⟨w', hr, rfl⟩ := Option.map_eq_some_iff.mp h
      refine .bounce j i n time stop w w' p m _ hw hp hm hr ?_
      rw [bounceEv]
      cases hreply : w.reply { bytes := m.bytes, client := i } with
      | none => exact System.takeRequest_eq value hp
      | some r => exact System.postReply_eq value hp hm (reply_client hreply)
    · cases h
  | bounceFails j time stop =>
    simp only [step] at h
    split at h
    · next w hw =>
      obtain ⟨w', hr, rfl⟩ := Option.map_eq_some_iff.mp h
      exact .bounceFails j time stop w w' hw hr
    · cases h
  | readCounter j left =>
    simp only [step] at h
    split at h
    · next w hw =>
      split at h
      · next hleft =>
        obtain rfl := Option.some.inj h
        exact .readCounter j left w hw hleft
      · cases h
    · cases h

/-- What the sender sees of a step: its own steps, and what the workers do to its datagrams. -/
def seen (s : Net c) : NetEv c.packetsize → List (SystemEv c.packetsize)
  | .sender e => [e]
  | .bounce j i n _ _ => match s.workers[j]?, s.sender.peers[i]?.bind fun p => p.requests[n]? with
    | some w, some m => [bounceEv w i n m]
    | _, _ => []
  | .start _ _ _ _ | .bounceFails _ _ _ | .readCounter _ _ => []

theorem step_seen (h : step value s e = some s') : Runs (System.step value) s.sender (s.seen e) s'.sender := by
  cases step_cases h with
  | sender e sender he hsender => exact Runs.single hsender
  | bounce j i n time stop w w' p m sender hw hp hm hr hsender =>
    have hmessage : (s.sender.peers[i]?.bind fun p => p.requests[n]?) = some m := by
      rw [hp]
      exact hm
    simp only [seen, hw, hmessage]
    exact Runs.single hsender
  | start buffer noEcho packetSize time => exact runs_nil.mpr rfl
  | bounceFails j time stop w w' hw hr => exact runs_nil.mpr rfl
  | readCounter j left w hw hleft => exact runs_nil.mpr rfl

/-- **The two programs refine the sender with any bouncer**: what the sender sees of a run, event by
    event, is a run of `System` that ends in the same state of the sender. -/
theorem refines_sender {rates : List Int} {recbuffers : List (Buffer 4096)} {es : List (NetEv c.packetsize)}
    (h : Runs (step value) (new c rates recbuffers) es s) :
    Runs (System.step value) (System.new c rates recbuffers) (emitted (step value) seen (new c rates recbuffers) es)
      s.sender :=
  h.refines fun _ _ _ hs => step_seen hs

end Net

/-- The reply arrives a second later, and the run ends. -/
def receiveOne : List (PeerEv oneSlice.packetsize) := .deliver 0 :: .recv 1 0 false :: finishRun

/-- A load step of one thread, whose packet a worker of the bouncer answers. -/
def echoedStep : List (NetEv oneSlice.packetsize) :=
  .start (Buffer.filled _ 0) false 0 0 :: .sender .run :: sendOne.map (fun e => .sender (.peer 0 e)) ++
    .bounce 0 0 0 0 false :: receiveOne.map (fun e => .sender (.peer 0 e)) ++ [.sender .getResults]

theorem echoedStep_runs : ∃ s,
    Runs (Net.step fun w => w.toNat) (Net.new oneSlice [1] [Buffer.filled _ 0]) echoedStep s :=
  Option.isSome_iff_exists.mp (show (echoedStep.foldlM (Net.step fun w => w.toNat)
    (Net.new oneSlice [1] [Buffer.filled _ 0])).isSome by decide +kernel)

theorem Net.refines_sender_echoed_step : ∃ s : Net oneSlice,
    Runs (System.step fun w => w.toNat) (System.new oneSlice [1] [Buffer.filled _ 0])
      (emitted (Net.step fun w => w.toNat) Net.seen (Net.new oneSlice [1] [Buffer.filled _ 0]) echoedStep) s.sender :=
  have ⟨s, hrun⟩ := echoedStep_runs
  ⟨s, Net.refines_sender hrun⟩

end UdpPingPong
