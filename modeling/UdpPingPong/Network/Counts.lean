import UdpPingPong.Bouncer.Accounting
import UdpPingPong.Network.Programs
import UdpPingPong.Sender.Session

/- What the counters of the two programs say about each other.

   The sender counts what its sockets accept and what its receivers read, the bouncer
   what its workers read and answer. In between are the datagrams on their way, those the
   network has lost, and the replies that wait in the sockets of the sender. The counters
   of a worker are taken from it by the statistics reads.

   1. `Peer.step_counts`, `System.step_counts`, `Net.step_counts`: where a datagram goes
      in one step;
   2. `Peer.step_sent`, `System.step_sent`: what the sockets accept is in the results of
      the load steps, or in the counters of the one that is running;
   3. `programs_agree`: after every run each datagram is where the counters say. -/
namespace UdpPingPong

open Exec Wire

variable {c : Config}

/-! ## One thread -/

namespace PeerEv

/-- The packets a socket accepts. -/
def sends {size : Nat} : PeerEv size → Nat
  | .thread (.sendPacket x) => if x.Accepted then 1 else 0
  | _ => 0

/-- The packets that are read. -/
def reads {size : Nat} : PeerEv size → Nat
  | .recv _ _ _ => 1
  | _ => 0

/-- The packets that are answered. -/
def answers {size : Nat} : PeerEv size → Nat
  | .answer _ _ => 1
  | _ => 0

end PeerEv

namespace Peer

/-- The replies on their way and in the socket. -/
def returning (p : Peer c) : Nat := p.replies.length + p.socket.length

/-- The packets lost on their way to the bouncer. -/
def lostRequests (p : Peer c) : PeerEv c.packetsize → Nat
  | .loseRequest i => if i < p.requests.length then 1 else 0
  | _ => 0

/-- The replies lost on their way back. -/
def lostReplies (p : Peer c) : PeerEv c.packetsize → Nat
  | .loseReply i => if i < p.replies.length then 1 else 0
  | _ => 0

variable {value : UInt64 → ℚ} {k : Nat} {p p' : Peer c}

theorem stepThread_counts {e : ThreadEv c.packetsize} (h : p.stepThread k e = some p') :
    p'.requests.length = p.requests.length + PeerEv.sends (.thread e) ∧ p'.returning = p.returning := by
  cases stepThread_cases h with
  | sendPacket x t ht =>
    refine ⟨?_, rfl⟩
    simp only [PeerEv.sends]
    split
    · rw [List.length_append, List.length_singleton]
    · rfl
  | run fill t ht | startReceiver t ht | stopReceiver t ht | env e t ht => exact ⟨rfl, rfl⟩

theorem length_eraseIdx_add {α : Type} (l : List α) (i : Nat) :
    (l.eraseIdx i).length + (if i < l.length then 1 else 0) = l.length := by
  rw [List.length_eraseIdx]
  split <;> omega

/-- **One step around a thread**: a packet leaves the way to the bouncer when it is lost or answered,
    a reply leaves the way back when it is lost or read. -/
theorem step_counts {e : PeerEv c.packetsize} (h : p.step value k e = some p') :
    p'.requests.length + (p.lostRequests e + e.answers) = p.requests.length + e.sends ∧
      p'.returning + (p.lostReplies e + e.reads) = p.returning + e.answers := by
  cases step_cases h with
  | thread e p' h => exact stepThread_counts h
  | receiverRun time r hr | recvFails microtime time stop r hr => exact ⟨rfl, rfl⟩
  | recv microtime time stop m rest r hsock hr =>
    refine ⟨rfl, ?_⟩
    simp only [returning, lostReplies, PeerEv.reads, PeerEv.answers, hsock, List.length_cons]
    omega
  | answer i bytes m hm =>
    have hi := (List.getElem?_eq_some_iff.mp hm).1
    have herase := length_eraseIdx_add p.requests i
    rw [if_pos hi] at herase
    simp only [returning, lostRequests, lostReplies, PeerEv.sends, PeerEv.reads, PeerEv.answers,
      List.length_append, List.length_singleton]
    omega
  | loseRequest i => exact ⟨length_eraseIdx_add p.requests i, rfl⟩
  | loseReply i =>
    have herase := length_eraseIdx_add p.replies i
    refine ⟨rfl, ?_⟩
    simp only [returning, lostReplies, PeerEv.reads, PeerEv.answers]
    omega
  | deliver i m hm =>
    have hi := (List.getElem?_eq_some_iff.mp hm).1
    have herase := length_eraseIdx_add p.replies i
    rw [if_pos hi] at herase
    refine ⟨rfl, ?_⟩
    simp only [returning, lostReplies, PeerEv.reads, PeerEv.answers, List.length_append, List.length_singleton]
    omega

/-- **One step around a thread** counts the packets that its socket accepts. -/
theorem step_sent {running : Bool} {e : PeerEv c.packetsize} (h : p.step value k e = some p') (hs : p.Settled running) :
    p'.liveSent running = p.liveSent running + e.sends := by
  by_cases hthread : ∃ e', e = .thread e'
  · obtain ⟨e, rfl⟩ := hthread
    have hpc := SenderThread.step_pc_ne_idle (stepThread_thread h)
    have hrun : running = true := by
      cases running
      · exact absurd (hs.idle rfl) hpc
      · rfl
    subst hrun
    cases stepThread_cases h with
    | run fill t ht =>
      obtain ⟨hpc, ⟨hpc', -⟩ | ⟨hpc', hc⟩⟩ := SenderThread.step_counter ht
      · simp [liveSent, PeerEv.sends, hpc, hpc']
      · simp [liveSent, PeerEv.sends, hpc, hpc', hc, SendCounter.zero]
    | startReceiver t ht =>
      obtain ⟨hpc, hpc', hc⟩ := SenderThread.step_counter ht
      simp [liveSent, PeerEv.sends, hpc, hpc', hc, SendCounter.zero]
    | sendPacket x t ht =>
      obtain ⟨hpc₁, hpc₂, -, hc⟩ := SenderThread.step_counter ht
      have hsize : 0 < c.packetsize := Nat.lt_of_lt_of_le (by decide) c.packetsize_ok
      have hsent : t.counter.counterSend = p.thread.counter.counterSend + if x.Accepted then 1 else 0 := by
        rw [hc, SendCounter.count_counterSend _ hsize]
        rfl
      simp [liveSent, PeerEv.sends, hpc₁, hpc₂, SenderThread.step_pc_started ht, hsent]
    | env e t ht | stopReceiver t ht =>
      obtain ⟨hpc₁, hpc₂, hc⟩ := SenderThread.step_counter ht
      simp [liveSent, PeerEv.sends, hpc₁, hpc₂, SenderThread.step_pc_started ht, hc]
  · obtain ⟨hsame, -⟩ := step_around h (not_exists.mp hthread)
    have hnone : e.sends = 0 := by
      cases e with
      | thread e => exact absurd ⟨e, rfl⟩ hthread
      | receiverRun time | recv microtime time stop | recvFails microtime time stop | answer i bytes
      | loseRequest i | loseReply i | deliver i => rfl
    rw [hnone, liveSent, liveSent, hsame]
    exact (Int.add_zero _).symm

end Peer

/-! ## All threads -/

namespace SystemEv

def sends {size : Nat} : SystemEv size → Nat
  | .peer _ e => e.sends
  | _ => 0

def reads {size : Nat} : SystemEv size → Nat
  | .peer _ e => e.reads
  | _ => 0

def answers {size : Nat} : SystemEv size → Nat
  | .peer _ e => e.answers
  | _ => 0

end SystemEv

namespace System

/-- The packets of all threads that are on their way to the bouncer. -/
def requests (s : System c) : Int := (s.peers.map fun p => (p.requests.length : Int)).sum

def returning (s : System c) : Int := (s.peers.map fun p => (p.returning : Int)).sum

def lostRequests (s : System c) : SystemEv c.packetsize → Nat
  | .peer i e => (s.peers[i]?.map fun p => p.lostRequests e).getD 0
  | _ => 0

def lostReplies (s : System c) : SystemEv c.packetsize → Nat
  | .peer i e => (s.peers[i]?.map fun p => p.lostReplies e).getD 0
  | _ => 0

/-- **One step of the sender.** -/
theorem step_counts {value : UInt64 → ℚ} {s s' : System c} {e : SystemEv c.packetsize}
    (h : step value s e = some s') :
    s'.requests + (s.lostRequests e + e.answers) = s.requests + e.sends ∧
      s'.returning + (s.lostReplies e + e.reads) = s.returning + e.answers := by
  cases step_cases h with
  | run rate rates threads hrates hidle hstart =>
    have hsame : ∀ f : Peer c → Int, (∀ p t, f { p with thread := t } = f p) →
        (withThreads s.peers threads).map f = s.peers.map f :=
      fun f hf => map_withThreads (fun p _ => hf p _) hstart
    have hrequests := hsame (fun p => p.requests.length) fun _ _ => rfl
    have hreturning := hsame (fun p => p.returning) fun _ _ => rfl
    simp only [requests, returning, hrequests, hreturning]
    exact ⟨rfl, rfl⟩
  | getResults hover => exact ⟨rfl, rfl⟩
  | peer i e p p' hp hp' =>
    obtain ⟨hrequests, hreturning⟩ := Peer.step_counts hp'
    simp only [requests, returning, sum_map_set _ hp, lostRequests, lostReplies, hp, Option.map_some,
      Option.getD_some, SystemEv.sends, SystemEv.reads, SystemEv.answers]
    omega

/-- What the threads have sent in the load step that is running. -/
def liveSent (s : System c) : Int := (s.peers.map (Peer.liveSent s.running)).sum

/-- **One step of the sender** counts the packets that its sockets accept. -/
theorem step_sent {value : UInt64 → ℚ} {s s' : System c} {e : SystemEv c.packetsize}
    (h : step value s e = some s') (hi : SessionInv s) :
    s'.totalSend + s'.liveSent = s.totalSend + s.liveSent + e.sends := by
  cases step_cases h with
  | run rate rates threads hrates hidle hstart =>
    have hnone : (withThreads s.peers threads).map (Peer.liveSent true) = s.peers.map (Peer.liveSent false) := by
      apply map_withThreads _ hstart
      intro p q
      simp [Peer.liveSent, SenderThread.threadStart]
    simp only [totalSend, liveSent, hnone, hidle.1]
    exact (Int.add_zero _).symm
  | getResults hover =>
    have hlive : s.peers.map (Peer.liveSent true) = s.peers.map fun p => p.thread.counter.counterSend :=
      List.map_congr_left fun p hp => by simp [Peer.liveSent, hover.2 p hp]
    have hover' : (s.peers.map (Peer.liveSent false)).sum = 0 := by
      apply List.sum_eq_zero
      intro x hx
      obtain ⟨p, -, rfl⟩ := List.mem_map.mp hx
      rfl
    have hcounter := (foldl_add_counters s.peers Results.zero).1
    have hzero : Results.zero.counterSend = 0 := rfl
    simp only [totalSend, liveSent, hover.1, hlive, hover', List.map_append, List.sum_append, List.map_cons,
      List.map_nil, List.sum_cons, List.sum_nil, getResults_eq, hcounter, hzero, SystemEv.sends]
    omega
  | peer i e p p' hp hp' =>
    have hsent := Peer.step_sent hp' (hi.settled p (List.mem_of_getElem? hp))
    simp only [totalSend, liveSent, sum_map_set _ hp, SystemEv.sends]
    omega

end System

/-! ## Both programs -/

namespace NetEv

def sends {size : Nat} : NetEv size → Nat
  | .sender e => e.sends
  | _ => 0

def reads {size : Nat} : NetEv size → Nat
  | .sender e => e.reads
  | _ => 0

end NetEv

namespace Net

/-- What is in the counters of the workers of the bouncer. -/
def received (s : Net c) : Int := (s.workers.map fun w => w.counter.packetsReceived).sum

def replied (s : Net c) : Int := (s.workers.map fun w => w.counter.packetsSend).sum

/-- What a statistics read takes from a field of a worker's counter. -/
def taken (f : EchoCounter → Int) (s : Net c) : NetEv c.packetsize → Nat
  | .readCounter j left => (s.workers[j]?.map fun w => (f w.counter - f left).toNat).getD 0
  | _ => 0

/-- What the network loses; a packet that a silent worker takes is not lost. -/
def lostRequests (s : Net c) : NetEv c.packetsize → Nat
  | .sender e => s.sender.lostRequests e
  | _ => 0

def lostReplies (s : Net c) : NetEv c.packetsize → Nat
  | .sender e => s.sender.lostReplies e
  | _ => 0

variable {value : UInt64 → ℚ} {s s' : Net c}

/-- What a worker does with a datagram. -/
theorem bounce_counts {w w' : Worker} {i n : Nat} {p : Peer c} (hp : s.sender.peers[i]? = some p) {m : Message}
    (hm : p.requests[n]? = some m) {time : Int} {stop : Bool}
    (hr : Worker.step w { recv := some { bytes := m.bytes, client := i }, time, stop } = some w') :
    w'.counter.packetsReceived = w.counter.packetsReceived + 1 ∧
      w'.counter.packetsSend = w.counter.packetsSend + (bounceEv w i n m : SystemEv c.packetsize).answers ∧
      s.sender.lostRequests (bounceEv w i n m) + (bounceEv w i n m : SystemEv c.packetsize).answers = 1 ∧
      s.sender.lostReplies (bounceEv w i n m) = 0 := by
  have hn := (List.getElem?_eq_some_iff.mp hm).1
  have hcounter := Worker.step_counter hr
  rw [hcounter, bounceEv, Worker.reply_eq]
  cases w.noEcho <;>
    simp [Round.received, System.lostRequests, System.lostReplies, Peer.lostRequests, Peer.lostReplies,
      SystemEv.answers, PeerEv.answers, hp, hn]

/-- **One step of the two programs.** -/
theorem step_counts {e : NetEv c.packetsize} (h : step value s e = some s') :
    s'.received + s.taken EchoCounter.packetsReceived e + s'.sender.requests + s.lostRequests e =
        s.received + s.sender.requests + e.sends ∧
      s'.replied + s.taken EchoCounter.packetsSend e + s.sender.returning =
        s.replied + s'.sender.returning + s.lostReplies e + e.reads := by
  cases step_cases h with
  | sender e sender he hs =>
    obtain ⟨hrequests, hreturning⟩ := System.step_counts hs
    have hanswers : e.answers = 0 := by
      cases e with
      | run | getResults => rfl
      | peer i e =>
        cases e with
        | answer n bytes => cases he
        | thread e | receiverRun time | recv microtime time stop | recvFails microtime time stop | loseRequest n
        | loseReply n | deliver n => rfl
    rw [hanswers] at hrequests hreturning
    simp only [received, replied, taken, lostRequests, lostReplies, NetEv.sends, NetEv.reads]
    omega
  | start buffer noEcho packetSize time =>
    have hzero : (startWorker buffer noEcho packetSize time).counter = EchoCounter.zero := by
      simp only [startWorker, Worker.enter, Worker.setPacketSize, Worker.setNoEcho, Worker.new]
      split <;> rfl
    simp [received, replied, taken, lostRequests, lostReplies, NetEv.sends, NetEv.reads, hzero, EchoCounter.zero]
  | bounce j i n time stop w w' p m sender hworker hp hm hr hs =>
    obtain ⟨hrequests, hreturning⟩ := System.step_counts hs
    obtain ⟨hreceived, hreplied, hlost, hlost'⟩ := bounce_counts hp hm hr
    have hsilent : (bounceEv w i n m : SystemEv c.packetsize).sends = 0 ∧
        (bounceEv w i n m : SystemEv c.packetsize).reads = 0 := by
      rw [bounceEv]
      cases w.reply { bytes := m.bytes, client := i } <;> exact ⟨rfl, rfl⟩
    simp only [received, replied, taken, lostRequests, lostReplies, NetEv.sends, NetEv.reads, sum_map_set _ hworker,
      hreceived, hreplied]
    omega
  | bounceFails j time stop w w' hworker hr =>
    have hcounter := Worker.step_counter hr
    have hreceived : w'.counter.packetsReceived = w.counter.packetsReceived := by
      rw [hcounter]
      simp [Round.received]
    have hreplied : w'.counter.packetsSend = w.counter.packetsSend := by
      rw [hcounter]
      simp [Round.received]
    simp only [received, replied, taken, lostRequests, lostReplies, NetEv.sends, NetEv.reads, sum_map_set _ hworker,
      hreceived, hreplied]
    omega
  | readCounter j left w hworker hleft =>
    obtain ⟨hreceived, hreplied, -, -⟩ := hleft
    simp only [received, replied, taken, lostRequests, lostReplies, NetEv.sends, NetEv.reads, sum_map_set _ hworker,
      hworker, Option.map_some, Option.getD_some]
    omega

/-- The sender's side of a step keeps the bookkeeping of its session. -/
theorem step_session {e : NetEv c.packetsize} (h : step value s e = some s') (hi : s.sender.SessionInv) :
    s'.sender.SessionInv :=
  (step_seen h).invariant hi fun _ _ _ hi hs => System.step_session hs hi

theorem step_sent {e : NetEv c.packetsize} (h : step value s e = some s') (hi : s.sender.SessionInv) :
    s'.sender.totalSend + s'.sender.liveSent = s.sender.totalSend + s.sender.liveSent + e.sends := by
  cases step_cases h with
  | sender e sender he hs => exact System.step_sent hs hi
  | bounce j i n time stop w w' p m sender hworker hp hm hr hs =>
    have hsent := System.step_sent hs hi
    have hnone : (bounceEv w i n m : SystemEv c.packetsize).sends = 0 := by
      rw [bounceEv]
      cases w.reply { bytes := m.bytes, client := i } <;> rfl
    rw [hnone] at hsent
    exact hsent
  | start buffer noEcho packetSize time | bounceFails j time stop w w' hworker hr
  | readCounter j left w hworker hleft => exact (Int.add_zero _).symm

/-- **The counters of the two programs agree** after a run from `s₀`. What the sender has counted, in the
    results of its load steps and in the counters of the one that is running, is what its sockets have
    accepted; each such packet is in the counter of a worker of the bouncer or was taken from it by a
    statistics read, is on its way to it, or was lost; and each reply that a worker has counted has been
    read, is on its way back or waits in a socket, or was lost. -/
structure Agree (value : UInt64 → ℚ) (s₀ : Net c) (es : List (NetEv c.packetsize)) (s : Net c) : Prop where
  sent : ((es.map NetEv.sends).sum : Int) = s.sender.totalSend + s.sender.liveSent
  received : s.sender.totalSend + s.sender.liveSent =
    s.received + spent (step value) (taken EchoCounter.packetsReceived) s₀ es + s.sender.requests +
      spent (step value) lostRequests s₀ es
  replied : s.replied + spent (step value) (taken EchoCounter.packetsSend) s₀ es =
    (es.map NetEv.reads).sum + s.sender.returning + spent (step value) lostReplies s₀ es

theorem new_agree (value : UInt64 → ℚ) (c : Config) (rates : List Int) (recbuffers : List (Buffer 4096)) :
    Agree value (new c rates recbuffers) [] (new c rates recbuffers) := by
  have hnone : ∀ f : Peer c → Int, (∀ b, f (Peer.new c b) = 0) → ((new c rates recbuffers).sender.peers.map f).sum = 0 := by
    intro f hf
    apply List.sum_eq_zero
    intro x hx
    obtain ⟨p, hp, rfl⟩ := List.mem_map.mp hx
    obtain ⟨b, -, rfl⟩ := List.mem_map.mp hp
    exact hf b
  have hrequests : (new c rates recbuffers).sender.requests = 0 := hnone _ fun _ => rfl
  have hreturning : (new c rates recbuffers).sender.returning = 0 := hnone _ fun _ => rfl
  have hlive : (new c rates recbuffers).sender.liveSent = 0 := hnone _ fun _ => rfl
  constructor
  case sent => rw [hlive]; rfl
  case received => rw [hlive, hrequests]; rfl
  case replied => rw [hreturning]; rfl

end Net

/-- **The counters of the two programs agree** after every run of them. -/
theorem programs_agree {value : UInt64 → ℚ} {rates : List Int} {recbuffers : List (Buffer 4096)}
    {es : List (NetEv c.packetsize)} {s : Net c} (h : Runs (Net.step value) (Net.new c rates recbuffers) es s) :
    Net.Agree value (Net.new c rates recbuffers) es s := by
  have hkept : s.sender.SessionInv ∧ Net.Agree value (Net.new c rates recbuffers) es s := by
    apply Runs.trace_induct
      (P := fun es (s : Net c) => s.sender.SessionInv ∧ Net.Agree value (Net.new c rates recbuffers) es s) _ _ h
    · exact ⟨System.new_session c rates recbuffers, Net.new_agree value c rates recbuffers⟩
    · intro es s e s' hr ih hs
      obtain ⟨hi, hsent, hreceived, hreplied⟩ := ih
      obtain ⟨hstep, hstep'⟩ := Net.step_counts hs
      have hcounted := Net.step_sent hs hi
      refine ⟨Net.step_session hs hi, ?_, ?_, ?_⟩
      · rw [List.map_append, List.sum_append, List.map_singleton, List.sum_singleton, Nat.cast_add, hsent, hcounted]
      · rw [spent_snoc hr, spent_snoc hr, Nat.cast_add, Nat.cast_add]
        omega
      · rw [spent_snoc hr, spent_snoc hr, List.map_append, List.sum_append, List.map_singleton, List.sum_singleton,
          Nat.cast_add, Nat.cast_add, Nat.cast_add]
        omega
  exact hkept.2

/-- The load step with a statistics read that takes one packet and one reply from the worker. -/
def readStep : List (NetEv oneSlice.packetsize) := echoedStep ++ [.readCounter 0 EchoCounter.zero]

theorem programs_agree_echoed_step : ∃ s : Net oneSlice,
    Net.Agree (fun w => w.toNat) (Net.new oneSlice [1] [Buffer.filled _ 0]) readStep s :=
  have ⟨s, hrun⟩ := Option.isSome_iff_exists.mp (show (readStep.foldlM (Net.step fun w => w.toNat)
    (Net.new oneSlice [1] [Buffer.filled _ 0])).isSome by decide +kernel)
  ⟨s, programs_agree hrun⟩

end UdpPingPong
