import UdpPingPong.Network.Programs
import UdpPingPong.RoundTrip
import UdpPingPong.Sender.Rtt
import UdpPingPong.Sender.Session

/- Where the round trip times come from.

   A datagram carries the time it was sent at through the buffers of both programs, and
   a receiver takes it for the time of the packet it reads. Nothing but the bytes ties
   the two ends together.

   1. `Peer.step_times`, `System.step_times`, `Net.step_times`: in one step a time that is
      read, or still on its way, is one that was on its way or is sent;
   2. `samples_honest`: every round trip time is counted for a packet of its own, which
      the same thread has sent;
   3. `samples_nonneg`: under a clock that does not go back none is negative. -/
namespace UdpPingPong

open Exec Wire

variable {c : Config}

/-! ## The times of the packets -/

namespace Message

/-- The time in the packet. -/
def time (m : Message) : UInt64 := timeField m.bytes

/-- A whole `PACKET` is in the message. -/
def Whole (m : Message) : Prop := sizeofPacket ≤ m.bytes.length

/-- The times of some messages, in no order. -/
def times (l : List Message) : Multiset UInt64 := l.map time

theorem times_append (l l' : List Message) : times (l ++ l') = times l + times l' := by
  simp [times]

@[simp] theorem times_nil : times [] = 0 := rfl

theorem times_cons (m : Message) (l : List Message) : times (m :: l) = {m.time} + times l := by
  simp [times]

theorem times_eraseIdx {l : List Message} {i : Nat} {m : Message} (h : l[i]? = some m) :
    times (l.eraseIdx i) + {m.time} = times l := by
  obtain ⟨hi, rfl⟩ := List.getElem?_eq_some_iff.mp h
  have hperm := (List.getElem_cons_eraseIdx_perm hi).map time
  rw [add_comm, ← times_cons]
  exact Multiset.coe_eq_coe.mpr hperm

theorem times_eraseIdx_le (l : List Message) (i : Nat) : times (l.eraseIdx i) ≤ times l :=
  Multiset.coe_le.mpr ((List.eraseIdx_sublist l i).map time).subperm

end Message

namespace PeerEv

/-- The time of a packet that the socket accepts. -/
def sent {size : Nat} : PeerEv size → List UInt64
  | .thread (.sendPacket x) => if x.Accepted then [x.time] else []
  | _ => []

/-- The clock when a packet is read. -/
def clocks {size : Nat} : PeerEv size → List ℚ
  | .recv microtime _ _ => [microtime]
  | _ => []

end PeerEv

namespace Peer

/-- The times of the packets that are pending. -/
def times (p : Peer c) : Multiset UInt64 := Message.times p.requests + Message.times p.replies + Message.times p.socket

/-- A whole `PACKET` is in each message that is pending. -/
structure Whole (p : Peer c) : Prop where
  requests : ∀ m ∈ p.requests, m.Whole
  replies : ∀ m ∈ p.replies, m.Whole
  socket : ∀ m ∈ p.socket, m.Whole

/-- The time of the packet that is read. -/
def taken (p : Peer c) : PeerEv c.packetsize → List UInt64
  | .recv _ _ _ => (p.socket.head?.map Message.time).toList
  | _ => []

/-- The round trip time that is counted. -/
def rtts (value : UInt64 → ℚ) (p : Peer c) : PeerEv c.packetsize → List ℚ
  | .recv microtime time stop => p.socket.head?.toList.flatMap fun m =>
      p.receiver.sample value (.round (some m.bytes) microtime time stop)
  | _ => []

/-- The bouncer sends the time of the packet back, in a whole `PACKET`. -/
def Echoed (p : Peer c) : PeerEv c.packetsize → Prop
  | .answer i bytes => ∀ m ∈ p.requests[i]?, sizeofPacket ≤ bytes.length ∧ timeField bytes = m.time
  | _ => True

variable {value : UInt64 → ℚ} {k : Nat} {p p' : Peer c}

/-- A thread puts packets of its own time under way. -/
theorem stepThread_times {e : ThreadEv c.packetsize} (h : p.stepThread k e = some p') (hw : p.Whole) :
    p'.Whole ∧ p'.times = p.times + PeerEv.sent (.thread e) := by
  obtain ⟨hrequests, hreplies, hsocket⟩ := hw
  cases stepThread_cases h with
  | sendPacket x t ht =>
    have hbuffer : t.buffer = UdpPingPong.sendPacket c p.thread.buffer x := SenderThread.step_buffer ht
    have htime : Message.time { bytes := t.buffer.bytes, loadStep := k } = x.time := by
      rw [Message.time, hbuffer]
      exact sendPacket_time c p.thread.buffer x
    by_cases hx : x.Accepted
    · simp only [hx, if_true, PeerEv.sent]
      refine ⟨⟨fun m hm => ?_, hreplies, hsocket⟩, ?_⟩
      · rcases List.mem_append.mp hm with hm | hm
        · exact hrequests m hm
        · obtain rfl := List.mem_singleton.mp hm
          rw [Message.Whole, t.buffer.size]
          exact c.packetsize_ok
      · simp only [times, Message.times_append, Message.times_cons, htime, Message.times_nil, Multiset.coe_singleton]
        abel
    · simp only [hx, if_false, PeerEv.sent]
      exact ⟨⟨hrequests, hreplies, hsocket⟩, (add_zero _).symm⟩
  | run fill t ht | startReceiver t ht | stopReceiver t ht | env e t ht =>
    exact ⟨⟨hrequests, hreplies, hsocket⟩, (add_zero _).symm⟩

/-- **One step around a thread**: every time that is read, or still on its way, is one that was on its
    way before or is sent now. -/
theorem step_times {e : PeerEv c.packetsize} (h : p.step value k e = some p') (hecho : p.Echoed e) (hw : p.Whole) :
    p'.Whole ∧ p'.times + p.taken e ≤ p.times + e.sent := by
  have ⟨hrequests, hreplies, hsocket⟩ := hw
  cases step_cases h with
  | thread e p' h =>
    obtain ⟨hw', htimes⟩ := stepThread_times h hw
    refine ⟨hw', ?_⟩
    rw [htimes]
    exact le_of_eq (add_zero _)
  | receiverRun time r hr | recvFails microtime time stop r hr =>
    exact ⟨⟨hrequests, hreplies, hsocket⟩, le_refl _⟩
  | recv microtime time stop m rest r hsock hr =>
    rw [hsock, List.forall_mem_cons] at hsocket
    refine ⟨⟨hrequests, hreplies, hsocket.2⟩, ?_⟩
    simp only [times, taken, PeerEv.sent, hsock, Message.times_cons, List.head?_cons, Option.map_some,
      Option.toList_some, Multiset.coe_singleton, Multiset.coe_nil]
    exact le_of_eq (by abel)
  | answer i bytes m hm =>
    obtain ⟨hlen, htime⟩ := hecho m hm
    refine ⟨⟨fun m' hm' => hrequests m' (List.mem_of_mem_eraseIdx hm'), fun m' hm' => ?_, hsocket⟩, ?_⟩
    · rcases List.mem_append.mp hm' with hm' | hm'
      · exact hreplies m' hm'
      · obtain rfl := List.mem_singleton.mp hm'
        exact hlen
    · simp only [times, taken, PeerEv.sent, Message.times_append, Message.times_cons,
        ← Message.times_eraseIdx hm, Message.time, htime, Message.times_nil, Multiset.coe_nil]
      exact le_of_eq (by abel)
  | loseRequest i =>
    refine ⟨⟨fun m' hm' => hrequests m' (List.mem_of_mem_eraseIdx hm'), hreplies, hsocket⟩, ?_⟩
    simp only [times, taken, PeerEv.sent]
    gcongr
    exact Message.times_eraseIdx_le _ i
  | loseReply i =>
    refine ⟨⟨hrequests, fun m' hm' => hreplies m' (List.mem_of_mem_eraseIdx hm'), hsocket⟩, ?_⟩
    simp only [times, taken, PeerEv.sent]
    gcongr
    exact Message.times_eraseIdx_le _ i
  | deliver i m hm =>
    refine ⟨⟨hrequests, fun m' hm' => hreplies m' (List.mem_of_mem_eraseIdx hm'), fun m' hm' => ?_⟩, ?_⟩
    · rcases List.mem_append.mp hm' with hm' | hm'
      · exact hsocket m' hm'
      · rw [List.mem_singleton.mp hm']
        exact hreplies m (List.mem_of_getElem? hm)
    · simp only [times, taken, PeerEv.sent, Message.times_append, Message.times_cons, ← Message.times_eraseIdx hm,
        Message.times_nil, Multiset.coe_nil]
      exact le_of_eq (by abel)

/-- What is counted for a packet is the clock less the time that was read from it. -/
theorem rtts_eq (value : UInt64 → ℚ) {e : PeerEv c.packetsize} (h : p.step value k e = some p') (hw : p.Whole) :
    (p.taken e).length = e.clocks.length ∧
      p.rtts value e = List.zipWith (fun microtime time => microtime - value time) e.clocks (p.taken e) := by
  cases step_cases h with
  | recv microtime time stop m rest r hsock hr =>
    have hm : m.Whole := hw.socket m (by rw [hsock]; exact List.mem_cons_self)
    simp [taken, rtts, PeerEv.clocks, hsock, Receiver.sample, Receiver.rtt, recv_packet p.receiver hm, Message.time]
  | thread e => exact ⟨rfl, rfl⟩
  | receiverRun time => exact ⟨rfl, rfl⟩
  | recvFails microtime time stop => exact ⟨rfl, rfl⟩
  | answer i bytes => exact ⟨rfl, rfl⟩
  | loseRequest i => exact ⟨rfl, rfl⟩
  | loseReply i => exact ⟨rfl, rfl⟩
  | deliver i => exact ⟨rfl, rfl⟩

end Peer

/-- The times of packets the sockets accept, with the threads that send them. -/
def SystemEv.sent {size : Nat} : SystemEv size → List (Nat × UInt64)
  | .peer i e => e.sent.map fun time => (i, time)
  | _ => []

/-- The clock when a packet is read, with the thread it is read for. -/
def SystemEv.clocks {size : Nat} : SystemEv size → List (Nat × ℚ)
  | .peer i e => e.clocks.map fun microtime => (i, microtime)
  | _ => []

/-- Round trip times are clock readings less the times `ts`. -/
def Rtts (value : UInt64 → ℚ) (clocks : List ℚ) (ts : List UInt64) (rtts : List ℚ) : Prop :=
  ts.length = clocks.length ∧ rtts = List.zipWith (fun microtime time => microtime - value time) clocks ts

theorem Rtts.append {value : UInt64 → ℚ} {clocks clocks' : List ℚ} {ts ts' : List UInt64} {rtts rtts' : List ℚ}
    (h : Rtts value clocks ts rtts) (h' : Rtts value clocks' ts' rtts') :
    Rtts value (clocks ++ clocks') (ts ++ ts') (rtts ++ rtts') := by
  obtain ⟨hlen, rfl⟩ := h
  obtain ⟨hlen', rfl⟩ := h'
  refine ⟨by rw [List.length_append, List.length_append, hlen, hlen'], ?_⟩
  rw [List.zipWith_append hlen.symm]

namespace System

/-- The times of the packets of thread `i` that are pending. -/
def times (s : System c) (i : Nat) : Multiset UInt64 := (s.peers.map Peer.times)[i]?.getD 0

def Whole (s : System c) : Prop := ∀ p ∈ s.peers, p.Whole

/-- The round trip time that is counted, with the thread it is counted for. -/
def rtts (value : UInt64 → ℚ) (s : System c) : SystemEv c.packetsize → List (Nat × ℚ)
  | .peer i e => (s.peers[i]?.toList.flatMap fun p => p.rtts value e).map fun rtt => (i, rtt)
  | _ => []

def Echoed (s : System c) : SystemEv c.packetsize → Prop
  | .peer i e => ∀ p ∈ s.peers[i]?, p.Echoed e
  | _ => True

variable {value : UInt64 → ℚ} {s s' : System c}

/-- A run that starts leaves the packets that are pending alone. -/
theorem times_withThreads {threads : List (SenderThread c)} {rate : Int}
    (h : startRun (s.peers.map Peer.thread) rate = some threads) :
    (withThreads s.peers threads).map Peer.times = s.peers.map Peer.times :=
  map_withThreads (fun _ _ => rfl) h

/-- **One step of the sender**, when the bouncer sends times back. -/
theorem step_times {e : SystemEv c.packetsize} (h : step value s e = some s') (hecho : s.Echoed e) (hw : s.Whole) :
    s'.Whole ∧ ∀ i, ∃ ts : List UInt64, s'.times i + ts ≤ s.times i + eventsOf i e.sent ∧
      Rtts value (eventsOf i e.clocks) ts (eventsOf i (s.rtts value e)) := by
  cases step_cases h with
  | run rate rates threads hrates hidle hstart =>
    refine ⟨fun p' hp' => ?_, fun i => ⟨[], ?_, rfl, rfl⟩⟩
    · obtain ⟨p, hp, q, rfl⟩ := mem_withThreads hstart hp'
      exact ⟨(hw p hp).requests, (hw p hp).replies, (hw p hp).socket⟩
    · simp only [times, times_withThreads hstart]
      exact le_refl _
  | getResults hover => exact ⟨hw, fun i => ⟨[], le_refl _, rfl, rfl⟩⟩
  | peer j e p p' hp hp' =>
    have hwp := hw p (List.mem_of_getElem? hp)
    obtain ⟨hwp', htimes⟩ := Peer.step_times hp' (hecho p hp) hwp
    obtain ⟨hlen, hrtts⟩ := Peer.rtts_eq value hp' hwp
    refine ⟨fun q hq => ?_, fun i => ?_⟩
    · rcases List.mem_or_eq_of_mem_set hq with hq | rfl
      · exact hw q hq
      · exact hwp'
    · by_cases hij : j = i
      · subst hij
        refine ⟨p.taken e, ?_, ?_⟩
        · obtain ⟨hlt, hget⟩ := List.getElem?_eq_some_iff.mp hp
          simpa [times, SystemEv.sent, hlt, hget] using htimes
        · simpa [Rtts, SystemEv.clocks, rtts, hp] using ⟨hlen, hrtts⟩
      · refine ⟨[], ?_, ?_⟩
        · simp [times, SystemEv.sent, hij]
        · simp [Rtts, SystemEv.clocks, rtts, hij]

end System

namespace NetEv

def sent {size : Nat} : NetEv size → List (Nat × UInt64)
  | .sender e => e.sent
  | _ => []

def clocks {size : Nat} : NetEv size → List (Nat × ℚ)
  | .sender e => e.clocks
  | _ => []

end NetEv

namespace Net

variable {value : UInt64 → ℚ} {s s' : Net c}

/-- The round trip time that is counted, with the thread it is counted for. -/
def rtts (value : UInt64 → ℚ) (s : Net c) : NetEv c.packetsize → List (Nat × ℚ)
  | .sender e => s.sender.rtts value e
  | _ => []

/-- A worker sends the time of a packet back. -/
theorem bounce_echoed {i n : Nat} {p : Peer c} (hp : s.sender.peers[i]? = some p) {m : Message}
    (hm : p.requests[n]? = some m) (hw : m.Whole) (w : Worker) : s.sender.Echoed (bounceEv w i n m) := by
  rw [bounceEv]
  cases hreply : w.reply { bytes := m.bytes, client := i } with
  | none => exact fun p _ => trivial
  | some r =>
    intro p' hp' m' hm'
    obtain rfl := Option.some.inj (hp.symm.trans hp')
    obtain rfl := Option.some.inj (hm.symm.trans hm')
    obtain ⟨hlen, hprefix⟩ := reply_packet (d := { bytes := m.bytes, client := i }) hw hreply
    exact ⟨hlen, timeField_of_prefix hprefix⟩

/-- A worker neither sends packets for a thread nor counts a round trip time. -/
theorem bounce_silent (w : Worker) (i n : Nat) (m : Message) :
    (bounceEv w i n m : SystemEv c.packetsize).sent = [] ∧ (bounceEv w i n m : SystemEv c.packetsize).clocks = [] ∧
      s.sender.rtts value (bounceEv w i n m) = [] := by
  rw [bounceEv]
  cases w.reply { bytes := m.bytes, client := i } <;>
    simp [SystemEv.sent, SystemEv.clocks, System.rtts, PeerEv.sent, PeerEv.clocks, Peer.rtts]

/-- **One step of the two programs**: a time that is read is one of the same thread. -/
theorem step_times {e : NetEv c.packetsize} (h : step value s e = some s') (hw : s.sender.Whole) :
    s'.sender.Whole ∧ ∀ i, ∃ ts : List UInt64, s'.sender.times i + ts ≤ s.sender.times i + eventsOf i e.sent ∧
      Rtts value (eventsOf i e.clocks) ts (eventsOf i (s.rtts value e)) := by
  cases step_cases h with
  | sender e sender he hs =>
    apply System.step_times hs _ hw
    cases e with
    | run => trivial
    | getResults => trivial
    | peer i e =>
      intro p _
      cases e with
      | answer n bytes => cases he
      | thread e => trivial
      | receiverRun time => trivial
      | recv microtime time stop => trivial
      | recvFails microtime time stop => trivial
      | loseRequest n => trivial
      | loseReply n => trivial
      | deliver n => trivial
  | start buffer noEcho packetSize time => exact ⟨hw, fun i => ⟨[], le_refl _, rfl, rfl⟩⟩
  | bounce j i n time stop w w' p m sender hworker hp hm hr hs =>
    have hwhole : m.Whole := (hw p (List.mem_of_getElem? hp)).requests m (List.mem_of_getElem? hm)
    obtain ⟨hw', htimes⟩ := System.step_times hs (bounce_echoed hp hm hwhole w) hw
    obtain ⟨hsent, hclocks, hrtts⟩ := @bounce_silent _ value s w i n m
    rw [hsent, hclocks, hrtts] at htimes
    exact ⟨hw', htimes⟩
  | bounceFails j time stop w w' hworker hr => exact ⟨hw, fun i => ⟨[], le_refl _, rfl, rfl⟩⟩
  | readCounter j left w hworker hleft => exact ⟨hw, fun i => ⟨[], le_refl _, rfl, rfl⟩⟩

theorem new_times (c : Config) (rates : List Int) (recbuffers : List (Buffer 4096)) :
    (new c rates recbuffers).sender.Whole ∧ ∀ i, (new c rates recbuffers).sender.times i = 0 := by
  refine ⟨fun p hp => ?_, fun i => ?_⟩
  · obtain ⟨b, -, rfl⟩ := List.mem_map.mp hp
    refine ⟨?_, ?_, ?_⟩ <;> intro m hm <;> cases hm
  · simp only [System.times, new, System.new, List.map_map]
    cases h : recbuffers[i]? <;> simp [h, Peer.times, Peer.new]

/-- After a run every time that is pending, or was read, was sent. -/
theorem runs_times {rates : List Int} {recbuffers : List (Buffer 4096)} {es : List (NetEv c.packetsize)}
    (h : Runs (step value) (new c rates recbuffers) es s) : s.sender.Whole ∧ ∀ i, ∃ ts : List UInt64,
      s.sender.times i + ts ≤ eventsOf i (es.flatMap NetEv.sent) ∧
        Rtts value (eventsOf i (es.flatMap NetEv.clocks)) ts
          (eventsOf i (emitted (step value) (rtts value) (new c rates recbuffers) es)) := by
  apply Runs.trace_induct (P := fun es (s : Net c) => s.sender.Whole ∧ ∀ i, ∃ ts : List UInt64,
      s.sender.times i + ts ≤ eventsOf i (es.flatMap NetEv.sent) ∧
        Rtts value (eventsOf i (es.flatMap NetEv.clocks)) ts
          (eventsOf i (emitted (step value) (rtts value) (new c rates recbuffers) es))) _ _ h
  · obtain ⟨hwhole, htimes⟩ := new_times c rates recbuffers
    refine ⟨hwhole, fun i => ⟨[], ?_, rfl, rfl⟩⟩
    rw [htimes i]
    exact le_refl _
  · intro es s e s' hr ih hs
    obtain ⟨hwhole, htimes⟩ := ih
    obtain ⟨hwhole', hstep⟩ := step_times hs hwhole
    refine ⟨hwhole', fun i => ?_⟩
    obtain ⟨ts, hle, hrtts⟩ := htimes i
    obtain ⟨ts', hle', hrtts'⟩ := hstep i
    refine ⟨ts ++ ts', ?_, ?_⟩
    · simp only [List.flatMap_append, List.flatMap_singleton, eventsOf_append, ← Multiset.coe_add]
      calc s'.sender.times i + (↑ts + ↑ts')
          = s'.sender.times i + ↑ts' + ↑ts := by abel
        _ ≤ s.sender.times i + ↑(eventsOf i e.sent) + ↑ts := by gcongr
        _ = s.sender.times i + ↑ts + ↑(eventsOf i e.sent) := by abel
        _ ≤ ↑(eventsOf i (es.flatMap NetEv.sent)) + ↑(eventsOf i e.sent) := by gcongr
    · simp only [List.flatMap_append, List.flatMap_singleton, eventsOf_append, emitted_snoc hr]
      exact hrtts.append hrtts'

end Net

/-- **Round trip times are honest**: in every run of the two programs, whatever the network loses,
    reorders and delays, whatever the workers of the bouncer are configured to and have received
    before, thread `i` counts for its packets the clock less times `ts`, and `ts` are times of as many
    different packets that the same thread has sent. -/
theorem samples_honest {value : UInt64 → ℚ} {rates : List Int} {recbuffers : List (Buffer 4096)}
    {es : List (NetEv c.packetsize)} {s : Net c} (h : Runs (Net.step value) (Net.new c rates recbuffers) es s)
    (i : Nat) : ∃ ts : List UInt64, ts.Subperm (eventsOf i (es.flatMap NetEv.sent)) ∧
      ts.length = (eventsOf i (es.flatMap NetEv.clocks)).length ∧
      eventsOf i (emitted (Net.step value) (Net.rtts value) (Net.new c rates recbuffers) es) =
        List.zipWith (fun microtime time => microtime - value time) (eventsOf i (es.flatMap NetEv.clocks)) ts := by
  obtain ⟨-, htimes⟩ := Net.runs_times h
  obtain ⟨ts, hle, hlen, hrtts⟩ := htimes i
  refine ⟨ts, Multiset.coe_le.mp ?_, hlen, hrtts⟩
  exact le_trans (Multiset.le_add_left _ _) hle

theorem samples_honest_echoed_step : ∃ ts : List UInt64,
    ts.Subperm (eventsOf 0 (echoedStep.flatMap NetEv.sent)) ∧
      ts.length = (eventsOf 0 (echoedStep.flatMap NetEv.clocks)).length ∧
      eventsOf 0 (emitted (Net.step fun w => w.toNat) (Net.rtts fun w => w.toNat)
          (Net.new oneSlice [1] [Buffer.filled _ 0]) echoedStep) =
        List.zipWith (fun microtime time => microtime - (fun w : UInt64 => (w.toNat : ℚ)) time)
          (eventsOf 0 (echoedStep.flatMap NetEv.clocks)) ts :=
  have ⟨_, hrun⟩ := echoedStep_runs
  samples_honest hrun 0

/-! ## Under a clock that does not go back -/

/-- What the clock shows in a step: when a packet is sent, and when one is read. -/
def NetEv.readings {size : Nat} (value : UInt64 → ℚ) (e : NetEv size) : List ℚ :=
  e.sent.map (fun x => value x.2) ++ e.clocks.map Prod.snd

/-- A step that reads a packet sends none. -/
theorem NetEv.sent_of_clocks {size : Nat} {e : NetEv size} {i : Nat} (h : eventsOf i e.clocks ≠ []) : e.sent = [] := by
  cases e with
  | sender e =>
    cases e with
    | run => rfl
    | getResults => rfl
    | peer j e =>
      cases e with
      | thread e =>
        exact absurd rfl h
      | receiverRun time | recv microtime time stop | recvFails microtime time stop => rfl
      | answer n bytes | loseRequest n | loseReply n | deliver n => rfl
  | start buffer noEcho packetSize time => rfl
  | bounce j i n time stop => rfl
  | bounceFails j time stop => rfl
  | readCounter j left => rfl

theorem mem_of_eventsOf {α : Type} {i : Nat} {l : List (Nat × α)} {x : α} (h : x ∈ eventsOf i l) : (i, x) ∈ l := by
  obtain ⟨q, hq, hx⟩ := List.mem_filterMap.mp h
  split at hx
  · next hi =>
    obtain rfl := Option.some.inj hx
    rw [← hi]
    exact hq
  · cases hx

/-- **No round trip time is negative**, when the clock does not go back between the packets that are
    sent and read, of all threads. -/
theorem samples_nonneg {value : UInt64 → ℚ} {rates : List Int} {recbuffers : List (Buffer 4096)}
    {es : List (NetEv c.packetsize)} {s : Net c} (h : Runs (Net.step value) (Net.new c rates recbuffers) es s)
    (hclock : (es.flatMap (NetEv.readings value)).Pairwise (· ≤ ·)) :
    ∀ x ∈ emitted (Net.step value) (Net.rtts value) (Net.new c rates recbuffers) es, 0 ≤ x.2 := by
  apply Runs.trace_induct (P := fun es _ => (es.flatMap (NetEv.readings value)).Pairwise (· ≤ ·) →
    ∀ x ∈ emitted (Net.step value) (Net.rtts value) (Net.new c rates recbuffers) es, 0 ≤ x.2) _ _ h hclock
  · intro _ x hx
    cases hx
  · intro es s e s' hr ih hs hclock x hx
    rw [List.flatMap_append, List.flatMap_singleton, List.pairwise_append] at hclock
    obtain ⟨hbefore, -, hclock⟩ := hclock
    rw [emitted_snoc hr, List.mem_append] at hx
    rcases hx with hx | hx
    · exact ih hbefore x hx
    · obtain ⟨i, rtt⟩ := x
      obtain ⟨hwhole, htimes⟩ := Net.runs_times hr
      obtain ⟨-, hstep⟩ := Net.step_times hs hwhole
      obtain ⟨ts, hle, -⟩ := htimes i
      obtain ⟨ts', hle', hlen, hrtts⟩ := hstep i
      have hmem : rtt ∈ eventsOf i (s.rtts value e) := by
        exact List.mem_filterMap.mpr ⟨(i, rtt), hx, if_pos rfl⟩
      -- the clock `m` when the packet is read, and the time `t` that is read from it
      rw [hrtts] at hmem
      obtain ⟨n, hn⟩ := List.mem_iff_getElem?.mp hmem
      obtain ⟨m, t, hm, ht, rfl⟩ := List.getElem?_zipWith_eq_some.mp hn
      have hclocks : m ∈ eventsOf i e.clocks := List.mem_of_getElem? hm
      have hsent : e.sent = [] := NetEv.sent_of_clocks (List.ne_nil_of_mem hclocks)
      have hpending : t ∈ s.sender.times i := by
        rw [hsent] at hle'
        have hts : t ∈ (ts' : Multiset UInt64) := List.mem_of_getElem? ht
        have hsub := Multiset.mem_of_le (le_trans (Multiset.le_add_left _ _) hle') hts
        simpa [eventsOf] using hsub
      have hpast : t ∈ eventsOf i (es.flatMap NetEv.sent) :=
        Multiset.mem_of_le (le_trans (Multiset.le_add_right _ _) hle) hpending
      obtain ⟨f, hf, hft⟩ := List.mem_flatMap.mp (mem_of_eventsOf hpast)
      have hle : value t ≤ m := by
        apply hclock
        · exact List.mem_flatMap.mpr ⟨f, hf, List.mem_append_left _ (List.mem_map_of_mem hft)⟩
        · exact List.mem_append_right _ (List.mem_map_of_mem (mem_of_eventsOf hclocks))
      exact sub_nonneg.mpr hle

end UdpPingPong
