import UdpPingPong.Sender.System

/- A whole session of the sender: all load steps of `main` together.

   A late reply is counted in a later step, so a step can count more replies than it
   sent packets. Nothing is counted twice: the counters are cleared when a thread enters
   its load, and what a receiver has counted by then was evaluated or is lost.

   1. `Peer.step_debt`: no step around a thread raises what it owes, which is what it
      counted or may still count, less what it sent;
   2. `System.step_session`: what every step of the program keeps, late replies included;
   3. `session_conserves`: after every run the steps together have received no more than
      they sent. -/
namespace UdpPingPong

open Exec Greedy Wire

variable {c : Config}

namespace SenderThread

/-- A thread that is not running takes no step. -/
theorem step_pc_ne_idle {s s' : SenderThread c} {e : ThreadEv c.packetsize} (h : s.step e = some s') :
    s.pc ≠ .idle := by
  cases step_cases h with
  | starting fill hpc => simp [hpc]
  | startReceiver hpc => simp [hpc]
  | readStart t hpc => simp [hpc]
  | sendPacket x l hpc hl => simp [hpc]
  | loading v l hpc hv hl => simp [hpc]
  | readDuration t hpc => simp [hpc]
  | waiting v w hpc hw => simp [hpc]
  | stopReceiver hpc => simp [hpc]

/-- Where a thread stands when it does anything but enter `run` and start its receiver. -/
theorem step_pc_started {s s' : SenderThread c} {e : ThreadEv c.packetsize} (h : s.step e = some s') :
    match e with
    | .run _ | .startReceiver => True
    | _ => s.pc ≠ .starting ∧ s.pc ≠ .startReceiver := by
  cases step_cases h with
  | starting fill hpc => trivial
  | startReceiver hpc => trivial
  | readStart t hpc => simp [hpc]
  | sendPacket x l hpc hl => simp [hpc]
  | loading v l hpc hv hl => simp [hpc]
  | readDuration t hpc => simp [hpc]
  | waiting v w hpc hw => simp [hpc]
  | stopReceiver hpc => simp [hpc]

end SenderThread

namespace Peer

/-- What a step of the thread does. -/
inductive ThreadCase (k : Nat) (p : Peer c) : ThreadEv c.packetsize → Peer c → Prop
  | run (fill) (t : SenderThread c) (ht : p.thread.step (.run fill) = some t) :
    ThreadCase k p (.run fill) { p with thread := t, receiver := p.receiver.resetCounter }
  | startReceiver (t : SenderThread c) (ht : p.thread.step .startReceiver = some t)
    (hoff : p.receiver.pc ≠ .running) :
    ThreadCase k p .startReceiver { p with thread := t, receiver := { p.receiver with pc := .starting } }
  | sendPacket (x : Draw c.packetsize) (t : SenderThread c) (ht : p.thread.step (.sendPacket x) = some t) :
    ThreadCase k p (.sendPacket x) { p with
      thread := t
      requests := if x.Accepted then p.requests ++ [{ bytes := t.buffer.bytes, loadStep := k }] else p.requests }
  | stopReceiver (t : SenderThread c) (ht : p.thread.step .stopReceiver = some t) :
    ThreadCase k p .stopReceiver { p with thread := t }
  | env (e) (t : SenderThread c) (ht : p.thread.step (.env e) = some t) : ThreadCase k p (.env e) { p with thread := t }

theorem stepThread_cases {k : Nat} {p p' : Peer c} {e : ThreadEv c.packetsize} (h : p.stepThread k e = some p') :
    ThreadCase k p e p' := by
  cases e with
  | run fill =>
    obtain ⟨t, ht, rfl⟩ := Option.map_eq_some_iff.mp h
    exact .run fill t ht
  | startReceiver =>
    simp only [stepThread, Receiver.threadStart] at h
    split at h
    · cases h
    · next r hr =>
      split at hr
      · cases hr
      · next hoff =>
        obtain rfl := Option.some.inj hr
        obtain ⟨t, ht, rfl⟩ := Option.map_eq_some_iff.mp h
        exact .startReceiver t ht hoff
  | sendPacket x =>
    obtain ⟨t, ht, rfl⟩ := Option.map_eq_some_iff.mp h
    exact .sendPacket x t ht
  | stopReceiver =>
    simp only [stepThread] at h
    split at h
    · cases h
    · obtain ⟨t, ht, rfl⟩ := Option.map_eq_some_iff.mp h
      exact .stopReceiver t ht
  | env e =>
    obtain ⟨t, ht, rfl⟩ := Option.map_eq_some_iff.mp h
    exact .env e t ht

/-- What a step around a thread does. -/
inductive StepCase (value : UInt64 → ℚ) (k : Nat) (p : Peer c) : PeerEv c.packetsize → Peer c → Prop
  | thread (e : ThreadEv c.packetsize) (p' : Peer c) (h : p.stepThread k e = some p') :
    StepCase value k p (.thread e) p'
  | receiverRun (time : Int) (r : Receiver) (hr : p.receiver.step value (.run time) = some r) :
    StepCase value k p (.receiverRun time) { p with receiver := r }
  | recv (microtime : ℚ) (time : Int) (stop : Bool) (m : Message) (rest : List Message) (r : Receiver)
    (hsock : p.socket = m :: rest) (hr : p.receiver.step value (.round (some m.bytes) microtime time stop) = some r) :
    StepCase value k p (.recv microtime time stop) { p with receiver := r, socket := rest }
  | recvFails (microtime : ℚ) (time : Int) (stop : Bool) (r : Receiver)
    (hr : p.receiver.step value (.round none microtime time stop) = some r) :
    StepCase value k p (.recvFails microtime time stop) { p with receiver := r }
  | answer (i : Nat) (bytes : List UInt8) (m : Message) (hm : p.requests[i]? = some m) :
    StepCase value k p (.answer i bytes) { p with
      requests := p.requests.eraseIdx i, replies := p.replies ++ [{ bytes, loadStep := m.loadStep }] }
  | loseRequest (i : Nat) : StepCase value k p (.loseRequest i) { p with requests := p.requests.eraseIdx i }
  | loseReply (i : Nat) : StepCase value k p (.loseReply i) { p with replies := p.replies.eraseIdx i }
  | deliver (i : Nat) (m : Message) (hm : p.replies[i]? = some m) :
    StepCase value k p (.deliver i) { p with replies := p.replies.eraseIdx i, socket := p.socket ++ [m] }

theorem step_cases {value : UInt64 → ℚ} {k : Nat} {p p' : Peer c} {e : PeerEv c.packetsize}
    (h : p.step value k e = some p') : StepCase value k p e p' := by
  cases e with
  | thread e => exact .thread e p' h
  | receiverRun time =>
    obtain ⟨r, hr, rfl⟩ := Option.map_eq_some_iff.mp h
    exact .receiverRun time r hr
  | recv microtime time stop =>
    simp only [step] at h
    split at h
    · cases h
    · next m rest hsock =>
      obtain ⟨r, hr, rfl⟩ := Option.map_eq_some_iff.mp h
      exact .recv microtime time stop m rest r hsock hr
  | recvFails microtime time stop =>
    obtain ⟨r, hr, rfl⟩ := Option.map_eq_some_iff.mp h
    exact .recvFails microtime time stop r hr
  | answer i bytes =>
    simp only [step] at h
    split at h
    · next m hm =>
      obtain rfl := Option.some.inj h
      exact .answer i bytes m hm
    · cases h
  | loseRequest i =>
    obtain rfl := Option.some.inj h
    exact .loseRequest i
  | loseReply i =>
    obtain rfl := Option.some.inj h
    exact .loseReply i
  | deliver i =>
    simp only [step] at h
    split at h
    · next m hm =>
      obtain rfl := Option.some.inj h
      exact .deliver i m hm
    · cases h

/-- The messages that are on their way or wait in the socket, whatever step they belong to. -/
def pending (p : Peer c) : Nat := p.requests.length + p.replies.length + p.socket.length

/-- What the receiver has counted for the step that is running. -/
def liveReceived (running : Bool) (p : Peer c) : Int :=
  if running = true ∧ p.thread.pc ≠ .starting then p.receiver.counterReceived else 0

/-- What the thread has sent in the step that is running; its counters are cleared behind
    `startReceiver`. -/
def liveSent (running : Bool) (p : Peer c) : Int :=
  if running = true ∧ p.thread.pc ≠ .starting ∧ p.thread.pc ≠ .startReceiver then p.thread.counter.counterSend
  else 0

/-- What may be counted against this thread, less what it sent. -/
def debt (running : Bool) (p : Peer c) : Int := p.liveReceived running + p.pending - p.liveSent running

/-- Between two load steps no thread runs, and no counter is negative. -/
structure Settled (running : Bool) (p : Peer c) : Prop where
  received : 0 ≤ p.receiver.counterReceived
  idle : running = false → p.thread.pc = .idle

variable {value : UInt64 → ℚ} {k : Nat} {running : Bool} {p p' : Peer c}

/-- A step that leaves the thread alone, and counts no more than it takes from what is pending. -/
theorem debt_le_of_read (hthread : p'.thread = p.thread) {n : Nat} (hpending : p'.pending + n ≤ p.pending)
    (hcount : p'.receiver.counterReceived ≤ p.receiver.counterReceived + n) : p'.debt running ≤ p.debt running := by
  simp only [debt, liveReceived, liveSent, hthread]
  split <;> omega

/-- A step behind the start of a thread that counts nothing. -/
theorem debt_of_thread {t : SenderThread c} (hpc : p.thread.pc ≠ .starting ∧ p.thread.pc ≠ .startReceiver)
    (hpc' : t.pc ≠ .starting ∧ t.pc ≠ .startReceiver) (hc : t.counter = p.thread.counter) :
    ({ p with thread := t } : Peer c).debt running = p.debt running := by
  simp only [debt, liveReceived, liveSent, pending, hpc, hpc', hc, ne_eq, not_false_eq_true, and_true]

theorem stepThread_debt {e : ThreadEv c.packetsize} (h : p.stepThread k e = some p')
    (hreceived : 0 ≤ p.receiver.counterReceived) :
    p'.debt true ≤ p.debt true ∧ 0 ≤ p'.receiver.counterReceived := by
  cases stepThread_cases h with
  | run fill t ht =>
    obtain ⟨hpc, hcases⟩ := SenderThread.step_counter ht
    have hzero : p.receiver.resetCounter.counterReceived = 0 := rfl
    refine ⟨?_, le_refl 0⟩
    rcases hcases with ⟨hpc', -⟩ | ⟨hpc', hc⟩
    · simp [debt, liveReceived, liveSent, pending, hpc, hpc', hzero]
    · simp [debt, liveReceived, liveSent, pending, hpc, hpc', hzero, hc, SendCounter.zero]
  | startReceiver t ht =>
    obtain ⟨hpc, hpc', hc⟩ := SenderThread.step_counter ht
    refine ⟨?_, hreceived⟩
    simp [debt, liveReceived, liveSent, pending, hpc, hpc', hc, SendCounter.zero]
  | sendPacket x t ht =>
    obtain ⟨hpc₁, hpc₂, -, hc⟩ := SenderThread.step_counter ht
    obtain ⟨hstarted₁, hstarted₂⟩ := SenderThread.step_pc_started ht
    have hsize : 0 < c.packetsize := Nat.lt_of_lt_of_le (by decide) c.packetsize_ok
    have hsent : t.counter.counterSend = p.thread.counter.counterSend + if x.Accepted then 1 else 0 := by
      rw [hc, SendCounter.count_counterSend _ hsize]
      rfl
    refine ⟨?_, hreceived⟩
    -- a packet that is accepted is pending, and counted as sent
    simp only [debt, liveReceived, liveSent, pending, hpc₁, hpc₂, hstarted₁, hstarted₂, hsent, ne_eq,
      not_false_eq_true, and_true, if_true]
    by_cases hx : x.Accepted
    · rw [if_pos hx, if_pos hx, List.length_append, List.length_singleton]
      push_cast
      omega
    · rw [if_neg hx, if_neg hx]
      omega
  | env e t ht =>
    obtain ⟨hpc₁, hpc₂, hc⟩ := SenderThread.step_counter ht
    exact ⟨le_of_eq (debt_of_thread (SenderThread.step_pc_started ht) ⟨hpc₁, hpc₂⟩ hc), hreceived⟩
  | stopReceiver t ht =>
    obtain ⟨hpc₁, hpc₂, hc⟩ := SenderThread.step_counter ht
    exact ⟨le_of_eq (debt_of_thread (SenderThread.step_pc_started ht) ⟨hpc₁, hpc₂⟩ hc), hreceived⟩

/-- What happens around a thread leaves it alone: messages move on or get lost, and of the `n` that
    leave the socket each is counted, unless the counters are cleared. -/
theorem step_around {e : PeerEv c.packetsize} (h : p.step value k e = some p') (he : ∀ e', e ≠ .thread e') :
    p'.thread = p.thread ∧ ∃ n : Nat, p'.pending + n ≤ p.pending ∧
      (p'.receiver.counterReceived = 0 ∨ p'.receiver.counterReceived = p.receiver.counterReceived + n) := by
  cases step_cases h with
  | thread e => exact absurd rfl (he e)
  | receiverRun time r hr => exact ⟨rfl, 0, le_refl _, .inl (Receiver.step_counterReceived hr)⟩
  | recv microtime time stop m rest r hsock hr =>
    refine ⟨rfl, 1, ?_, .inr (Receiver.step_counterReceived hr)⟩
    simp only [pending, hsock, List.length_cons]
    omega
  | recvFails microtime time stop r hr =>
    exact ⟨rfl, 0, le_refl _, .inr (by rw [Receiver.step_counterReceived hr]; simp)⟩
  | answer i bytes m hm =>
    have hi := (List.getElem?_eq_some_iff.mp hm).1
    refine ⟨rfl, 0, ?_, .inr (by simp)⟩
    simp only [pending, List.length_append, List.length_singleton, List.length_eraseIdx_of_lt hi]
    omega
  | loseRequest i =>
    have hle := (List.eraseIdx_sublist p.requests i).length_le
    refine ⟨rfl, 0, ?_, .inr (by simp)⟩
    simp only [pending]
    omega
  | loseReply i =>
    have hle := (List.eraseIdx_sublist p.replies i).length_le
    refine ⟨rfl, 0, ?_, .inr (by simp)⟩
    simp only [pending]
    omega
  | deliver i m hm =>
    have hi := (List.getElem?_eq_some_iff.mp hm).1
    refine ⟨rfl, 0, ?_, .inr (by simp)⟩
    simp only [pending, List.length_append, List.length_singleton, List.length_eraseIdx_of_lt hi]
    omega

/-- A step of the thread itself. -/
theorem stepThread_thread {e : ThreadEv c.packetsize} (h : p.stepThread k e = some p') :
    p.thread.step e = some p'.thread := by
  cases stepThread_cases h <;> assumption

/-- **No step around a thread raises its debt**, late replies included. -/
theorem step_debt {e : PeerEv c.packetsize} (h : p.step value k e = some p') (hs : p.Settled running) :
    p'.debt running ≤ p.debt running ∧ p'.Settled running := by
  have hreceived := hs.received
  by_cases hthread : ∃ e', e = .thread e'
  · obtain ⟨e', rfl⟩ := hthread
    have hpc := SenderThread.step_pc_ne_idle (stepThread_thread h)
    -- a thread that takes steps belongs to a step that is running
    have hrun : running = true := by
      cases running
      · exact absurd (hs.idle rfl) hpc
      · rfl
    subst hrun
    obtain ⟨hdebt, hreceived'⟩ := stepThread_debt h hreceived
    exact ⟨hdebt, hreceived', fun h => by cases h⟩
  · obtain ⟨hsame, n, hpending, hcount⟩ := step_around h (not_exists.mp hthread)
    refine ⟨debt_le_of_read hsame hpending (by omega), by omega, fun hrun => ?_⟩
    rw [hsame]
    exact hs.idle hrun

/-- A thread that is started owes what is pending. -/
theorem debt_start (running : Bool) (rate : Int) (p : Peer c) :
    ({ p with thread := (p.thread.setQueryRate rate).threadStart } : Peer c).debt running = p.pending := by
  simp [debt, liveReceived, liveSent, pending, SenderThread.threadStart]

/-- Between two load steps only what is pending may still be counted. -/
theorem debt_false (p : Peer c) : p.debt false = p.pending := by
  simp [debt, liveReceived, liveSent]

/-- The counters of a thread that has come to rest. -/
theorem debt_idle (hpc : p.thread.pc = .idle) :
    p.debt true = p.receiver.counterReceived + p.pending - p.thread.counter.counterSend := by
  simp [debt, liveReceived, liveSent, hpc]

end Peer

namespace System

/-- What a step of the program does. -/
inductive StepCase (value : UInt64 → ℚ) (s : System c) : SystemEv c.packetsize → System c → Prop
  | run (rate : Int) (rates : List Int) (threads : List (SenderThread c)) (hrates : s.rates = rate :: rates)
    (hidle : s.running = false ∧ s.AllIdle) (hstart : startRun (s.peers.map Peer.thread) rate = some threads) :
    StepCase value s .run { s with
      rates, loadStep := s.loadStep + 1, running := true, peers := withThreads s.peers threads }
  | getResults (hover : s.running = true ∧ s.AllIdle) :
    StepCase value s .getResults { s with
      running := false, results := s.results ++ [UdpPingPong.getResults s.peers] }
  | peer (i : Nat) (e : PeerEv c.packetsize) (p p' : Peer c) (hp : s.peers[i]? = some p)
    (hp' : p.step value s.loadStep e = some p') : StepCase value s (.peer i e) { s with peers := s.peers.set i p' }

theorem step_cases {value : UInt64 → ℚ} {s s' : System c} {e : SystemEv c.packetsize}
    (h : step value s e = some s') : StepCase value s e s' := by
  cases e with
  | run =>
    simp only [step] at h
    split at h
    · cases h
    · next rate rates hrates =>
      split at h
      · next hidle =>
        obtain ⟨threads, hstart, rfl⟩ := Option.map_eq_some_iff.mp h
        exact .run rate rates threads hrates hidle hstart
      · cases h
  | getResults =>
    simp only [step] at h
    split at h
    · next hover =>
      obtain rfl := Option.some.inj h
      exact .getResults hover
    · cases h
  | peer i e =>
    simp only [step] at h
    split at h
    · next p hp =>
      obtain ⟨p', hp', rfl⟩ := Option.map_eq_some_iff.mp h
      exact .peer i e p p' hp hp'
    · cases h

/-- What the load steps that are over have sent together, and what they have received. -/
def totalSend (s : System c) : Int := (s.results.map Results.counterSend).sum

def totalReceived (s : System c) : Int := (s.results.map Results.counterReceived).sum

/-- What the threads together may still count, less what they sent. -/
def debt (s : System c) : Int := (s.peers.map (Peer.debt s.running)).sum

/-- Over the session nothing was counted that was not sent, and what may still be counted was sent. -/
structure SessionInv (s : System c) : Prop where
  settled : ∀ p ∈ s.peers, p.Settled s.running
  evaluated : s.totalReceived ≤ s.totalSend
  all : s.totalReceived + s.debt ≤ s.totalSend

/-- What a run that starts makes of each peer. -/
theorem map_withThreads {β : Type} {f g : Peer c → β}
    (hfg : ∀ p q, f { p with thread := (p.thread.setQueryRate q).threadStart } = g p)
    {peers : List (Peer c)} {rate : Int} {threads : List (SenderThread c)}
    (h : startRun (peers.map Peer.thread) rate = some threads) :
    (withThreads peers threads).map f = peers.map g := by
  rw [startRun, assignRates_eq, Option.map_some] at h
  have hlen := deal_length rate (peers.map Peer.thread).length
  generalize deal rate (peers.map Peer.thread).length = rates at h hlen
  obtain rfl := Option.some.inj h
  apply List.ext_getElem
  · simp [withThreads, hlen]
  · intro i hi hi'
    simp [withThreads, hfg]

/-- A run that starts leaves every message where it is. -/
theorem debt_withThreads {peers : List (Peer c)} {rate : Int} {threads : List (SenderThread c)}
    (h : startRun (peers.map Peer.thread) rate = some threads) :
    (withThreads peers threads).map (Peer.debt true) = peers.map (Peer.debt false) := by
  apply map_withThreads _ h
  intro p q
  rw [Peer.debt_start, Peer.debt_false]

/-- What the evaluation adds to the results, it takes from the debt. -/
theorem debt_getResults {peers : List (Peer c)} (hidle : ∀ p ∈ peers, p.thread.pc = .idle) :
    (peers.map (Peer.debt true)).sum = (UdpPingPong.getResults peers).counterReceived +
      (peers.map (Peer.debt false)).sum - (UdpPingPong.getResults peers).counterSend := by
  obtain ⟨hs, hr⟩ := foldl_add_counters peers Results.zero
  have hzero : Results.zero.counterSend = 0 ∧ Results.zero.counterReceived = 0 := ⟨rfl, rfl⟩
  simp only [getResults_eq, hs, hr, hzero, Int.zero_add]
  induction peers with
  | nil => rfl
  | cons p peers ih =>
    rw [List.forall_mem_cons] at hidle
    have hrest := ih hidle.2 (foldl_add_counters peers Results.zero).1 (foldl_add_counters peers Results.zero).2
    simp only [List.map_cons, List.sum_cons, hrest, Peer.debt_idle hidle.1, Peer.debt_false]
    omega

theorem new_session (c : Config) (rates : List Int) (recbuffers : List (Buffer 4096)) :
    SessionInv (new c rates recbuffers) := by
  have hdebt : (new c rates recbuffers).debt = 0 := by
    simp only [debt, new, List.map_map]
    apply List.sum_eq_zero
    intro x hx
    obtain ⟨b, -, rfl⟩ := List.mem_map.mp hx
    rfl
  refine ⟨fun p hp => ?_, le_refl _, by rw [hdebt]; exact le_refl _⟩
  obtain ⟨b, -, rfl⟩ := List.mem_map.mp hp
  exact ⟨le_refl _, fun _ => rfl⟩

/-- Nothing is owed less than nothing between two load steps. -/
theorem debt_false_nonneg (peers : List (Peer c)) : 0 ≤ (peers.map (Peer.debt false)).sum := by
  apply List.sum_nonneg
  intro x hx
  obtain ⟨p, -, rfl⟩ := List.mem_map.mp hx
  rw [Peer.debt_false]
  exact Int.natCast_nonneg _

/-- **One step of the program**, whatever receivers read. -/
theorem step_session {value : UInt64 → ℚ} {s s' : System c} {e : SystemEv c.packetsize}
    (h : step value s e = some s') (hi : SessionInv s) : SessionInv s' := by
  obtain ⟨hsettled, hevaluated, hall⟩ := hi
  cases step_cases h with
  | run rate rates threads hrates hidle hstart =>
    refine ⟨fun p' hp' => ?_, hevaluated, ?_⟩
    · obtain ⟨p, hp, q, rfl⟩ := mem_withThreads hstart hp'
      exact ⟨(hsettled p hp).received, fun hrun => by cases hrun⟩
    · rw [debt, hidle.1] at hall
      show totalReceived s + ((withThreads s.peers threads).map (Peer.debt true)).sum ≤ totalSend s
      rw [debt_withThreads hstart]
      exact hall
  | getResults hover =>
    have hpeers := debt_getResults hover.2
    have hpending := debt_false_nonneg s.peers
    rw [debt, hover.1] at hall
    refine ⟨fun p hp => ⟨(hsettled p hp).received, fun _ => hover.2 p hp⟩, ?_, ?_⟩
    · simp only [totalReceived, totalSend, List.map_append, List.sum_append, List.map_cons, List.map_nil,
        List.sum_cons, List.sum_nil] at hall ⊢
      omega
    · simp only [totalReceived, totalSend, debt, List.map_append, List.sum_append, List.map_cons, List.map_nil,
        List.sum_cons, List.sum_nil] at hall ⊢
      omega
  | peer i e p p' hp hp' =>
    obtain ⟨hle, hsettled'⟩ := Peer.step_debt hp' (hsettled p (List.mem_of_getElem? hp))
    refine ⟨fun q hq => ?_, hevaluated, ?_⟩
    · rcases List.mem_or_eq_of_mem_set hq with hq | rfl
      · exact hsettled q hq
      · exact hsettled'
    · show totalReceived s + ((s.peers.set i p').map (Peer.debt s.running)).sum ≤ totalSend s
      rw [sum_map_set _ hp]
      simp only [debt] at hall
      omega

end System

/-- **A session counts no reply twice**: in every run of the program over any list of rates, with any
    number of threads and any order of sends, answers, losses, deliveries and reads, in which replies
    may be read as late as they like, the load steps that are over have received no more packets than
    they sent, all of them together. -/
theorem session_conserves {value : UInt64 → ℚ} {rates : List Int} {recbuffers : List (Buffer 4096)}
    {es : List (SystemEv c.packetsize)} {s : System c}
    (h : Runs (System.step value) (System.new c rates recbuffers) es s) : s.totalReceived ≤ s.totalSend :=
  (h.invariant (I := System.SessionInv) (System.new_session c rates recbuffers)
    fun _ _ _ hi hs => System.step_session hs hi).evaluated

/-- The late reply of `lateReply` is counted in the second step, and both steps sent one packet. -/
theorem session_conserves_late_reply : ∃ s,
    Runs (System.step fun w => w.toNat) (System.new oneSlice [1, 1] [Buffer.filled _ 0]) lateReply s ∧
      s.totalReceived ≤ s.totalSend :=
  have ⟨s, hrun⟩ := Option.isSome_iff_exists.mp (show ((lateReply).foldlM
    (System.step fun w => w.toNat) (System.new oneSlice [1, 1] [Buffer.filled _ 0])).isSome by decide +kernel)
  ⟨s, hrun, session_conserves hrun⟩

end UdpPingPong
