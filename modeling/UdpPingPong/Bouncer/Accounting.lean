import UdpPingPong.Bouncer.Worker

/- What the counters of a bouncer worker say about the datagrams it received and sent.

   `UDPEchoBouncerThread::run` keeps the length passed to `sendto` in the variable
   `bytes_send` and adds `n`, the length it received, to the counter of that name.

   1. `Worker.runs_count`: what a run adds to the four counters;
   2. `Worker.lengths_sent`: the lengths of the replies, by the configuration;
   3. `counters_describe_iff`: the counters say what was received and sent exactly when
      the lengths sent come to the lengths received. -/
namespace UdpPingPong

open Exec Wire

/-- The result of `recvfrom` in a round that receives a datagram. -/
def Round.received (r : Round) : List Nat :=
  match r.recv with
  | some d => [Buffer.received 4096 d.bytes]
  | none => []

/-- The lengths of the datagrams received in some rounds. -/
def received (rs : List Round) : List Nat := rs.flatMap Round.received

namespace Worker

/-- The `sendto` call of a round. -/
def sendto (w : Worker) (r : Round) : List Datagram :=
  match r.recv with
  | some d => (w.reply d).toList
  | none => []

/-- The `sendto` calls of a run. -/
def sent (w : Worker) (rs : List Round) : List Datagram := emitted step sendto w rs

variable {w w' : Worker} {rs : List Round}

/-- One round counts the datagram it received, and a reply unless there are none. -/
theorem step_counter {r : Round} (h : step w r = some w') : w'.counter =
    { packetsReceived := w.counter.packetsReceived + r.received.length
      packetsSend := w.counter.packetsSend + if w.noEcho then 0 else r.received.length
      bytesReceived := w.counter.bytesReceived + r.received.sum
      bytesSend := w.counter.bytesSend + r.received.sum } := by
  have hcheck : ∀ (v : Worker) (time : Int) (stop : Bool), (v.check time stop).counter = v.counter := by
    intro v time stop
    unfold check
    split <;> rfl
  unfold step at h
  split at h
  · cases h
  · obtain rfl := Option.some.inj h
    cases hr : r.recv with
    | none => simp [Round.received, hr, hcheck]
    | some d => cases he : w.noEcho <;> simp [Round.received, hr, hcheck, count, recvfrom, he]

/-- What a run adds to the counters. -/
theorem runs_count (h : Runs step w rs w') : w'.counter =
    { packetsReceived := w.counter.packetsReceived + (received rs).length
      packetsSend := w.counter.packetsSend + if w.noEcho then 0 else (received rs).length
      bytesReceived := w.counter.bytesReceived + (received rs).sum
      bytesSend := w.counter.bytesSend + (received rs).sum } := by
  apply Runs.trace_induct (P := fun rs v => v.counter =
    { packetsReceived := w.counter.packetsReceived + (received rs).length
      packetsSend := w.counter.packetsSend + if w.noEcho then 0 else (received rs).length
      bytesReceived := w.counter.bytesReceived + (received rs).sum
      bytesSend := w.counter.bytesSend + (received rs).sum }) _ _ h
  · simp [received]
  · intro rs u r v hr ih hs
    have hrec : received (rs ++ [r]) = received rs ++ r.received := by simp [received]
    rw [step_counter hs, ih, (runs_config hr).1, hrec, List.length_append, List.sum_append]
    push_cast
    cases w.noEcho <;> simp [Int.add_assoc]

/-- The length passed to `sendto` in a round that receives a datagram. -/
theorem lengths_sendto (w : Worker) (r : Round) : (w.sendto r).map (fun d => d.bytes.length) =
    if w.noEcho then []
    else if w.packetSize.bytes = 0 then r.received
    else List.replicate r.received.length w.packetSize.bytes := by
  have hle := w.packetSize.le_buffer
  rcases hr : r.recv with _ | d
  · simp [sendto, Round.received, hr]
  · simp only [sendto, Round.received, hr, reply_eq, replyLength]
    cases w.noEcho
    · by_cases hp : w.packetSize.bytes = 0
      · simp [hp, Buffer.received]
      · simp [hp, hle]
    · rfl

/-- The lengths passed to `sendto` in a run: none, those received, or one size for all. -/
theorem lengths_sent (h : Runs step w rs w') : (w.sent rs).map (fun d => d.bytes.length) =
    if w.noEcho then []
    else if w.packetSize.bytes = 0 then received rs
    else List.replicate (received rs).length w.packetSize.bytes := by
  apply Runs.trace_induct (P := fun rs _ => (w.sent rs).map (fun d => d.bytes.length) =
    if w.noEcho then []
    else if w.packetSize.bytes = 0 then received rs
    else List.replicate (received rs).length w.packetSize.bytes) _ _ h
  · simp [sent, emitted, received]
  · intro rs u r v hr ih hs
    obtain ⟨he, hp⟩ := runs_config hr
    have hrec : received (rs ++ [r]) = received rs ++ r.received := by simp [received]
    rw [sent, emitted_snoc hr, List.map_append, ← sent, ih, lengths_sendto, he, hp, hrec]
    split
    · rfl
    · split
      · rfl
      · rw [List.length_append, List.replicate_add]

end Worker

/-- **When the counters describe what was sent**, for every configuration and every sequence of
    `recvfrom` results: a silent worker received nothing but empty datagrams, and a fixed response
    size is the average length of what was received. -/
theorem counters_describe_iff (w : Worker) (h0 : w.counter = EchoCounter.zero) {rs : List Round} {w' : Worker}
    (h : Runs Worker.step w rs w') :
    w'.counter = { packetsReceived := (received rs).length, packetsSend := (w.sent rs).length
                   bytesReceived := (received rs).sum
                   bytesSend := (((w.sent rs).map fun d => d.bytes.length).sum : Nat) } ↔
      if w.noEcho then (received rs).sum = 0
      else w.packetSize.bytes = 0 ∨ (received rs).sum = (received rs).length * w.packetSize.bytes := by
  have hlen := congrArg List.length (Worker.lengths_sent h)
  have hsum := congrArg List.sum (Worker.lengths_sent h)
  rw [List.length_map] at hlen
  rw [Worker.runs_count h, h0, hlen, hsum]
  cases w.noEcho
  · by_cases hp : w.packetSize.bytes = 0
    · simp [hp, EchoCounter.zero]
    · simp only [Bool.false_eq_true, if_false, hp, false_or, EchoCounter.zero, Int.zero_add,
        List.length_replicate, List.sum_replicate, smul_eq_mul, EchoCounter.mk.injEq, true_and, Nat.cast_inj]
  · simp only [if_true, EchoCounter.zero, Int.zero_add, List.length_nil, List.sum_nil,
      EchoCounter.mk.injEq, Nat.cast_zero, true_and, Nat.cast_eq_zero]

/-- A round that reads `n` bytes 7. -/
def requestRound (n : Nat) : Round := { recv := some ⟨List.replicate n 7, 1⟩, time := 0, stop := false }

/-- The worker that answers with 32 bytes, after a request of `n` bytes. -/
def afterRequest (n : Nat) : Worker :=
  { worker32 with
    buffer := worker32.buffer.receive (List.replicate n 7), counter := Worker.count false n worker32.counter }

theorem counters_describe_iff_full_request :
    (afterRequest 32).counter =
        { packetsReceived := (received [requestRound 32]).length
          packetsSend := (worker32.sent [requestRound 32]).length
          bytesReceived := (received [requestRound 32]).sum
          bytesSend := (((worker32.sent [requestRound 32]).map fun d => d.bytes.length).sum : Nat) } ↔
      if worker32.noEcho then (received [requestRound 32]).sum = 0
      else worker32.packetSize.bytes = 0 ∨
        (received [requestRound 32]).sum = (received [requestRound 32]).length * worker32.packetSize.bytes :=
  counters_describe_iff worker32 rfl (Runs.single rfl)

/-- One byte is received and 32 are sent, the counter says one. -/
theorem short_request_miscounted : Runs Worker.step worker32 [requestRound 1] (afterRequest 1) ∧
    (afterRequest 1).counter.bytesSend = 1 ∧
    ((worker32.sent [requestRound 1]).map fun d => d.bytes.length).sum = 32 :=
  have hrun : Runs Worker.step worker32 [requestRound 1] (afterRequest 1) := Runs.single rfl
  ⟨hrun, rfl, congrArg List.sum (Worker.lengths_sent hrun)⟩

end UdpPingPong
