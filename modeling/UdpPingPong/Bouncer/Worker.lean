import UdpPingPong.Lib.Buffer
import UdpPingPong.Lib.Exec

/- A bouncer worker: `UDPEchoBouncerThread::run`.

   One round of its loop reads a datagram into the worker's buffer, answers it,
   counts it, and once a second looks for a stop request. The buffer is allocated
   once and never cleared, so a fixed response size longer than the datagram sends
   out what earlier datagrams left behind.

   1. `Worker.runs_config`: rounds leave the configuration alone;
   2. `Worker.reply_prefix`: what of a reply comes from the datagram it answers;
   3. `reply_independent_iff`: the reply depends on the datagram and the
      configuration only, exactly when nothing is echoed or the response size is
      covered by the datagram;
   4. `echo_faithful_iff`: the reply has the size and the bytes it should have, exactly
      for a fixed response size and for datagrams that fit into the buffer. -/
namespace UdpPingPong

open Exec Wire

/-- The four counters of a `UDPEchoCounter`. They are of 64 bits there and counted without a bound here:
    to get to 2^63 bytes takes a worker years. -/
structure EchoCounter where
  packetsReceived : Int
  packetsSend : Int
  bytesReceived : Int
  bytesSend : Int
  deriving DecidableEq, Repr

def EchoCounter.zero : EchoCounter :=
  { packetsReceived := 0, packetsSend := 0, bytesReceived := 0, bytesSend := 0 }

/-- A response size a worker can have: 0 for the size of the request, or 32 to 4096. -/
structure ResponseSize where
  bytes : Nat
  ok : bytes = 0 ∨ 32 ≤ bytes ∧ bytes ≤ 4096
  deriving DecidableEq

theorem ResponseSize.le_buffer (s : ResponseSize) : s.bytes ≤ 4096 := by
  have := s.ok
  omega

/-- A datagram with the address of the client it comes from, or goes to. -/
structure Datagram where
  bytes : List UInt8
  client : Nat
  deriving DecidableEq, Repr

/-- What one round of the loop reads: the result of `recvfrom` (`none` for an error), the clock,
    and the answer of `threadShouldStop`, if it is asked. -/
structure Round where
  recv : Option Datagram
  time : Int
  stop : Bool
  deriving DecidableEq, Repr

/-- A worker object, with the local variables of its loop. -/
structure Worker where
  noEcho : Bool
  packetSize : ResponseSize
  buffer : Buffer 4096
  counter : EchoCounter
  nextCheck : Int
  left : Bool
  deriving DecidableEq

namespace Worker

/-- A worker as its constructor leaves it, around the buffer it allocated. -/
def new (buffer : Buffer 4096) : Worker :=
  { noEcho := false, packetSize := ⟨0, .inl rfl⟩, buffer, counter := EchoCounter.zero
    nextCheck := 0, left := false }

def setNoEcho (w : Worker) (flag : Bool) : Worker := { w with noEcho := flag }

/-- A size out of range leaves the worker as it is. -/
def setPacketSize (w : Worker) (bytes : Nat) : Worker :=
  if h : (bytes ≤ 4096 ∧ 32 ≤ bytes) ∨ bytes = 0 then
    { w with packetSize := ⟨bytes, by omega⟩ }
  else w

/-- The head of `run`: the first check is due in a second. -/
def enter (w : Worker) (start : Int) : Worker := { w with nextCheck := start + 1, left := false }

/-- What is passed to `sendto` for the datagram just read, of which `n` bytes are in the buffer. -/
def answer (w : Worker) (n client : Nat) : Option Datagram :=
  if w.noEcho then none
  else if w.packetSize.bytes = 0 then some { bytes := w.buffer.front n, client }
  else some { bytes := w.buffer.front w.packetSize.bytes, client }

/-- `recvfrom` puts the datagram into the buffer. -/
def recvfrom (w : Worker) (d : Datagram) : Worker := { w with buffer := w.buffer.receive d.bytes }

/-- The reply to `d`. -/
def reply (w : Worker) (d : Datagram) : Option Datagram :=
  (w.recvfrom d).answer (Buffer.received 4096 d.bytes) d.client

/-- The four assignments behind the reply, for a datagram of which `n` bytes were read. -/
def count (noEcho : Bool) (n : Nat) (c : EchoCounter) : EchoCounter :=
  let c := { c with bytesSend := c.bytesSend + n }
  let c := if noEcho then c else { c with packetsSend := c.packetsSend + 1 }
  let c := { c with bytesReceived := c.bytesReceived + n }
  { c with packetsReceived := c.packetsReceived + 1 }

/-- The end of a round. -/
def check (w : Worker) (time : Int) (stop : Bool) : Worker :=
  if w.nextCheck ≤ time then { w with nextCheck := w.nextCheck + 1, left := stop } else w

/-- One round of the loop. -/
def step (w : Worker) (r : Round) : Option Worker :=
  if w.left then none
  else some <| match r.recv with
    | some d =>
      let w := w.recvfrom d
      check { w with counter := count w.noEcho (Buffer.received 4096 d.bytes) w.counter } r.time r.stop
    | none => w.check r.time r.stop

variable {w w' : Worker} {d : Datagram}

/-- Rounds leave the configuration alone. -/
theorem step_config {r : Round} (h : step w r = some w') :
    w'.noEcho = w.noEcho ∧ w'.packetSize = w.packetSize := by
  unfold step at h
  split at h
  · cases h
  · obtain rfl := Option.some.inj h
    cases r.recv <;> simp only [check] <;> split <;> exact ⟨rfl, rfl⟩

theorem runs_config {rs : List Round} (h : Runs step w rs w') :
    w'.noEcho = w.noEcho ∧ w'.packetSize = w.packetSize := by
  refine h.invariant (I := fun v => v.noEcho = w.noEcho ∧ v.packetSize = w.packetSize) ⟨rfl, rfl⟩ ?_
  intro u r v hu hs
  obtain ⟨he, hp⟩ := step_config hs
  exact ⟨he.trans hu.1, hp.trans hu.2⟩

/-- How many bytes the reply to `d` has. -/
def replyLength (w : Worker) (d : Datagram) : Nat :=
  if w.packetSize.bytes = 0 then Buffer.received 4096 d.bytes else w.packetSize.bytes

theorem reply_eq (w : Worker) (d : Datagram) : w.reply d =
    if w.noEcho then none
    else some { bytes := (w.buffer.receive d.bytes).front (w.replyLength d), client := d.client } := by
  by_cases he : w.noEcho = true
  · simp only [reply, answer, recvfrom, he, if_true]
  · by_cases hp : w.packetSize.bytes = 0 <;>
      simp only [reply, answer, recvfrom, replyLength, he, hp, if_false, if_true, Bool.false_eq_true]

/-- **What of a reply is the request**: as many bytes as both of them have. -/
theorem reply_prefix {r : Datagram} (h : w.reply d = some r) {k : Nat} (hk : k ≤ r.bytes.length)
    (hd : k ≤ d.bytes.length) : r.bytes.take k = d.bytes.take k := by
  rw [reply_eq] at h
  split at h
  · cases h
  · obtain rfl := Option.some.inj h
    rw [Buffer.front_length] at hk
    rw [Buffer.front_front (by omega), Buffer.receive_front]
    simp only [Buffer.received]
    omega

end Worker

/-! ## What a reply depends on -/

/-- Whatever the worker `w` has received before, its reply to `d` is the same. -/
def ReplyIndependent (w : Worker) (d : Datagram) : Prop :=
  ∀ h₁ h₂ w₁ w₂, Runs Worker.step w h₁ w₁ → Runs Worker.step w h₂ w₂ →
    w₁.left = false → w₂.left = false → w₁.reply d = w₂.reply d

/-- A reply of the datagram's length at most shows nothing else. -/
theorem reply_of_covered {w₁ w₂ : Worker} {d : Datagram} (he : w₁.noEcho = w₂.noEcho)
    (hp : w₁.packetSize = w₂.packetSize) (hd : w₁.packetSize.bytes ≤ d.bytes.length) :
    w₁.reply d = w₂.reply d := by
  have hle : w₁.replyLength d ≤ Buffer.received 4096 d.bytes := by
    have := w₁.packetSize.le_buffer
    simp only [Worker.replyLength, Buffer.received]
    split <;> omega
  have hlen : w₁.replyLength d = w₂.replyLength d := by simp only [Worker.replyLength, hp]
  rw [Worker.reply_eq, Worker.reply_eq, he, ← hlen, Buffer.receive_front _ hle, Buffer.receive_front _ hle]

/-- A history that leaves the byte `x` everywhere in the buffer. -/
def flushRound (w : Worker) (x : UInt8) : Round :=
  { recv := some { bytes := List.replicate 4096 x, client := 0 }, time := w.nextCheck - 1, stop := false }

theorem flush_runs (w : Worker) (hw : w.left = false) (x : UInt8) :
    ∃ w', Runs Worker.step w [flushRound w x] w' ∧ w'.left = false ∧
      w'.buffer = Buffer.filled 4096 x := by
  have hfull := w.buffer.receive_filled x
  have hlate : ¬ w.nextCheck ≤ w.nextCheck - 1 := by omega
  have hstep : Worker.step w (flushRound w x) = some
      { w with buffer := Buffer.filled 4096 x
               counter := Worker.count w.noEcho (Buffer.received 4096 (List.replicate 4096 x)) w.counter } := by
    simp only [Worker.step, hw, flushRound, Worker.recvfrom, Worker.check, hfull, hlate, if_false,
      Bool.false_eq_true]
  exact ⟨_, Runs.single hstep, hw, rfl⟩

/-- **The leak**: a reply longer than the datagram shows a byte of what came before. -/
theorem reply_leaks {w : Worker} {d : Datagram} (hw : w.left = false) (he : w.noEcho = false)
    (hd : d.bytes.length < w.packetSize.bytes) : ¬ ReplyIndependent w d := by
  intro h
  obtain ⟨w₁, hr₁, hl₁, hb₁⟩ := flush_runs w hw 0
  obtain ⟨w₂, hr₂, hl₂, hb₂⟩ := flush_runs w hw 1
  have hle := w.packetSize.le_buffer
  -- The first byte behind the datagram.
  have hbyte : ∀ w' : Worker, w'.noEcho = w.noEcho ∧ w'.packetSize = w.packetSize → ∀ x,
      w'.buffer = Buffer.filled 4096 x → ∃ r, w'.reply d = some r ∧ r.bytes[d.bytes.length]? = some x := by
    intro w' hsame x hb
    obtain ⟨he', hp'⟩ := hsame
    have hlen : d.bytes.length < w'.replyLength d := by
      rw [Worker.replyLength, hp', if_neg (by omega)]
      exact hd
    refine ⟨_, by rw [Worker.reply_eq, he', he, if_neg Bool.false_ne_true], ?_⟩
    rw [Buffer.front, List.getElem?_take_of_lt hlen, Buffer.receive_get _ (le_refl _) (by omega), hb]
    exact List.getElem?_replicate_of_lt (by omega)
  obtain ⟨r₁, hreply₁, hx₁⟩ := hbyte w₁ (Worker.runs_config hr₁) 0 hb₁
  obtain ⟨r₂, hreply₂, hx₂⟩ := hbyte w₂ (Worker.runs_config hr₂) 1 hb₂
  have hsame := h _ _ w₁ w₂ hr₁ hr₂ hl₁ hl₂
  rw [hreply₁, hreply₂] at hsame
  obtain rfl := Option.some.inj hsame
  rw [hx₁] at hx₂
  exact absurd hx₂ (by decide)

/-- **When no information flows** from one client's packet into another client's reply: nothing is
    echoed, or the response size is at most the length of the datagram (or 0). -/
theorem reply_independent_iff (w : Worker) (d : Datagram) (hw : w.left = false) :
    ReplyIndependent w d ↔ w.noEcho = true ∨ w.packetSize.bytes ≤ d.bytes.length := by
  refine ⟨?_, ?_⟩
  · intro h
    by_contra hne
    obtain ⟨he, hd⟩ := not_or.mp hne
    exact reply_leaks hw (by simpa using he) (by omega) h
  · intro h h₁ h₂ w₁ w₂ hr₁ hr₂ _ _
    obtain ⟨he₁, hp₁⟩ := Worker.runs_config hr₁
    obtain ⟨he₂, hp₂⟩ := Worker.runs_config hr₂
    rcases h with he | hd
    · rw [Worker.reply_eq, Worker.reply_eq, he₁, he₂, he]
      rfl
    · exact reply_of_covered (he₁.trans he₂.symm) (hp₁.trans hp₂.symm) (by rw [hp₁]; exact hd)

/-- A worker that answers with 32 bytes. -/
def worker32 : Worker := ((Worker.new (Buffer.filled 4096 0)).setPacketSize 32).enter 0

theorem reply_independent_iff_full_request :
    ReplyIndependent worker32 ⟨List.replicate 32 7, 1⟩ ↔
      worker32.noEcho = true ∨ worker32.packetSize.bytes ≤ (List.replicate 32 (7 : UInt8)).length :=
  reply_independent_iff worker32 ⟨List.replicate 32 7, 1⟩ rfl

/-- It answers one byte with 31 bytes of an earlier packet. -/
theorem short_request_leaks : ¬ ReplyIndependent worker32 ⟨[7], 1⟩ :=
  reply_leaks rfl rfl (by decide)

/-! ## What a reply is -/

/-- **The echo is faithful**: without a response size the reply is the datagram `d`; with one it has
    that size, and what both of them have of the datagram. -/
def EchoFaithful (w : Worker) (d : Datagram) : Prop :=
  ∃ r, w.reply d = some r ∧ r.client = d.client ∧
    (w.packetSize.bytes = 0 → r.bytes = d.bytes) ∧
    (w.packetSize.bytes ≠ 0 → r.bytes.length = w.packetSize.bytes ∧
      r.bytes.take (min d.bytes.length w.packetSize.bytes) = d.bytes.take (min d.bytes.length w.packetSize.bytes))

/-- The reply of a worker that echoes. -/
theorem reply_of_echo {w : Worker} (he : w.noEcho = false) (d : Datagram) :
    w.reply d = some { bytes := (w.buffer.receive d.bytes).front (w.replyLength d), client := d.client } := by
  rw [Worker.reply_eq, he, if_neg Bool.false_ne_true]

/-- Without a response size a datagram is cut off at the size of the buffer. -/
theorem echo_length {w : Worker} {d : Datagram} (hp : w.packetSize.bytes = 0) :
    ((w.buffer.receive d.bytes).front (w.replyLength d)).length = min d.bytes.length 4096 := by
  rw [Buffer.front_length, Worker.replyLength, if_pos hp, Buffer.received]
  omega

/-- Without a response size the echo of a datagram that does not fit into the buffer is shorter. -/
theorem not_echoFaithful {w : Worker} {d : Datagram} (he : w.noEcho = false) (hp : w.packetSize.bytes = 0)
    (hd : 4096 < d.bytes.length) : ¬ EchoFaithful w d := by
  intro h
  obtain ⟨r, hr, -, hsame, -⟩ := h
  rw [reply_of_echo he] at hr
  obtain rfl := Option.some.inj hr
  have hlen := congrArg List.length (hsame hp)
  rw [echo_length hp] at hlen
  omega

/-- **When the echo is faithful**: a response size is set, or the datagram fits into the buffer. -/
theorem echo_faithful_iff (w : Worker) (d : Datagram) (he : w.noEcho = false) :
    EchoFaithful w d ↔ w.packetSize.bytes ≠ 0 ∨ d.bytes.length ≤ 4096 := by
  have hreply := reply_of_echo he d
  refine ⟨?_, ?_⟩
  · intro h
    by_contra hnot
    obtain ⟨hp, hd⟩ := not_or.mp hnot
    exact not_echoFaithful he (not_not.mp hp) (by omega) h
  · intro h
    refine ⟨_, hreply, rfl, ?_, ?_⟩
    · intro hp
      have hlen := h.resolve_left (not_not.mpr hp)
      -- all of the reply comes from the datagram
      have hprefix := Worker.reply_prefix hreply (k := d.bytes.length) (by rw [echo_length hp]; omega) (le_refl _)
      rwa [List.take_of_length_le (by rw [echo_length hp]; omega), List.take_length] at hprefix
    · intro hp
      have hsize := w.packetSize.le_buffer
      have hlen : ((w.buffer.receive d.bytes).front (w.replyLength d)).length = w.packetSize.bytes := by
        rw [Buffer.front_length, Worker.replyLength, if_neg hp]
        omega
      exact ⟨hlen, Worker.reply_prefix hreply (by rw [hlen]; omega) (by omega)⟩

/-- A worker that answers with the size of the request. -/
def plainWorker : Worker := (Worker.new (Buffer.filled 4096 0)).enter 0

theorem echo_faithful_iff_short_datagram : EchoFaithful plainWorker ⟨[1, 2, 3], 1⟩ ↔
    plainWorker.packetSize.bytes ≠ 0 ∨ [(1 : UInt8), 2, 3].length ≤ 4096 :=
  echo_faithful_iff plainWorker ⟨[1, 2, 3], 1⟩ rfl

/-- Of a datagram of 4097 bytes the last one is lost. -/
theorem long_datagram_cut_off : ¬ EchoFaithful plainWorker ⟨List.replicate 4097 7, 1⟩ := by
  apply not_echoFaithful rfl rfl
  show 4096 < (List.replicate 4097 (7 : UInt8)).length
  rw [List.length_replicate]
  decide

end UdpPingPong
