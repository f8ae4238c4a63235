import Mathlib.Algebra.Order.Ring.Rat
import UdpPingPong.Lib.Exec
import UdpPingPong.Sender.Packet

/- The receiver of a sender thread: `UDPEchoReceiverThread`.

   It reads replies from the thread's socket into a buffer of 4096 bytes and counts
   them. The round trip time of a packet is the clock reading minus the `time` field
   of the `PACKET` at the front of the buffer; `value` is the number a `double`'s bit
   pattern stands for, and the arithmetic on these numbers is exact. -/
namespace UdpPingPong

open Exec Wire

/-- Whether the thread exists, and whether it has entered `run`. -/
inductive ReceiverPc where
  | off | starting | running
  deriving DecidableEq, Repr

/-- A receiver object, with the local variable of its loop. -/
structure Receiver where
  pc : ReceiverPc
  recbuffer : Buffer 4096
  counterReceived : Int
  bytesReceived : Int
  rttTotal : ℚ
  rttMin : ℚ
  rttMax : ℚ
  nextCheck : Int
  deriving DecidableEq

/-- What a receiver reads: the clock when it enters `run`; in a round of its loop the result of
    `recv` (`none` for an error), the clocks, and the answer of `threadShouldStop`. -/
inductive ReceiverEv where
  | run (time : Int)
  | round (recv : Option (List UInt8)) (microtime : ℚ) (time : Int) (stop : Bool)

namespace Receiver

/-- All counters are 0. -/
def resetCounter (r : Receiver) : Receiver :=
  { r with counterReceived := 0, bytesReceived := 0, rttTotal := 0, rttMin := 0, rttMax := 0 }

/-- A receiver as its constructor leaves it, around the buffer it allocated. -/
def new (recbuffer : Buffer 4096) : Receiver :=
  { pc := .off, recbuffer, counterReceived := 0, bytesReceived := 0
    rttTotal := 0, rttMin := 0, rttMax := 0, nextCheck := 0 }

/-- The thread is created. `none` when it is running: nothing catches the exception, and the program
    ends. -/
def threadStart (r : Receiver) : Option Receiver := if r.pc = .running then none else some { r with pc := .starting }

/-- `recv` puts a datagram into the buffer. -/
def recv (r : Receiver) (d : List UInt8) : Receiver := { r with recbuffer := r.recbuffer.receive d }

/-- The `time` of the `PACKET` in the buffer. -/
def packetTime (r : Receiver) : UInt64 := timeField r.recbuffer.bytes

section
variable (value : UInt64 → ℚ)

/-- The round trip time of the packet in the buffer when the clock is `microtime`. -/
def rtt (r : Receiver) (microtime : ℚ) : ℚ := microtime - value r.packetTime

/-- The packet in the buffer is counted: `bytes` of it were read when the clock was `microtime`. -/
def countPacket (r : Receiver) (bytes : Nat) (microtime : ℚ) : Receiver :=
  let rtt := r.rtt value microtime
  { r with
    counterReceived := r.counterReceived + 1
    bytesReceived := r.bytesReceived + bytes
    rttTotal := r.rttTotal + rtt
    rttMin := if r.rttMin = 0 then rtt else if rtt < r.rttMin then rtt else r.rttMin
    rttMax := if r.rttMax < rtt then rtt else r.rttMax }

/-- The end of a round. -/
def check (r : Receiver) (time : Int) (stop : Bool) : Receiver :=
  if r.nextCheck ≤ time then
    { r with nextCheck := r.nextCheck + 1, pc := if stop then .off else .running }
  else r

def step (r : Receiver) (e : ReceiverEv) : Option Receiver :=
  match r.pc, e with
  | .starting, .run time => some { r.resetCounter with pc := .running, nextCheck := time + 1 }
  | .running, .round (some d) microtime time stop =>
    some (check (countPacket value (r.recv d) (Buffer.received 4096 d) microtime) time stop)
  | .running, .round none _ time stop => some (r.check time stop)
  | _, _ => none

end

variable {value : UInt64 → ℚ} {r r' : Receiver} {e : ReceiverEv}

theorem threadStart_eq (h : r.threadStart = some r') : r' = { r with pc := .starting } := by
  unfold threadStart at h
  split at h
  · cases h
  · exact (Option.some.inj h).symm

@[simp] theorem check_counterReceived (r : Receiver) (time : Int) (stop : Bool) :
    (r.check time stop).counterReceived = r.counterReceived := by
  unfold check
  split <;> rfl

/-- What one step does to the counter: entering `run` clears it, each datagram adds one. -/
theorem step_counterReceived (h : step value r e = some r') : r'.counterReceived = match e with
    | .run _ => 0
    | .round (some _) _ _ _ => r.counterReceived + 1
    | .round none _ _ _ => r.counterReceived := by
  unfold step at h
  split at h
  · obtain rfl := Option.some.inj h
    rfl
  · obtain rfl := Option.some.inj h
    rw [check_counterReceived]
    rfl
  · obtain rfl := Option.some.inj h
    exact check_counterReceived _ _ _
  · cases h

end Receiver

end UdpPingPong
