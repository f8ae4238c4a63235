import Mathlib.Algebra.Order.Ring.Rat
import Mathlib.Tactic.Common
import UdpPingPong.Lib.Buffer

/- One packet of a sender thread: `UDPEchoSenderThread::sendPacket`.

   A `PACKET` is 16 bytes, an `int64_t id` and a `double time`; it lies at the front
   of the thread's buffer, which is `packetsize` bytes long. `time` is kept as the
   64-bit pattern of the `double`. `sendPacket` fills the buffer with random bytes if
   asked to, stores the time, sends the buffer and counts the result; nothing else
   writes the buffer, so the id is whatever the last random fill left there. -/
namespace UdpPingPong

open Wire

/-- `sizeof(PACKET)`. -/
def sizeofPacket : Nat := 16

/-- The fields `id` and `time` of the `PACKET` at the front of some bytes. -/
def idField (bs : List UInt8) : UInt64 := wordOf (bs.take 8)

def timeField (bs : List UInt8) : UInt64 := wordOf ((bs.drop 8).take 8)

/-- The packet size `UDPSender::main` makes of its `-p` argument. -/
def admitPacketsize (arg : Int) : Nat :=
  let size := if arg = 0 then 512 else arg
  (if size < sizeofPacket then (sizeofPacket : Int) else size).toNat

theorem admitPacketsize_ge (arg : Int) : sizeofPacket ≤ admitPacketsize arg := by
  simp only [admitPacketsize, sizeofPacket]
  split <;> split <;> omega

/-- What `UDPSender::prepareThreads` gives to every thread. The packet size is one that `main`
    admits, so a `PACKET` fits into the buffer. -/
structure Config where
  packetsize : Nat
  runtime : Int
  timeout : Int
  zeitscheibe : ℚ
  ignoreResponses : Bool
  alwaysRandomize : Bool
  verbose : Bool := false
  packetsize_ok : sizeofPacket ≤ packetsize

/-- What `main` makes of no arguments but a target: ten seconds, slices of one millisecond. -/
def Config.default : Config :=
  { packetsize := admitPacketsize 0, runtime := 10, timeout := 5, zeitscheibe := 1 / 1000
    ignoreResponses := false, alwaysRandomize := false, packetsize_ok := admitPacketsize_ge 0 }

/-- The counters of a thread. -/
structure SendCounter where
  counterSend : Int
  counter0Bytes : Int
  errors : Int
  counterErrorcodes : Vector Int 255
  deriving DecidableEq

def SendCounter.zero : SendCounter :=
  { counterSend := 0, counter0Bytes := 0, errors := 0, counterErrorcodes := Vector.replicate 255 0 }

/-- The result `n` of `::send` is counted. -/
def SendCounter.count (s : SendCounter) (packetsize : Nat) (n : Int) (errno : Nat) : SendCounter :=
  if 0 < n ∧ n = packetsize then { s with counterSend := s.counterSend + 1 }
  else if n < 0 then
    { s with
      errors := s.errors + 1
      counterErrorcodes :=
        if h : errno < 255 then s.counterErrorcodes.set errno (s.counterErrorcodes[errno] + 1)
        else s.counterErrorcodes }
  else { s with counter0Bytes := s.counter0Bytes + 1 }

theorem SendCounter.count_counterSend (s : SendCounter) {packetsize : Nat} (hp : 0 < packetsize)
    (n : Int) (errno : Nat) : (s.count packetsize n errno).counterSend =
      s.counterSend + if n = packetsize then 1 else 0 := by
  unfold count
  by_cases hn : n = packetsize
  · rw [if_pos ⟨by omega, hn⟩, if_pos hn]
  · rw [if_neg (fun h => hn h.2), if_neg hn]
    split <;> simp

/-- What one `sendPacket` reads from its environment: the random bytes, if it draws them, the
    clock, and the result of `::send`. -/
structure Draw (size : Nat) where
  rnd : Buffer size
  time : UInt64
  n : Int
  errno : Nat
  deriving DecidableEq

/-- `::send` took the datagram: it is all or nothing. -/
def Draw.Accepted {size : Nat} (x : Draw size) : Prop := x.n = size

instance {size : Nat} (x : Draw size) : Decidable x.Accepted := inferInstanceAs (Decidable (_ = _))

/-- The buffer as `sendPacket` passes it to `::send`, and leaves it. -/
def sendPacket (c : Config) (buffer : Buffer c.packetsize) (x : Draw c.packetsize) : Buffer c.packetsize :=
  let p := if c.alwaysRandomize then x.rnd else buffer
  p.write 8 (wordBytes x.time)

section
variable (c : Config) (buffer : Buffer c.packetsize) (x : Draw c.packetsize)

/-- **The time of a packet** is the clock reading of the call that sent it. -/
theorem sendPacket_time : timeField (sendPacket c buffer x).bytes = x.time := by
  have hread := Buffer.write_read (if c.alwaysRandomize then x.rnd else buffer) (wordBytes x.time)
    c.packetsize_ok
  rw [wordBytes_length] at hread
  rw [timeField, sendPacket, hread, wordOf_wordBytes]

/-- **The id of a packet** is the front of the last random fill: no counter is involved. -/
theorem sendPacket_id : idField (sendPacket c buffer x).bytes =
    idField (if c.alwaysRandomize then x.rnd else buffer).bytes := by
  have hcap : 8 ≤ c.packetsize := Nat.le_trans (by decide) c.packetsize_ok
  have hfront := Buffer.write_front (if c.alwaysRandomize then x.rnd else buffer) (wordBytes x.time)
    (Nat.le_refl 8) hcap
  exact congrArg wordOf hfront

end

end UdpPingPong
