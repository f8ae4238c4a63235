import UdpPingPong.Bouncer.Worker
import UdpPingPong.Sender.Receiver

/- One packet on its way from a sender thread to a bouncer worker and back.

   The three components agree on the layout of a packet through byte counts only:
   the minimum size `main` forces on the sender, the two buffers of 4096 bytes, and
   a response size that does not depend on the request. All of them leave the 16
   bytes of the `PACKET` whole. -/
namespace UdpPingPong

open Wire

/-- The `time` field lies in the first 16 bytes. -/
theorem timeField_of_prefix {bs bs' : List UInt8} (h : bs.take sizeofPacket = bs'.take sizeofPacket) :
    timeField bs = timeField bs' := by
  have hfield : ∀ l : List UInt8, timeField l = wordOf ((l.take sizeofPacket).drop 8) := by
    intro l
    rw [timeField, List.drop_take]
    rfl
  rw [hfield, hfield, h]

/-- A reply starts with the `PACKET` of the request. -/
theorem reply_packet {w : Worker} {d r : Datagram} (hd : sizeofPacket ≤ d.bytes.length)
    (h : w.reply d = some r) :
    sizeofPacket ≤ r.bytes.length ∧ r.bytes.take sizeofPacket = d.bytes.take sizeofPacket := by
  have hlen : sizeofPacket ≤ r.bytes.length := by
    rw [Worker.reply_eq] at h
    split at h
    · cases h
    · obtain rfl := Option.some.inj h
      have hok := w.packetSize.ok
      rw [Buffer.front_length, Worker.replyLength]
      simp only [Buffer.received, sizeofPacket] at hd ⊢
      split <;> omega
  exact ⟨hlen, Worker.reply_prefix h hlen hd⟩

/-- What the receiver finds in its buffer is the `PACKET` of the reply. -/
theorem recv_packet (r : Receiver) {d : List UInt8} (hd : sizeofPacket ≤ d.length) :
    (r.recv d).packetTime = timeField d := by
  apply timeField_of_prefix
  apply Buffer.receive_front
  simp only [Buffer.received]
  exact Nat.le_min.mpr ⟨hd, by decide⟩

/-- **The send time survives the round trip**: for every packet size that `main` admits, with or
    without randomising, every payload, every worker and its response size, and every old content
    of the worker's and of the receiver's buffer, the `time` that `countPacket` reads out of the
    reply is the value `sendPacket` wrote into the datagram. -/
theorem round_trip_time (c : Config) (buffer : Buffer c.packetsize) (x : Draw c.packetsize) (w : Worker)
    (client : Nat) (r : Receiver) (reply : Datagram)
    (h : w.reply { bytes := (sendPacket c buffer x).bytes, client } = some reply) :
    (r.recv reply.bytes).packetTime = x.time := by
  have hsize : sizeofPacket ≤ (sendPacket c buffer x).bytes.length := by
    rw [(sendPacket c buffer x).size]
    exact c.packetsize_ok
  obtain ⟨hlen, hprefix⟩ := reply_packet hsize h
  calc (r.recv reply.bytes).packetTime
      = timeField reply.bytes := recv_packet r hlen
    _ = timeField (sendPacket c buffer x).bytes := timeField_of_prefix hprefix
    _ = x.time := sendPacket_time c buffer x

/-- A packet of 512 bytes, sent at a time with the bit pattern 5, and its reply of 32 bytes. -/
def request : Buffer Config.default.packetsize :=
  sendPacket Config.default (Buffer.filled _ 1) { rnd := Buffer.filled _ 2, time := 5, n := 512, errno := 0 }

def shortReply : Datagram := { bytes := (worker32.buffer.receive request.bytes).front 32, client := 1 }

theorem round_trip_time_short_reply :
    ((Receiver.new (Buffer.filled 4096 9)).recv shortReply.bytes).packetTime = 5 :=
  round_trip_time Config.default (Buffer.filled _ 1)
    { rnd := Buffer.filled _ 2, time := 5, n := 512, errno := 0 } worker32 1
    (Receiver.new (Buffer.filled 4096 9)) shortReply (by rw [Worker.reply_eq]; rfl)

end UdpPingPong
