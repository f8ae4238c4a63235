import UdpPingPong.Lib.Double
import UdpPingPong.Sender.Rtt

/- What a round trip time depends on.

   A receiver reads every datagram into the same buffer and takes the time of a packet
   from the bytes 8 to 15 of it, however many of them came with the datagram. The length
   that `recv` returns is used for the byte counter only.

   1. `sample_of_covered`: a datagram with a whole header determines its sample;
   2. `timeField_bounds`: the last byte of the time is the first one of the number;
   3. `sample_leaks`: without it two histories show in the sample;
   4. `sample_independent_iff`: the sample depends on the datagram and the clock only,
      exactly when the datagram has a whole header. -/
namespace UdpPingPong

open Exec Wire

namespace Receiver

variable {value : UInt64 → ℚ} {r r' : Receiver}

/-- **The sample of a datagram is its own**: whatever the receiver `r` has read before, the datagram
    `d` adds the same round trip time, or none. -/
def SampleIndependent (value : UInt64 → ℚ) (r : Receiver) (d : List UInt8) : Prop :=
  ∀ h₁ h₂ r₁ r₂, Runs (step value) r h₁ r₁ → Runs (step value) r h₂ r₂ → r₁.pc = .running → r₂.pc = .running →
    ∀ (microtime : ℚ) (time : Int) (stop : Bool),
      sample value r₁ (.round (some d) microtime time stop) = sample value r₂ (.round (some d) microtime time stop)

/-! ## A whole header -/

/-- The time of a packet lies in its first 16 bytes. -/
theorem packetTime_eq (r : Receiver) : r.packetTime = timeField (r.recbuffer.front sizeofPacket) := by
  rw [packetTime, timeField, timeField, Buffer.front, List.drop_take, List.take_take]
  rfl

theorem sample_of_covered {d : List UInt8} (hd : sizeofPacket ≤ d.length) (r₁ r₂ : Receiver) (microtime : ℚ)
    (time : Int) (stop : Bool) :
    sample value r₁ (.round (some d) microtime time stop) = sample value r₂ (.round (some d) microtime time stop) := by
  have hcovered : sizeofPacket ≤ Buffer.received 4096 d := Nat.le_min.mpr ⟨hd, by decide⟩
  have htime : ∀ r : Receiver, (r.recv d).packetTime = timeField (d.take sizeofPacket) := by
    intro r
    rw [packetTime_eq, recv, Buffer.receive_front _ hcovered]
  simp only [sample, rtt, htime]

/-! ## A part of a header -/

/-- The last byte of the time is the highest one of its word. -/
theorem timeField_bounds {bs : List UInt8} {x : UInt8} (hx : bs[15]? = some x) :
    x.toNat * 2 ^ 56 ≤ (timeField bs).toNat ∧ (timeField bs).toNat < (x.toNat + 1) * 2 ^ 56 := by
  obtain ⟨hlen, hget⟩ := List.getElem?_eq_some_iff.mp hx
  have hsplit : (bs.drop 8).take 8 = (bs.drop 8).take 7 ++ [x] := by
    rw [List.take_add_one, List.getElem?_drop, hx]
    rfl
  have hlow : ((bs.drop 8).take 7).length = 7 := by
    rw [List.length_take, List.length_drop]
    omega
  have hlt := numberOf_lt ((bs.drop 8).take 7)
  have hx' := x.toNat_lt
  have hnum : numberOf ((bs.drop 8).take 8) = numberOf ((bs.drop 8).take 7) + 2 ^ 56 * x.toNat := by
    rw [hsplit, numberOf_append, hlow, numberOf, numberOf]
    ring
  rw [hlow] at hlt
  rw [timeField, wordOf, UInt64.toNat_ofNat', hnum, Nat.mod_eq_of_lt (by omega)]
  omega

/-- A history that leaves the byte `x` everywhere in the buffer. -/
def flush (x : UInt8) : List ReceiverEv := [.run 0, .round (some (List.replicate 4096 x)) 0 0 false]

theorem flush_runs (value : UInt64 → ℚ) (hpc : r.pc = .starting) (x : UInt8) :
    ∃ r', Runs (step value) r (flush x) r' ∧ r'.pc = .running ∧ r'.recbuffer = Buffer.filled 4096 x := by
  let s : Receiver := { r.resetCounter with pc := .running, nextCheck := 1 }
  have hrun : step value r (.run 0) = some s := by
    rw [step.eq_def, hpc]
    rfl
  -- the next check is not due yet
  have hround : step value s (.round (some (List.replicate 4096 x)) 0 0 false) =
      some (countPacket value (s.recv (List.replicate 4096 x)) (Buffer.received 4096 (List.replicate 4096 x)) 0) := by
    rw [step.eq_def]
    exact congrArg some (if_neg (show ¬ (1 : Int) ≤ 0 by decide))
  exact ⟨_, runs_cons.mpr ⟨s, hrun, Runs.single hround⟩, rfl, s.recbuffer.receive_filled x⟩

/-- The time in a buffer that holds `x` behind a part of a header. -/
theorem packetTime_bounds {d : List UInt8} (hd : d.length < sizeofPacket) {x : UInt8}
    (hr : r.recbuffer = Buffer.filled 4096 x) :
    x.toNat * 2 ^ 56 ≤ (r.recv d).packetTime.toNat ∧ (r.recv d).packetTime.toNat < (x.toNat + 1) * 2 ^ 56 := by
  apply timeField_bounds
  show (r.recbuffer.receive d).bytes[15]? = some x
  rw [Buffer.receive_get _ (Nat.le_of_lt_succ hd) (by decide), hr]
  exact List.getElem?_replicate_of_lt (by decide)

/-- **The leak**: behind a part of a header old bytes are taken for the time. Two histories make its
    highest byte 0 and 63, and so the time a smaller number and a larger one. -/
theorem sample_leaks (hvalue : Double.Reads value) (hpc : r.pc = .starting) {d : List UInt8}
    (hd : d.length < sizeofPacket) : ¬ SampleIndependent value r d := by
  intro h
  obtain ⟨r₁, hr₁, hpc₁, hb₁⟩ := flush_runs value hpc 0
  obtain ⟨r₂, hr₂, hpc₂, hb₂⟩ := flush_runs value hpc 63
  have hsame := h _ _ r₁ r₂ hr₁ hr₂ hpc₁ hpc₂ 0 0 false
  obtain ⟨-, hsmall⟩ := packetTime_bounds hd hb₁
  obtain ⟨hlarge, hfinite⟩ := packetTime_bounds hd hb₂
  have hlt : value (r₁.recv d).packetTime < value (r₂.recv d).packetTime := by
    apply hvalue.lt
    · exact Nat.lt_of_lt_of_le hsmall (Nat.le_trans (by decide) hlarge)
    · exact Nat.lt_of_lt_of_le hfinite (by decide)
  simp only [sample, rtt, List.cons.injEq, and_true] at hsame
  linarith

end Receiver

/-- **When a sample depends on nothing but the packet counted**: the datagram has a whole header. -/
theorem sample_independent_iff {value : UInt64 → ℚ} (hvalue : Double.Reads value) {r : Receiver}
    (hpc : r.pc = .starting) (d : List UInt8) :
    Receiver.SampleIndependent value r d ↔ sizeofPacket ≤ d.length := by
  refine ⟨?_, ?_⟩
  · intro h
    by_contra hd
    exact Receiver.sample_leaks hvalue hpc (not_le.mp hd) h
  · intro hd h₁ h₂ r₁ r₂ _ _ _ _ microtime time stop
    exact Receiver.sample_of_covered hd r₁ r₂ microtime time stop

/-- The numbers of the finite patterns, and 0 for the others. -/
def doubleValue (w : UInt64) : ℚ := (Double.value w).getD 0

theorem doubleValue_reads : Double.Reads doubleValue := by
  intro w x h
  rw [doubleValue, h]
  rfl

theorem sample_independent_iff_header : Receiver.SampleIndependent doubleValue startedReceiver (List.replicate 16 7) ↔
    sizeofPacket ≤ (List.replicate 16 (7 : UInt8)).length :=
  sample_independent_iff doubleValue_reads rfl (List.replicate 16 7)

/-- An empty datagram is counted with the time of a packet before it. -/
theorem empty_datagram_leaks : ¬ Receiver.SampleIndependent doubleValue startedReceiver [] :=
  Receiver.sample_leaks doubleValue_reads rfl (by decide)

end UdpPingPong
