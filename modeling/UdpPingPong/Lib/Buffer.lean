import Mathlib

/- Fixed-size byte buffers and the words in them.

   1. `bytesOf` and `numberOf`: numbers as little-endian bytes, and `wordOf_wordBytes`,
      the round trip of a 64-bit word;
   2. `Buffer cap`: `cap` bytes. `Buffer.receive` is what a socket read does to it,
      `Buffer.write` what a store at an offset does. Both keep everything else, and
      the lemmas say which bytes that is. -/
namespace Wire

/-- The `k` low bytes of `n`, the lowest first. -/
def bytesOf : Nat → Nat → List UInt8
  | 0, _ => []
  | k + 1, n => UInt8.ofNat n :: bytesOf k (n / 256)

def numberOf : List UInt8 → Nat
  | [] => 0
  | b :: bs => b.toNat + 256 * numberOf bs

@[simp] theorem bytesOf_length : ∀ k n, (bytesOf k n).length = k
  | 0, _ => rfl
  | k + 1, n => by rw [bytesOf, List.length_cons, bytesOf_length]

theorem numberOf_bytesOf : ∀ k n, numberOf (bytesOf k n) = n % 256 ^ k
  | 0, n => by simp [bytesOf, numberOf, Nat.mod_one]
  | k + 1, n => by
    have hlow : (UInt8.ofNat n).toNat = n % 256 := UInt8.toNat_ofNat'
    rw [bytesOf, numberOf, numberOf_bytesOf k, hlow, Nat.pow_succ', Nat.mod_mul]

theorem numberOf_append (bs cs : List UInt8) :
    numberOf (bs ++ cs) = numberOf bs + 256 ^ bs.length * numberOf cs := by
  induction bs with
  | nil => simp [numberOf]
  | cons b bs ih =>
    rw [List.cons_append, numberOf, numberOf, ih, List.length_cons]
    ring

theorem numberOf_lt : ∀ bs, numberOf bs < 256 ^ bs.length
  | [] => Nat.one_pos
  | b :: bs => by
    have hb := b.toNat_lt
    have ih := numberOf_lt bs
    rw [numberOf, List.length_cons, Nat.pow_succ']
    omega

/-- A 64-bit word in memory order. -/
def wordBytes (w : UInt64) : List UInt8 := bytesOf 8 w.toNat

def wordOf (bs : List UInt8) : UInt64 := UInt64.ofNat (numberOf bs)

@[simp] theorem wordBytes_length (w : UInt64) : (wordBytes w).length = 8 := bytesOf_length 8 _

@[simp] theorem wordOf_wordBytes (w : UInt64) : wordOf (wordBytes w) = w := by
  have hw : w.toNat % 256 ^ 8 = w.toNat := Nat.mod_eq_of_lt w.toNat_lt
  rw [wordOf, wordBytes, numberOf_bytesOf, hw, UInt64.ofNat_toNat]

/-- A buffer of `cap` bytes. -/
structure Buffer (cap : Nat) where
  bytes : List UInt8
  size : bytes.length = cap
  deriving DecidableEq

namespace Buffer

variable {cap n k off : Nat} {b b' : Buffer cap} {d : List UInt8}

@[ext] theorem ext (h : b.bytes = b'.bytes) : b = b' := by
  cases b; cases b'; simp_all

/-- A buffer full of one byte. -/
def filled (cap : Nat) (x : UInt8) : Buffer cap := ⟨List.replicate cap x, List.length_replicate⟩

/-- A socket read of the datagram `d`: the first `cap` bytes of it are copied to the front of
    the buffer, the rest of the buffer stays as it was. -/
def receive (b : Buffer cap) (d : List UInt8) : Buffer cap :=
  ⟨d.take cap ++ b.bytes.drop d.length, by
    rw [List.length_append, List.length_take, List.length_drop, b.size]; omega⟩

/-- The length such a read returns. -/
def received (cap : Nat) (d : List UInt8) : Nat := min d.length cap

/-- A store of the bytes `bs` at offset `off`; what would lie past the end is dropped. -/
def write (b : Buffer cap) (off : Nat) (bs : List UInt8) : Buffer cap :=
  ⟨b.bytes.take off ++ (bs.take (cap - off) ++ b.bytes.drop (off + bs.length)), by
    simp only [List.length_append, List.length_take, List.length_drop, b.size]; omega⟩

theorem receive_bytes (b : Buffer cap) (d : List UInt8) :
    (b.receive d).bytes = d.take cap ++ b.bytes.drop d.length := rfl

theorem write_bytes (b : Buffer cap) (off : Nat) (bs : List UInt8) : (b.write off bs).bytes =
    b.bytes.take off ++ (bs.take (cap - off) ++ b.bytes.drop (off + bs.length)) := rfl

/-- The first `n` bytes, as they are passed to a socket. -/
def front (b : Buffer cap) (n : Nat) : List UInt8 := b.bytes.take n

@[simp] theorem front_length (b : Buffer cap) (n : Nat) : (b.front n).length = min n cap := by
  rw [front, List.length_take, b.size]

theorem front_front (h : k ≤ n) (b : Buffer cap) : (b.front n).take k = b.front k := by
  rw [front, front, List.take_take, Nat.min_eq_left h]

/-- What was read is what is in the front of the buffer. -/
theorem receive_front (b : Buffer cap) (hk : k ≤ received cap d) : (b.receive d).front k = d.take k := by
  have hlen : k ≤ (d.take cap).length := by
    rw [List.length_take, Nat.min_comm]
    exact hk
  rw [front, receive_bytes, List.take_append_of_le_length hlen, List.take_take, Nat.min_eq_left]
  exact Nat.le_trans hk (Nat.min_le_right _ _)

/-- Behind what was read the buffer still holds what it held before. -/
theorem receive_get (b : Buffer cap) {i : Nat} (hd : d.length ≤ i) (hi : i < cap) :
    (b.receive d).bytes[i]? = b.bytes[i]? := by
  have hlen : (d.take cap).length = d.length := by
    rw [List.length_take]
    omega
  rw [receive_bytes, List.getElem?_append_right (by omega), List.getElem?_drop, hlen]
  congr 1
  omega

/-- A datagram as long as the buffer leaves nothing else in it. -/
theorem receive_filled (b : Buffer cap) (x : UInt8) : b.receive (List.replicate cap x) = filled cap x := by
  apply ext
  rw [receive_bytes, List.drop_eq_nil_of_le (by rw [b.size, List.length_replicate]),
    List.take_of_length_le (by rw [List.length_replicate]), List.append_nil]
  rfl

/-- The bytes before a store stay. -/
theorem write_front (b : Buffer cap) (bs : List UInt8) (h : k ≤ off) (hcap : off ≤ cap) :
    (b.write off bs).front k = b.front k := by
  have hlen : k ≤ (b.bytes.take off).length := by
    rw [List.length_take, b.size, Nat.min_eq_left hcap]
    exact h
  calc (b.write off bs).front k
      = (b.bytes.take off).take k := by
        rw [front, write_bytes, List.take_append_of_le_length hlen]
    _ = b.front k := by rw [List.take_take, Nat.min_eq_left h, front]

/-- What was stored is read back. -/
theorem write_read (b : Buffer cap) {off : Nat} (bs : List UInt8) (h : off + bs.length ≤ cap) :
    ((b.write off bs).bytes.drop off).take bs.length = bs := by
  have hoff : (b.bytes.take off).length = off := by
    rw [List.length_take, b.size]
    omega
  have hbs : bs.take (cap - off) = bs := List.take_of_length_le (by omega)
  rw [write_bytes, hbs, List.drop_left' hoff, List.take_left]

end Buffer

end Wire
