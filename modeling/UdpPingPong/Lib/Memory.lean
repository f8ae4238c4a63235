import UdpPingPong.Lib.Buffer

/- Stores into memory, and numbers in network byte order.

   A function that fills a buffer is known by its stores: the address of each and the
   bytes stored. Whether they stay inside the buffer, and what the buffer holds
   afterwards, is said of this list.

   1. `storeAll`: the stores are made, one after the other;
   2. `InBounds n`: no store goes past the address `n`;
   3. `Tiles base ws bs`: each store begins where the last one ended, and together they
      are the bytes `bs`; `storeAll_tiles` says what that does to the memory;
   4. `networkBytes` and `networkNumber`: the highest byte first, with the round trip. -/
namespace Memory

open Wire

/-- An address, and the bytes stored there. -/
abbrev Store := Nat × List UInt8

/-- The bytes are stored over what is there. -/
def store (mem : List UInt8) (w : Store) : List UInt8 :=
  mem.take w.1 ++ (w.2 ++ mem.drop (w.1 + w.2.length))

def storeAll (mem : List UInt8) (ws : List Store) : List UInt8 := ws.foldl store mem

/-- No store goes past the address `n`. -/
def InBounds (n : Nat) (ws : List Store) : Prop := ∀ w ∈ ws, w.1 + w.2.length ≤ n

instance (n : Nat) (ws : List Store) : Decidable (InBounds n ws) :=
  inferInstanceAs (Decidable (∀ w ∈ ws, _))

/-- The stores lie side by side from `base` on, and make up the bytes `bs`. -/
inductive Tiles : Nat → List Store → List UInt8 → Prop where
  | nil (base : Nat) : Tiles base [] []
  | cons {base : Nat} {ws : List Store} {bs : List UInt8} (cs : List UInt8) (h : Tiles (base + cs.length) ws bs) :
      Tiles base ((base, cs) :: ws) (cs ++ bs)

section
variable {n base : Nat} {ws vs : List Store} {bs cs : List UInt8}

theorem inBounds_append : InBounds n (ws ++ vs) ↔ InBounds n ws ∧ InBounds n vs := List.forall_mem_append

theorem Tiles.single (base : Nat) (cs : List UInt8) : Tiles base [(base, cs)] cs := by
  have h := Tiles.cons cs (Tiles.nil (base + cs.length))
  rwa [List.append_nil] at h

theorem Tiles.append (h : Tiles base ws bs) (h' : Tiles (base + bs.length) vs cs) :
    Tiles base (ws ++ vs) (bs ++ cs) := by
  induction h with
  | nil base => exact h'
  | cons ds h ih =>
    rw [List.append_assoc]
    apply Tiles.cons
    apply ih
    rwa [List.length_append, ← Nat.add_assoc] at h'

/-- **Stores side by side are one store.** -/
theorem storeAll_tiles (h : Tiles base ws bs) {mem : List UInt8} (hmem : base + bs.length ≤ mem.length) :
    storeAll mem ws = store mem (base, bs) := by
  induction h generalizing mem with
  | nil base => simp [storeAll, store]
  | @cons base ws bs cs h ih =>
    rw [List.length_append] at hmem
    have hbase : (mem.take base).length = base := by
      rw [List.length_take]
      omega
    have hlen : (store mem (base, cs)).length = mem.length := by
      simp only [store, List.length_append, List.length_take, List.length_drop]
      omega
    have htake : (store mem (base, cs)).take (base + cs.length) = mem.take base ++ cs := by
      rw [store, ← List.append_assoc, List.take_left' (by rw [List.length_append, hbase])]
    have hdrop : (store mem (base, cs)).drop (base + cs.length + bs.length) =
        mem.drop (base + (cs ++ bs).length) := by
      have hfront : (mem.take base ++ cs).length = base + cs.length := by rw [List.length_append, hbase]
      rw [store, ← List.append_assoc, ← List.drop_drop, ← hfront, List.drop_left, hfront, List.drop_drop,
        List.length_append, Nat.add_assoc]
    calc storeAll mem ((base, cs) :: ws)
        = store (store mem (base, cs)) (base + cs.length, bs) := ih (by omega)
      _ = store mem (base, cs ++ bs) := by
        rw [store, htake, hdrop]
        simp only [store, List.append_assoc]

end

/-! ## Network byte order -/

/-- The `k` low bytes of `n`, the highest first. -/
def networkBytes (k n : Nat) : List UInt8 := (bytesOf k n).reverse

def networkNumber (bs : List UInt8) : Nat := numberOf bs.reverse

@[simp] theorem networkBytes_length (k n : Nat) : (networkBytes k n).length = k := by
  rw [networkBytes, List.length_reverse, bytesOf_length]

/-- **The round trip** of a number that fits. -/
theorem networkNumber_networkBytes {k n : Nat} (h : n < 256 ^ k) : networkNumber (networkBytes k n) = n := by
  rw [networkNumber, networkBytes, List.reverse_reverse, numberOf_bytesOf, Nat.mod_eq_of_lt h]

/-- Numbers that fit have different bytes. -/
theorem networkBytes_inj {k n m : Nat} (hn : n < 256 ^ k) (hm : m < 256 ^ k)
    (h : networkBytes k n = networkBytes k m) : n = m := by
  rw [← networkNumber_networkBytes hn, h, networkNumber_networkBytes hm]

end Memory
