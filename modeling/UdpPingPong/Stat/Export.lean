import UdpPingPong.Lib.Memory
import UdpPingPong.Stat.AssocArray

/- The binary export of an associative array: `AssocArray::exportBinary` and `binarySize`.

   The export runs through the tree with a position `p`. It stores what there is room for
   in a buffer and counts on where there is none; without a buffer it only counts. Every
   check is made before a store and asks for more room than the store takes.

   1. `image`: the bytes of an export; `exportBinary`: the stores the code makes, and the
      size it returns, or none where it throws;
   2. `export_exact`: the exception comes exactly where the buffer is too small, and into one
      that is not the code stores exactly the bytes of the export;
   3. `export_in_bounds_iff`: the stores stay inside a buffer of every size exactly for arrays
      without an array in them: the room left for one is computed without a sign. -/
namespace UdpPingPong

open Memory

namespace CString

/-- The byte of a character. -/
def toByte (c : Char) : UInt8 := UInt8.ofNat c.toNat

def ofByte (b : UInt8) : Char := Char.ofNat b.toNat

/-- What `strncpy(_, s, s.size())` stores: the text up to a 0 in it, and 0s behind that. -/
def bytes (s : CString) : List UInt8 :=
  let text := (s.map toByte).takeWhile (· ≠ 0)
  text ++ List.replicate (s.length - text.length) 0

def ofBytes (bs : List UInt8) : CString := bs.map ofByte

/-- Every character is one byte, and none is the terminating 0. -/
def Bytewise (s : CString) : Prop := ∀ c ∈ s, 0 < c.toNat ∧ c.toNat < 256

@[simp] theorem bytes_length (s : CString) : s.bytes.length = s.length := by
  have htext := (List.takeWhile_sublist (· ≠ 0) (l := s.map toByte)).length_le
  rw [List.length_map] at htext
  rw [bytes, List.length_append, List.length_replicate]
  omega

/-- No byte of a text ends it. -/
theorem toByte_ne_zero {s : CString} (h : s.Bytewise) : ∀ b ∈ s.map toByte, b ≠ 0 := by
  intro b hb
  obtain ⟨c, hc, rfl⟩ := List.mem_map.mp hb
  obtain ⟨h0, h256⟩ := h c hc
  intro hzero
  have hnat := congrArg UInt8.toNat hzero
  rw [toByte, UInt8.toNat_ofNat', Nat.mod_eq_of_lt h256] at hnat
  have hz : (0 : UInt8).toNat = 0 := rfl
  omega

theorem bytes_eq {s : CString} (h : s.Bytewise) : s.bytes = s.map toByte := by
  have htext : (s.map toByte).takeWhile (· ≠ 0) = s.map toByte := by
    apply List.takeWhile_eq_self_iff.mpr
    intro b hb
    exact decide_eq_true (toByte_ne_zero h b hb)
  rw [bytes, htext, List.length_map, Nat.sub_self]
  exact List.append_nil _

theorem ofByte_toByte {c : Char} (h : c.toNat < 256) : ofByte (toByte c) = c := by
  have hbyte : (toByte c).toNat = c.toNat := by
    rw [toByte, UInt8.toNat_ofNat', Nat.mod_eq_of_lt h]
  rw [ofByte, hbyte, Char.ofNat_toNat]

theorem ofBytes_bytes {s : CString} (h : s.Bytewise) : ofBytes s.bytes = s := by
  have hsame : s.map (ofByte ∘ toByte) = s.map id := List.map_congr_left fun c hc => ofByte_toByte (h c hc).2
  rw [ofBytes, bytes_eq h, List.map_map, hsame, List.map_id]

theorem bytes_inj {s t : CString} (hs : s.Bytewise) (ht : t.Bytewise) (h : s.bytes = t.bytes) : s = t := by
  rw [← ofBytes_bytes hs, h, ofBytes_bytes ht]

/-- No byte of a text ends it. -/
theorem bytes_ne_zero {s : CString} (h : s.Bytewise) : ∀ b ∈ s.bytes, b ≠ 0 := by
  rw [bytes_eq h]
  exact toByte_ne_zero h

end CString

namespace AssocArray

/-! ## The format -/

/-- `Variant::type`. -/
def typeOf : Variant → UInt8
  | .string _ => 4
  | .assocArray _ _ => 5

/-- "PPLASOC". -/
def magic : List UInt8 := [80, 80, 76, 65, 83, 79, 67]

mutual

/-- What stands behind the key of a value. -/
def imageOfValue : Variant → List UInt8
  | .string value => networkBytes 4 value.length ++ value.bytes
  | .assocArray _ tree => magic ++ (imageOfTree tree ++ [0])

/-- The entries of an array. -/
def imageOfTree : List (CString × Variant) → List UInt8
  | [] => []
  | (key, a) :: tree =>
    typeOf a :: (networkBytes 2 key.length ++ (key.bytes ++ (imageOfValue a ++ imageOfTree tree)))

end

/-- **The bytes of an export.** -/
def image (a : AssocArray) : List UInt8 := imageOfValue (.ofArray a)

/-! ## The code -/

/-- `bs` is stored at `p` if there is room for `margin` bytes and one more. -/
def poke (base buffersize p margin : Nat) (bs : List UInt8) : List Store :=
  if p + margin < buffersize then [(base + p, bs)] else []

/-- The head and the end of `exportBinary` around its loop: the stores, and the size of the export.
    There is none when `ExportBufferToSmallException` is thrown. -/
def exportFrame (base buffersize : Nat) (loop : List Store × Option Nat) : List Store × Option Nat :=
  match loop with
  | (ws, none) => (poke base buffersize 0 7 magic ++ ws, none)
  | (ws, some p) =>
    (poke base buffersize 0 7 magic ++ (ws ++ poke base buffersize p 0 [0]),
      if buffersize = 0 ∨ p + 1 ≤ buffersize then some (p + 1) else none)

/-- `buffersize - p`, a `size_t`. -/
def restOf (buffersize p : Nat) : Nat := (buffersize + 2 ^ 64 - p) % 2 ^ 64

mutual

/-- A value at `p`. An array gets the rest of the buffer. -/
def exportValue (buffer : Bool) (base buffersize p : Nat) : Variant → List Store × Option Nat
  | .string value =>
    (poke base buffersize p 4 (networkBytes 4 value.length) ++
      poke base buffersize (p + 4) value.length value.bytes, some (p + 4 + value.length))
  | .assocArray _ tree =>
    let rest := if buffer then restOf buffersize p else 0
    let (ws, asize) := exportFrame (base + p) rest (exportTree buffer (base + p) rest 7 tree)
    (ws, asize.map fun asize => p + asize)

/-- The loop over the entries, from `p` on. The length of a key is given to `strncpy` as an `int`, here
    as it is: keys are shorter than 2^31 bytes. -/
def exportTree (buffer : Bool) (base buffersize p : Nat) : List (CString × Variant) → List Store × Option Nat
  | [] => ([], some p)
  | (key, a) :: tree =>
    let head := poke base buffersize p 0 [typeOf a] ++
      (poke base buffersize (p + 1) 4 (networkBytes 2 key.length) ++
        poke base buffersize (p + 3) key.length key.bytes)
    match exportValue buffer base buffersize (p + 3 + key.length) a with
    | (ws, none) => (head ++ ws, none)
    | (ws, some q) =>
      let (vs, asize) := exportTree buffer base buffersize q tree
      (head ++ (ws ++ vs), asize)

end

/-- `exportBinary` into a buffer of `buffersize` bytes, or without one. -/
def exportBinary (buffer : Bool) (buffersize : Nat) (a : AssocArray) : List Store × Option Nat :=
  let buffersize := if buffer then buffersize else 0
  exportFrame 0 buffersize (exportTree buffer 0 buffersize 7 a.tree)

/-- `binarySize`. -/
def binarySize (a : AssocArray) : Option Nat := (exportBinary false 0 a).2

/-! ## The size -/

theorem poke_of_lt {base size p margin : Nat} {bs : List UInt8} (h : p + margin < size) :
    poke base size p margin bs = [(base + p, bs)] := if_pos h

theorem length_imageOfEntry (key : CString) (a : Variant) (tree : List (CString × Variant)) :
    (imageOfTree ((key, a) :: tree)).length =
      3 + key.length + (imageOfValue a).length + (imageOfTree tree).length := by
  simp only [imageOfTree, List.length_cons, List.length_append, networkBytes_length, CString.bytes_length]
  omega

theorem length_imageOfArray (m : UInt64) (tree : List (CString × Variant)) :
    (imageOfValue (.assocArray m tree)).length = 8 + (imageOfTree tree).length := by
  simp only [imageOfValue, List.length_append, magic, List.length_cons, List.length_nil]
  omega

theorem length_imageOfString (s : CString) : (imageOfValue (.string s)).length = 4 + s.length := by
  simp only [imageOfValue, List.length_append, networkBytes_length, CString.bytes_length]

mutual

theorem exportValue_size (base p : Nat) : ∀ v : Variant,
    exportValue false base 0 p v = ([], some (p + (imageOfValue v).length))
  | .string value => by
    simp [exportValue, poke, length_imageOfString, Nat.add_assoc]
  | .assocArray m tree => by
    simp [exportValue, exportTree_size _ _ tree, exportFrame, poke, length_imageOfArray]
    omega

theorem exportTree_size (base p : Nat) : ∀ tree : List (CString × Variant),
    exportTree false base 0 p tree = ([], some (p + (imageOfTree tree).length))
  | [] => rfl
  | (key, a) :: tree => by
    simp [exportTree, exportValue_size _ _ a, exportTree_size _ _ tree, poke, length_imageOfEntry]
    omega

end

/-- Without a buffer nothing is stored, and the size is that of the export. -/
theorem exportBinary_size (a : AssocArray) : exportBinary false 0 a = ([], some (image a).length) := by
  simp [exportBinary, exportTree_size, exportFrame, poke, image, Variant.ofArray, length_imageOfArray]
  omega

/-! ## A buffer that is large enough -/

/-- The stores around the loop, in a buffer with room for all of them. -/
theorem exportFrame_fits (base size : Nat) {tree : List (CString × Variant)} {ws : List Store}
    (h : Tiles (base + 7) ws (imageOfTree tree)) (hsize : 8 + (imageOfTree tree).length ≤ size) (m : UInt64) :
    ∃ vs, exportFrame base size (ws, some (7 + (imageOfTree tree).length)) =
      (vs, some (imageOfValue (.assocArray m tree)).length) ∧ Tiles base vs (imageOfValue (.assocArray m tree)) := by
  refine ⟨(base, magic) :: (ws ++ [(base + (7 + (imageOfTree tree).length), [0])]), ?_, ?_⟩
  · rw [exportFrame, poke_of_lt (by omega), poke_of_lt (by omega), if_pos (by omega), length_imageOfArray]
    simp only [Nat.add_zero, List.singleton_append]
    congr 2
    omega
  · rw [imageOfValue]
    apply Tiles.cons
    apply Tiles.append h
    have hlast := Tiles.single (base + (7 + (imageOfTree tree).length)) [0]
    rwa [← Nat.add_assoc] at hlast ⊢

mutual

/-- A value whose image leaves room behind it is stored as its image. -/
theorem exportValue_fits (base size p : Nat) (h64 : size < 2 ^ 64) : ∀ v : Variant,
    p + (imageOfValue v).length < size →
      ∃ ws, exportValue true base size p v = (ws, some (p + (imageOfValue v).length)) ∧
        Tiles (base + p) ws (imageOfValue v)
  | .string value => by
    intro hsize
    rw [length_imageOfString] at hsize ⊢
    refine ⟨_, by rw [exportValue, poke_of_lt (by omega), poke_of_lt (by omega), Nat.add_assoc p 4], ?_⟩
    rw [imageOfValue]
    apply Tiles.append (Tiles.single _ _)
    rw [networkBytes_length, Nat.add_assoc]
    exact Tiles.single _ _
  | .assocArray m tree => by
    intro hsize
    rw [length_imageOfArray] at hsize
    have hrest : restOf size p = size - p := by
      rw [restOf]
      omega
    obtain ⟨ws, hws, htiles⟩ := exportTree_fits (base + p) (size - p) 7 (by omega) tree (by omega)
    obtain ⟨vs, hvs, htiles'⟩ := exportFrame_fits (base + p) (size - p) htiles (by omega) m
    refine ⟨vs, ?_, htiles'⟩
    simp only [exportValue, if_true, hrest, hws, hvs, Option.map_some]

theorem exportTree_fits (base size p : Nat) (h64 : size < 2 ^ 64) : ∀ tree : List (CString × Variant),
    p + (imageOfTree tree).length < size →
      ∃ ws, exportTree true base size p tree = (ws, some (p + (imageOfTree tree).length)) ∧
        Tiles (base + p) ws (imageOfTree tree)
  | [] => fun _ => ⟨[], rfl, Tiles.nil _⟩
  | (key, a) :: tree => by
    intro hsize
    rw [length_imageOfEntry] at hsize ⊢
    -- every value takes four bytes at least, so there is room behind the length of the key
    have hvalue : 4 ≤ (imageOfValue a).length := by
      cases a with
      | string value => rw [length_imageOfString]; omega
      | assocArray m tree => rw [length_imageOfArray]; omega
    obtain ⟨ws, hws, htiles⟩ := exportValue_fits base size (p + 3 + key.length) h64 a (by omega)
    obtain ⟨vs, hvs, htiles'⟩ := exportTree_fits base size (p + 3 + key.length + (imageOfValue a).length) h64 tree
      (by omega)
    -- the stores of one entry lie behind each other, and those of the other entries behind them
    have hvalue : Tiles (base + (p + 3 + key.length)) _ _ := Tiles.append htiles (by
      rwa [Nat.add_assoc base])
    have hkey : Tiles (base + (p + 3)) _ _ := Tiles.cons key.bytes (by
      rwa [CString.bytes_length, Nat.add_assoc base])
    have hkeylen : Tiles (base + (p + 1)) _ _ := Tiles.cons (networkBytes 2 key.length) (by
      rwa [networkBytes_length, Nat.add_assoc base])
    have htype : Tiles (base + p) _ _ := Tiles.cons [typeOf a] (by
      rwa [List.length_singleton, Nat.add_assoc base])
    refine ⟨_, ?_, htype⟩
    rw [exportTree, poke_of_lt (by omega), poke_of_lt (by omega), poke_of_lt (by omega), hws]
    simp only [hvs, List.cons_append, List.nil_append]
    congr 2
    omega

end

/-- **Into a buffer with room for it an array is stored as its image.** -/
theorem export_tiles {size : Nat} (h64 : size < 2 ^ 64) (a : AssocArray) (hsize : (image a).length ≤ size) :
    ∃ ws, exportBinary true size a = (ws, some (image a).length) ∧ Tiles 0 ws (image a) := by
  rw [image, Variant.ofArray, length_imageOfArray] at hsize
  obtain ⟨ws, hws, htiles⟩ := exportTree_fits 0 size 7 h64 a.tree (by omega)
  obtain ⟨vs, hvs, htiles'⟩ := exportFrame_fits 0 size htiles hsize a.maxint
  refine ⟨vs, ?_, htiles'⟩
  simp only [exportBinary, if_true, hws, hvs]
  rfl

/-! ## A buffer of any size -/

/-- What a run of the export may come to from `p` on: the position behind the image, or the exception
    where the buffer is too small for it. -/
def Ends (size p len : Nat) (loop : List Store × Option Nat) : Prop :=
  loop.2 = some (p + len) ∨ loop.2 = none ∧ 0 < size ∧ size < p + len

/-- The frame throws or says how long the array is. -/
theorem exportFrame_size (base : Nat) {size n : Nat} {loop : List Store × Option Nat}
    (h : Ends size 7 n loop) :
    (exportFrame base size loop).2 = if 0 < size ∧ size < 8 + n then none else some (8 + n) := by
  obtain ⟨ws, p⟩ := loop
  rcases h with h | ⟨h, hsize⟩
  · simp only at h
    subst h
    simp only [exportFrame]
    by_cases hsmall : 0 < size ∧ size < 8 + n
    · rw [if_pos hsmall, if_neg (by omega)]
    · rw [if_neg hsmall, if_pos (by omega)]
      congr 1
      omega
  · simp only at h
    subst h
    simp only [exportFrame]
    rw [if_pos (by omega)]

mutual

theorem exportValue_ends (base size p : Nat) : ∀ v : Variant, size < 2 ^ 64 →
    p + (imageOfValue v).length ≤ 2 ^ 63 → Ends size p (imageOfValue v).length (exportValue true base size p v)
  | .string value => by
    intro h64 h63
    left
    rw [exportValue, length_imageOfString, Nat.add_assoc]
  | .assocArray m tree => by
    intro h64 h63
    rw [length_imageOfArray] at h63 ⊢
    have hrest : restOf size p = (size + 2 ^ 64 - p) % 2 ^ 64 := rfl
    have hinner := exportTree_ends (base + p) (restOf size p) 7 tree (by omega) (by omega)
    have hframe := exportFrame_size (base + p) hinner
    by_cases hsmall : 0 < restOf size p ∧ restOf size p < 8 + (imageOfTree tree).length
    · -- the rest of the buffer is too small, so it is a real rest
      right
      rw [if_pos hsmall] at hframe
      refine ⟨?_, by omega, by omega⟩
      simp only [exportValue, if_true, hframe, Option.map_none]
    · left
      rw [if_neg hsmall] at hframe
      simp only [exportValue, if_true, hframe, Option.map_some]

theorem exportTree_ends (base size p : Nat) : ∀ tree : List (CString × Variant), size < 2 ^ 64 →
    p + (imageOfTree tree).length ≤ 2 ^ 63 → Ends size p (imageOfTree tree).length (exportTree true base size p tree)
  | [] => fun _ _ => Or.inl rfl
  | (key, a) :: tree => by
    intro h64 h63
    rw [length_imageOfEntry] at h63 ⊢
    have hvalue := exportValue_ends base size (p + 3 + key.length) a h64 (by omega)
    have hrest := exportTree_ends base size (p + 3 + key.length + (imageOfValue a).length) tree h64 (by omega)
    rw [exportTree]
    cases hv : exportValue true base size (p + 3 + key.length) a with
    | mk ws q =>
      rw [hv] at hvalue
      rcases hvalue with hq | ⟨hq, h0, hsize⟩
      · simp only at hq
        subst hq
        rcases hrest with hend | ⟨hend, h0, hsize⟩
        · left
          simp only [hend]
          congr 1
          omega
        · right
          simp only [hend]
          refine ⟨trivial, h0, by omega⟩
      · simp only at hq
        subst hq
        right
        refine ⟨rfl, h0, by omega⟩

end

/-- **What an export comes to.** It throws exactly into a buffer that is not empty and smaller than
    `binarySize`. In a large enough one it leaves the bytes of the export, and what is behind them as
    it was. -/
theorem export_exact {size : Nat} (h64 : size < 2 ^ 64) (a : AssocArray) (h63 : (image a).length ≤ 2 ^ 63) :
    binarySize a = some (image a).length ∧
      (exportBinary true size a).2 =
        (if 0 < size ∧ size < (image a).length then none else some (image a).length) ∧
      ∀ mem : List UInt8, (image a).length ≤ size → size ≤ mem.length →
        storeAll mem (exportBinary true size a).1 = image a ++ mem.drop (image a).length := by
  refine ⟨by rw [binarySize, exportBinary_size], ?_, ?_⟩
  · rw [image, Variant.ofArray, length_imageOfArray] at h63 ⊢
    have hloop := exportTree_ends 0 size 7 a.tree h64 (by omega)
    exact exportFrame_size 0 hloop
  · intro mem hsize hmem
    obtain ⟨ws, hws, htiles⟩ := export_tiles h64 a hsize
    rw [hws]
    show storeAll mem ws = _
    rw [storeAll_tiles htiles (by omega)]
    simp [store]

/-- Two texts, the second one in an array. -/
def nested : AssocArray :=
  ⟨0, [("count".toList, .string "1".toList), ("net".toList, .assocArray 0 [("rx".toList, .string "20".toList)])]⟩

theorem export_exact_nested :
    binarySize nested = some 46 ∧ (exportBinary true 64 nested).2 = some 46 ∧
      storeAll (List.replicate 64 1) (exportBinary true 64 nested).1 = image nested ++ List.replicate 18 1 := by
  have hlen : (image nested).length = 46 := by decide
  have h := export_exact (show 64 < 2 ^ 64 by decide) nested (by rw [hlen]; decide)
  rw [hlen] at h
  exact ⟨h.1, h.2.1, h.2.2 (List.replicate 64 1) (by decide) (by decide)⟩

/-! ## A buffer that is too small -/

theorem poke_inBounds {base size p margin : Nat} {bs : List UInt8} (h : bs.length ≤ margin + 1) :
    InBounds (base + size) (poke base size p margin bs) := by
  intro w hw
  rw [poke] at hw
  split at hw
  · rw [List.mem_singleton.mp hw]
    show base + p + bs.length ≤ base + size
    omega
  · exact absurd hw (List.not_mem_nil)

theorem exportFrame_inBounds {base size : Nat} {loop : List Store × Option Nat}
    (h : InBounds (base + size) loop.1) : InBounds (base + size) (exportFrame base size loop).1 := by
  have hmagic : InBounds (base + size) (poke base size 0 7 magic) := poke_inBounds (by decide)
  obtain ⟨ws, p⟩ := loop
  cases p with
  | none => exact inBounds_append.mpr ⟨hmagic, h⟩
  | some p =>
    have hend : InBounds (base + size) (poke base size p 0 [0]) := poke_inBounds (by simp)
    exact inBounds_append.mpr ⟨hmagic, inBounds_append.mpr ⟨h, hend⟩⟩

theorem exportFrame_loop {n base size : Nat} {loop : List Store × Option Nat}
    (h : InBounds n (exportFrame base size loop).1) : InBounds n loop.1 := by
  obtain ⟨ws, p⟩ := loop
  cases p with
  | none => exact (inBounds_append.mp h).2
  | some p => exact (inBounds_append.mp (inBounds_append.mp h).2).1

/-- Strings are stored inside the buffer, whatever its size. -/
theorem exportTree_inBounds (base size p : Nat) {tree : List (CString × Variant)}
    (h : ∀ e ∈ tree, ∃ value, e.2 = .string value) :
    InBounds (base + size) (exportTree true base size p tree).1 := by
  induction tree generalizing p with
  | nil => exact fun w hw => absurd hw (List.not_mem_nil)
  | cons e tree ih =>
    obtain ⟨key, a⟩ := e
    rw [List.forall_mem_cons] at h
    obtain ⟨⟨value, rfl⟩, htree⟩ := h
    simp only [exportTree, exportValue, inBounds_append]
    have htype : InBounds (base + size) (poke base size p 0 [typeOf (.string value)]) := poke_inBounds (by simp)
    have hkeylen : InBounds (base + size) (poke base size (p + 1) 4 (networkBytes 2 key.length)) :=
      poke_inBounds (by rw [networkBytes_length]; omega)
    have hkey : InBounds (base + size) (poke base size (p + 3) key.length key.bytes) :=
      poke_inBounds (by rw [CString.bytes_length]; omega)
    have hlen : InBounds (base + size) (poke base size (p + 3 + key.length) 4 (networkBytes 4 value.length)) :=
      poke_inBounds (by rw [networkBytes_length]; omega)
    have hvalue : InBounds (base + size) (poke base size (p + 3 + key.length + 4) value.length value.bytes) :=
      poke_inBounds (by rw [CString.bytes_length]; omega)
    exact ⟨⟨htype, hkeylen, hkey⟩, ⟨hlen, hvalue⟩, ih _ htree⟩

theorem exportFrame_magic (base : Nat) {size : Nat} (h : 7 < size) (loop : List Store × Option Nat) :
    (base, magic) ∈ (exportFrame base size loop).1 := by
  have hmagic : poke base size 0 7 magic = [(base, magic)] := poke_of_lt (by omega)
  obtain ⟨ws, p⟩ := loop
  cases p <;> simp [exportFrame, hmagic]

/-- The stores of an array in the array are among those of the export. -/
theorem exportTree_value {base size p : Nat} {key : CString} {m : UInt64} {t tree : List (CString × Variant)}
    {w : Store} (h : w ∈ (exportFrame (base + (p + 3 + key.length)) (restOf size (p + 3 + key.length))
      (exportTree true (base + (p + 3 + key.length)) (restOf size (p + 3 + key.length)) 7 t)).1) :
    w ∈ (exportTree true base size p ((key, .assocArray m t) :: tree)).1 := by
  have hvalue : w ∈ (exportValue true base size (p + 3 + key.length) (.assocArray m t)).1 := by
    simp only [exportValue, if_true]
    exact h
  rw [exportTree]
  cases hv : exportValue true base size (p + 3 + key.length) (.assocArray m t) with
  | mk ws q =>
    rw [hv] at hvalue
    cases q with
    | none => exact List.mem_append_right _ hvalue
    | some q => exact List.mem_append_right _ (List.mem_append_left _ hvalue)

/-- In a buffer of one byte an array in the array is stored behind the end: the room left for it is
    computed without a sign. -/
theorem exportTree_overrun (base : Nat) {p : Nat} (hp : 7 ≤ p) {tree : List (CString × Variant)}
    (h : ∃ e ∈ tree, ∃ m t, e.2 = .assocArray m t) (h63 : p + (imageOfTree tree).length ≤ 2 ^ 63) :
    ¬ InBounds (base + 1) (exportTree true base 1 p tree).1 := by
  induction tree generalizing p with
  | nil =>
    obtain ⟨e, he, _⟩ := h
    exact absurd he (List.not_mem_nil)
  | cons x tree ih =>
    obtain ⟨key, a⟩ := x
    rw [length_imageOfEntry] at h63
    cases a with
    | assocArray m t =>
      -- the room left is nearly 2 ^ 64, so the head of the export is stored
      rw [length_imageOfArray] at h63
      have hrest : 7 < restOf 1 (p + 3 + key.length) := by
        rw [restOf]
        omega
      have hmagic := exportFrame_magic (base + (p + 3 + key.length)) hrest
        (exportTree true (base + (p + 3 + key.length)) (restOf 1 (p + 3 + key.length)) 7 t)
      intro hin
      have hend := hin _ (exportTree_value hmagic)
      simp only [magic, List.length_cons, List.length_nil] at hend
      omega
    | string value =>
      rw [length_imageOfString] at h63
      obtain ⟨e, he, m, t, hv⟩ := h
      have htail : e ∈ tree := by
        rcases List.mem_cons.mp he with rfl | he
        · cases hv
        · exact he
      have hnot := ih (p := p + 3 + key.length + 4 + value.length) (by omega) ⟨e, htail, m, t, hv⟩ (by omega)
      intro hin
      apply hnot
      simp only [exportTree, exportValue, inBounds_append] at hin
      exact hin.2.2

/-- **Where a too small buffer is not overrun.** The stores stay inside a buffer of every size exactly
    when no value of the array is an array. -/
theorem export_in_bounds_iff (a : AssocArray) (h63 : (image a).length ≤ 2 ^ 63) :
    (∀ size, size < 2 ^ 64 → InBounds size (exportBinary true size a).1) ↔
      ∀ e ∈ a.tree, ∃ value, e.2 = .string value := by
  refine ⟨?_, ?_⟩
  · intro h e he
    cases hv : e.2 with
    | string value => exact ⟨value, rfl⟩
    | assocArray m t =>
      exfalso
      rw [image, Variant.ofArray, length_imageOfArray] at h63
      have hover := exportTree_overrun 0 (Nat.le_refl 7) ⟨e, he, m, t, hv⟩ (by omega)
      apply hover
      have hone := h 1 (by omega)
      rw [exportBinary, if_pos rfl] at hone
      rw [Nat.zero_add]
      exact exportFrame_loop hone
  · intro h size _
    have htree := exportTree_inBounds 0 size 7 h
    have hall := exportFrame_inBounds htree
    rwa [Nat.zero_add] at hall

theorem export_in_bounds_nested : ¬ ∀ size, size < 2 ^ 64 → InBounds size (exportBinary true size nested).1 := by
  have hlen : (image nested).length = 46 := by decide
  intro h
  obtain ⟨value, hvalue⟩ := (export_in_bounds_iff nested (by rw [hlen]; decide)).mp h
    ("net".toList, .assocArray 0 [("rx".toList, .string "20".toList)]) (by simp [nested])
  cases hvalue

end AssocArray

end UdpPingPong
