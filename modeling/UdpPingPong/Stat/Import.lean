import UdpPingPong.Stat.Equality

/- The import of what was exported: `AssocArray::importBinary`.

   The import runs over the bytes with a position `p` and stores every entry it reads. It
   takes the lengths in the bytes as they are and does not ask whether they lead behind the
   end; where the code then reads foreign memory, the model ends with `outOfBounds`.

   1. `importBinary`, with the exceptions it throws;
   2. `Ordered`: the entries of a map in their order. Such an array is copied entry by entry
      (`copyVariant_ordered`), and only its counters are counted again;
   3. `import_export`: to import an export is to add the array that was exported;
   4. `import_append`: what is accepted up to its end says where it ends. -/
namespace UdpPingPong

open Memory

inductive ImportException where
  | illegalArgument
  | importFailed (text : CString)
  | array (e : ArrayException)
  /-- not an exception: memory behind the buffer is read -/
  | outOfBounds
  /-- not an exception: a type or a key that is not modelled -/
  | unmodelled
  | outOfFuel
deriving DecidableEq, Repr

namespace AssocArray

/-- `PeekN8`, `PeekN16` and `PeekN32`, for `k` bytes. -/
def peek (buffer : List UInt8) (k p : Nat) : Except ImportException Nat :=
  if p + k ≤ buffer.length then .ok (networkNumber ((buffer.drop p).take k)) else .error .outOfBounds

/-- `key.set(ptr + p, keylen)`. A key with a 0 in it is not modelled. -/
def readKey (buffer : List UInt8) (p keylen : Nat) : Except ImportException CString :=
  let bs := (buffer.drop p).take keylen
  if 0 ∈ bs then .error .unmodelled
  else if bs.length < keylen then .error .outOfBounds
  else .ok (CString.ofBytes bs)

/-- The value of `set(key, ptr + p, vallen)`: the text up to the next 0, cut to its length. -/
def readValue (buffer : List UInt8) (p vallen : Nat) : Except ImportException CString :=
  let text := (buffer.drop p).takeWhile (· ≠ 0)
  if buffer.length ≤ p + text.length then .error .outOfBounds
  else .ok (CString.ofBytes (text.take vallen ++ List.replicate (vallen - text.length) 0))

/-- What is asked of the first bytes. -/
def checkHead (buffer : List UInt8) : Except ImportException Unit :=
  if buffer.length = 0 then .error .illegalArgument
  else if buffer.length < 8 ∨ buffer.take 7 ≠ magic then
    .error (.importFailed "Not an AssocArray binary export".toList)
  else .ok ()

/-- The loop over the entries from `p` on: the array, and how many bytes were read. What else can be in
    an import, values of other types and keys with a 0 in them, is `unmodelled`. -/
def importLoop : Nat → List UInt8 → Nat → AssocArray → Except ImportException (AssocArray × Nat)
  | 0, _, _, _ => .error .outOfFuel
  | fuel + 1, buffer, p, a =>
    if buffer.length ≤ p then .ok (a, p + 1)
    else do
      let type ← peek buffer 1 p
      if type = 0 then return (a, p + 1)
      let keylen ← peek buffer 2 (p + 1)
      let key ← readKey buffer (p + 3) keylen
      let p := p + 3 + keylen
      if type = 4 then
        let vallen ← peek buffer 4 p
        let value ← readValue buffer (p + 4) vallen
        let a ← (setString key value a).mapError .array
        importLoop fuel buffer (p + 4 + vallen) a
      else if type = 5 then
        -- `buffersize - p` has no sign: behind the end it is a large number
        if buffer.length < p then throw .outOfBounds
        checkHead (buffer.drop p)
        let (na, bytes) ← importLoop fuel (buffer.drop p) 7 {}
        let a ← (setArray key na a).mapError .array
        importLoop fuel buffer (p + bytes) a
      else if type ∈ [6, 8, 9, 10] then throw .unmodelled
      else
        let vallen ← peek buffer 4 p
        throw (.importFailed ("unknown datatype in AssocArray binary export [type=".toList ++
          Decimal.printNat type ++ ", size=".toList ++ Decimal.printNat vallen ++ "]".toList))

/-- `importBinary`. The loop reads a byte at least before it goes on. -/
def importBinary (buffer : List UInt8) (a : AssocArray) : Except ImportException (AssocArray × Nat) := do
  checkHead buffer
  importLoop buffer.length buffer 7 a

/-! ## Arrays in order -/

/-- The counter for "[]" keys after entries with these keys are stored. -/
def countKeys (tree : List (CString × Variant)) (maxint : UInt64) : UInt64 :=
  tree.foldl (fun m e => (nextKey e.1 m).2) maxint

mutual

/-- A value with its counters counted again. -/
def recounted : Variant → Variant
  | .string value => .string value
  | .assocArray _ tree => .assocArray (countKeys tree 0) (recountedTree tree)

def recountedTree : List (CString × Variant) → List (CString × Variant)
  | [] => []
  | (key, a) :: tree => (key, recounted a) :: recountedTree tree

end

/-- The entries of a map, on every level: under parts of paths, each key greater than those before. -/
inductive Ordered : Variant → Prop
  | string (s : CString) : Ordered (.string s)
  | assocArray (m : UInt64) (t : List (CString × Variant)) (keys : ∀ e ∈ t, CString.IsPart e.1 ∧ Plain e.1)
      (sorted : t.Pairwise fun e x => ArrayKey.compare x.1 e.1 = .gt) (below : ∀ e ∈ t, Ordered e.2) :
      Ordered (.assocArray m t)

section
variable {k : CString} {v : Variant} {a : AssocArray}

theorem createTree_part (hk : CString.IsPart k) (v : Variant) (a : AssocArray) :
    createTree k v a = .ok (createPath [k] v a) := by
  simp only [createTree, explode_of_isPart hk, List.cons_ne_nil, if_false]

/-- A greatest key is stored at the end. -/
theorem createPath_last (hk : Plain k) (h : ∀ e ∈ a.tree, ArrayKey.compare k e.1 = .gt) :
    createPath [k] v a = ⟨(nextKey k a.maxint).2, a.tree ++ [(k, v)]⟩ := by
  simp only [createPath, nextKey_of_plain hk, if_true, KeyList.put_last h]

/-- Entries in order, all of them greater than what is there, are added behind it. -/
theorem add_ordered {t : List (CString × Variant)} (hkeys : ∀ e ∈ t, CString.IsPart e.1 ∧ Plain e.1)
    (hsorted : t.Pairwise fun e x => ArrayKey.compare x.1 e.1 = .gt)
    (hcopy : ∀ e ∈ t, copyVariant e.2 = .ok (recounted e.2)) {a : AssocArray}
    (ha : ∀ x ∈ t, ∀ e ∈ a.tree, ArrayKey.compare x.1 e.1 = .gt) :
    add t a = .ok ⟨countKeys t a.maxint, a.tree ++ recountedTree t⟩ := by
  induction t generalizing a with
  | nil => simp [add, countKeys, recountedTree]
  | cons x t ih =>
    rw [List.forall_mem_cons] at hkeys hcopy ha
    rw [List.pairwise_cons] at hsorted
    have hlast := createPath_last (v := recounted x.2) hkeys.1.2 ha.1
    have htail : ∀ y ∈ t, ∀ e ∈ (createPath [x.1] (recounted x.2) a).tree, ArrayKey.compare y.1 e.1 = .gt := by
      intro y hy e he
      rw [hlast] at he
      rcases List.mem_append.mp he with he | he
      · exact ha.2 y hy e he
      · rw [List.mem_singleton.mp he]
        exact hsorted.1 y hy
    have hrest := ih hkeys.2 hsorted.2 hcopy.2 htail
    rw [add, hcopy.1]
    show createTree x.1 (recounted x.2) a >>= add t = _
    rw [createTree_part hkeys.1.1]
    show add t _ = _
    rw [hrest, hlast]
    simp [countKeys, recountedTree]

/-- **An array in order is copied entry by entry.** -/
theorem copyVariant_ordered (h : Ordered v) : copyVariant v = .ok (recounted v) := by
  induction h with
  | string s => rfl
  | assocArray m t keys sorted below ih =>
    have hadd := add_ordered keys sorted ih (a := {}) (fun _ _ e he => absurd he (List.not_mem_nil))
    rw [copyVariant, hadd]
    rfl

end

theorem countKeys_recounted (tree : List (CString × Variant)) (m : UInt64) :
    countKeys (recountedTree tree) m = countKeys tree m := by
  induction tree generalizing m with
  | nil => rfl
  | cons e tree ih => exact ih (nextKey e.1 m).2

mutual

theorem recounted_recounted : ∀ v : Variant, recounted (recounted v) = recounted v
  | .string _ => rfl
  | .assocArray _ tree => by
    rw [recounted, recounted, countKeys_recounted, recountedTree_recounted tree]

theorem recountedTree_recounted : ∀ tree : List (CString × Variant),
    recountedTree (recountedTree tree) = recountedTree tree
  | [] => rfl
  | (key, a) :: tree => by
    rw [recountedTree, recountedTree, recounted_recounted a, recountedTree_recounted tree]

end

theorem recountedTree_eq_map (tree : List (CString × Variant)) :
    recountedTree tree = tree.map fun e => (e.1, recounted e.2) := by
  induction tree with
  | nil => rfl
  | cons e tree ih => rw [recountedTree, ih, List.map_cons]

theorem Ordered.recounted {v : Variant} (h : Ordered v) : Ordered (AssocArray.recounted v) := by
  induction h with
  | string s => exact .string s
  | assocArray m t keys sorted below ih =>
    rw [AssocArray.recounted, recountedTree_eq_map]
    apply Ordered.assocArray
    · exact List.forall_mem_map.mpr keys
    · exact List.pairwise_map.mpr sorted
    · exact List.forall_mem_map.mpr ih

/-- A second copy is the first one again. -/
theorem copyVariant_copy {v : Variant} (h : Ordered v) : copyVariant (recounted v) = .ok (recounted v) := by
  rw [copyVariant_ordered h.recounted, recounted_recounted]

/-! ## What the import reads -/

section
variable {buffer r : List UInt8} {p : Nat}

theorem drop_behind {bs : List UInt8} (h : buffer.drop p = bs ++ r) : buffer.drop (p + bs.length) = r := by
  rw [← List.drop_drop, h, List.drop_left]

theorem length_behind {b : UInt8} (h : buffer.drop p = b :: r) : buffer.length = p + 1 + r.length := by
  have hlen := congrArg List.length h
  rw [List.length_drop, List.length_cons] at hlen
  omega

theorem peek_byte {b : UInt8} (h : buffer.drop p = b :: r) : peek buffer 1 p = .ok b.toNat := by
  have hlen := length_behind h
  rw [peek, if_pos (by omega), h]
  simp [networkNumber, Wire.numberOf]

theorem peek_number {k n : Nat} (hn : n < 256 ^ (k + 1)) (h : buffer.drop p = networkBytes (k + 1) n ++ r) :
    peek buffer (k + 1) p = .ok n := by
  have hlen := congrArg List.length h
  rw [List.length_drop, List.length_append, networkBytes_length] at hlen
  have htake : (buffer.drop p).take (k + 1) = networkBytes (k + 1) n := by
    rw [h]
    exact List.take_left' (networkBytes_length _ _)
  rw [peek, if_pos (by omega), htake, networkNumber_networkBytes hn]

theorem readKey_bytes {key : CString} (hkey : key.Bytewise) (h : buffer.drop p = key.bytes ++ r) :
    readKey buffer p key.length = .ok key := by
  have htake : (buffer.drop p).take key.length = key.bytes := by
    rw [h]
    exact List.take_left' (CString.bytes_length key)
  have hzero : ¬ (0 : UInt8) ∈ key.bytes := fun h0 => CString.bytes_ne_zero hkey 0 h0 rfl
  simp only [readKey, htake, hzero, CString.bytes_length, Nat.lt_irrefl, if_false, CString.ofBytes_bytes hkey]

/-- A text comes to its end where there is a 0. -/
theorem text_lt {r : List UInt8} (h : (0 : UInt8) ∈ r) : (r.takeWhile (· ≠ 0)).length < r.length := by
  have hsub := List.takeWhile_sublist (· ≠ (0 : UInt8)) (l := r)
  apply Nat.lt_of_le_of_ne hsub.length_le
  intro hall
  have hself := List.takeWhile_eq_self_iff.mp (hsub.eq_of_length hall) 0 h
  simp at hself

theorem readValue_bytes {value : CString} (hvalue : value.Bytewise) (h : buffer.drop p = value.bytes ++ r)
    (hr : (0 : UInt8) ∈ r) : readValue buffer p value.length = .ok value := by
  have htext : (buffer.drop p).takeWhile (· ≠ 0) = value.bytes ++ r.takeWhile (· ≠ 0) := by
    rw [h]
    apply List.takeWhile_append_of_pos
    intro b hb
    exact decide_eq_true (CString.bytes_ne_zero hvalue b hb)
  have hzero := text_lt hr
  have hlen := congrArg List.length h
  rw [List.length_drop, List.length_append] at hlen
  have htake : (value.bytes ++ r.takeWhile (· ≠ 0)).take value.length = value.bytes :=
    List.take_left' (CString.bytes_length value)
  rw [readValue, htext, if_neg (by rw [List.length_append]; omega), htake]
  rw [List.length_append, CString.bytes_length]
  have hpad : value.length - (value.length + (r.takeWhile (· ≠ 0)).length) = 0 := by omega
  rw [hpad, List.replicate_zero, List.append_nil, CString.ofBytes_bytes hvalue]

/-- The type and the key in front of a value. -/
theorem entry_read {key : CString} {type : UInt8} (hkey : key.Bytewise) (hsize : key.length < 2 ^ 16)
    (h : buffer.drop p = type :: (networkBytes 2 key.length ++ (key.bytes ++ r))) :
    p < buffer.length ∧ peek buffer 1 p = .ok type.toNat ∧ peek buffer 2 (p + 1) = .ok key.length ∧
      readKey buffer (p + 3) key.length = .ok key ∧ buffer.drop (p + 3 + key.length) = r := by
  have hlen := length_behind h
  have hkeylen : buffer.drop (p + 1) = networkBytes 2 key.length ++ (key.bytes ++ r) :=
    drop_behind (show buffer.drop p = [type] ++ _ from h)
  have htext := drop_behind hkeylen
  rw [networkBytes_length] at htext
  have hrest := drop_behind htext
  rw [CString.bytes_length] at hrest
  exact ⟨by omega, peek_byte h, peek_number (k := 1) (by omega) hkeylen, readKey_bytes hkey htext, hrest⟩

theorem checkHead_magic {tree : List UInt8} (h : buffer = magic ++ (tree ++ ([0] ++ r))) :
    checkHead buffer = .ok () := by
  have hlen : buffer.length = 7 + (tree.length + (1 + r.length)) := by
    rw [h]
    simp only [magic, List.length_append, List.length_cons, List.length_nil]
  have htake : buffer.take 7 = magic := by
    rw [h]
    exact List.take_left' rfl
  rw [checkHead, if_neg (by omega), htake, if_neg]
  intro hbad
  rcases hbad with hbad | hbad
  · omega
  · exact hbad rfl

/-- An array inside of an export. -/
theorem array_read {tree : List UInt8} (h : buffer.drop p = magic ++ (tree ++ ([0] ++ r))) :
    p ≤ buffer.length ∧ checkHead (buffer.drop p) = .ok () ∧ (buffer.drop p).drop 7 = tree ++ ([0] ++ r) ∧
      buffer.drop (p + (7 + tree.length + 1)) = r := by
  have hroom : p < buffer.length := by
    by_contra hbeyond
    rw [List.drop_eq_nil_of_le (by omega)] at h
    cases h
  have hinner : (buffer.drop p).drop 7 = tree ++ ([0] ++ r) := by
    rw [h]
    exact List.drop_left' rfl
  have hbehind := drop_behind hinner
  have hend := drop_behind hbehind
  rw [List.drop_drop] at hend
  exact ⟨Nat.le_of_lt hroom, checkHead_magic h, hinner, hend⟩

end

/-! ## The round trip -/

section
variable {fuel p : Nat} {buffer : List UInt8} {key : CString} {a : AssocArray}

/-- A string is read and stored. -/
theorem importLoop_string {keylen vallen : Nat} {value : CString} (hp : p < buffer.length)
    (htype : peek buffer 1 p = .ok 4) (hlen : peek buffer 2 (p + 1) = .ok keylen)
    (hkey : readKey buffer (p + 3) keylen = .ok key) (hvallen : peek buffer 4 (p + 3 + keylen) = .ok vallen)
    (hvalue : readValue buffer (p + 3 + keylen + 4) vallen = .ok value) :
    importLoop (fuel + 1) buffer p a =
      (setString key value a).mapError .array >>= importLoop fuel buffer (p + 3 + keylen + 4 + vallen) := by
  rw [importLoop, if_neg (by omega), htype]
  show (peek buffer 2 (p + 1) >>= _) = _
  rw [hlen]
  show (readKey buffer (p + 3) keylen >>= _) = _
  rw [hkey]
  show (peek buffer 4 (p + 3 + keylen) >>= _) = _
  rw [hvallen]
  show (readValue buffer (p + 3 + keylen + 4) vallen >>= _) = _
  rw [hvalue]
  rfl

/-- An array is imported by itself, and a copy of it is stored. -/
theorem importLoop_array {keylen bytes : Nat} {na : AssocArray} (hp : p + 3 + keylen ≤ buffer.length)
    (htype : peek buffer 1 p = .ok 5) (hlen : peek buffer 2 (p + 1) = .ok keylen)
    (hkey : readKey buffer (p + 3) keylen = .ok key) (hhead : checkHead (buffer.drop (p + 3 + keylen)) = .ok ())
    (hna : importLoop fuel (buffer.drop (p + 3 + keylen)) 7 {} = .ok (na, bytes)) :
    importLoop (fuel + 1) buffer p a =
      (setArray key na a).mapError .array >>= importLoop fuel buffer (p + 3 + keylen + bytes) := by
  rw [importLoop, if_neg (by omega), htype]
  show (peek buffer 2 (p + 1) >>= _) = _
  rw [hlen]
  show (readKey buffer (p + 3) keylen >>= _) = _
  rw [hkey]
  show (if buffer.length < p + 3 + keylen then _ else _) = _
  rw [if_neg (by omega)]
  show (checkHead (buffer.drop (p + 3 + keylen)) >>= _) = _
  rw [hhead]
  show (importLoop fuel (buffer.drop (p + 3 + keylen)) 7 {} >>= _) = _
  rw [hna]
  rfl

end

/-- **The loop over an export adds what was exported.** -/
theorem importLoop_export : ∀ (t : List (CString × Variant)),
    (∀ e ∈ t, (e.1.Bytewise ∧ e.1.length < 2 ^ 16) ∧ Portable e.2 ∧ Ordered e.2) →
    ∀ {fuel p : Nat} {buffer r : List UInt8} (a : AssocArray),
      buffer.drop p = imageOfTree t ++ ([0] ++ r) → (imageOfTree t).length < fuel →
      importLoop fuel buffer p a =
        ((add t a).mapError .array).map fun c => (c, p + (imageOfTree t).length + 1)
  | [] => by
    intro _ fuel p buffer r a hdrop hfuel
    obtain ⟨fuel, rfl⟩ := Nat.exists_eq_add_of_lt hfuel
    have hlen := length_behind hdrop
    have hpeek := peek_byte hdrop
    rw [importLoop, if_neg (by omega), hpeek]
    rfl
  | (key, .string value) :: t => by
    intro ht fuel p buffer r a hdrop hfuel
    simp only [List.forall_mem_cons] at ht
    obtain ⟨⟨⟨hkey, hkeysize⟩, hportable, _⟩, ht⟩ := ht
    cases hportable with | string _ hvalue hvaluesize =>
    rw [length_imageOfEntry, length_imageOfString] at hfuel ⊢
    obtain ⟨fuel, rfl⟩ : ∃ f, fuel = f + 1 := ⟨fuel - 1, by omega⟩
    simp only [imageOfTree, imageOfValue, List.cons_append, List.append_assoc] at hdrop
    obtain ⟨hp, htype, hlen, hread, hrest⟩ := entry_read hkey hkeysize hdrop
    have hvallen := peek_number (k := 3) hvaluesize hrest
    have htext := drop_behind hrest
    rw [networkBytes_length] at htext
    have hset := readValue_bytes hvalue htext (by simp)
    have htree := drop_behind htext
    rw [CString.bytes_length] at htree
    rw [importLoop_string hp htype hlen hread hvallen hset, setString, add, copyVariant]
    show (createTree key (.string value) a).mapError ImportException.array >>= _ =
      ((createTree key (.string value) a >>= add t).mapError ImportException.array).map _
    cases createTree key (.string value) a with
    | error e => rfl
    | ok b =>
      have hrestFuel : (imageOfTree t).length < fuel := by omega
      have hloop := importLoop_export t ht b htree hrestFuel
      have hend : p + 3 + key.length + 4 + value.length + (imageOfTree t).length + 1 =
          p + (3 + key.length + (4 + value.length) + (imageOfTree t).length) + 1 := by omega
      show importLoop fuel buffer _ b = _
      rw [hloop, hend]
      rfl
  | (key, .assocArray m u) :: t => by
    intro ht fuel p buffer r a hdrop hfuel
    simp only [List.forall_mem_cons] at ht
    obtain ⟨⟨⟨hkey, hkeysize⟩, hportable, hordered⟩, ht⟩ := ht
    have hcopy := copyVariant_ordered hordered
    have hcopy' := copyVariant_copy hordered
    cases hportable with | assocArray _ _ hkeys hbelow =>
    cases hordered with | assocArray _ _ hparts hsorted hbelow' =>
    rw [length_imageOfEntry, length_imageOfArray] at hfuel ⊢
    obtain ⟨fuel, rfl⟩ : ∃ f, fuel = f + 1 := ⟨fuel - 1, by omega⟩
    simp only [imageOfTree, imageOfValue, List.cons_append, List.append_assoc] at hdrop
    obtain ⟨hp, htype, hlen, hread, hrest⟩ := entry_read hkey hkeysize hdrop
    obtain ⟨hroom, hhead, hinner, htree⟩ := array_read hrest
    -- the array is imported into an empty one: its entries come back, with new counters
    have hadd := add_ordered hparts hsorted (fun e he => copyVariant_ordered (hbelow' e he)) (a := {})
      (fun _ _ e he => absurd he (List.not_mem_nil))
    have hinnerFuel : (imageOfTree u).length < fuel := by omega
    have hna := importLoop_export u (fun e he => ⟨hkeys e he, hbelow e he, hbelow' e he⟩) {} hinner hinnerFuel
    rw [hadd] at hna
    rw [recounted] at hcopy hcopy'
    rw [importLoop_array hroom htype hlen hread hhead hna, setArray, add, hcopy, Variant.ofArray]
    show (copyVariant (.assocArray (countKeys u 0) ([] ++ recountedTree u)) >>= _).mapError ImportException.array >>= _ = _
    rw [List.nil_append, hcopy']
    show (createTree key _ a).mapError ImportException.array >>= _ =
      ((createTree key _ a >>= add t).mapError ImportException.array).map _
    cases createTree key (.assocArray (countKeys u 0) (recountedTree u)) a with
    | error e => rfl
    | ok b =>
      have hrestFuel : (imageOfTree t).length < fuel := by omega
      have hloop := importLoop_export t ht b htree hrestFuel
      have hend : p + 3 + key.length + (7 + (imageOfTree u).length + 1) + (imageOfTree t).length + 1 =
          p + (3 + key.length + (8 + (imageOfTree u).length) + (imageOfTree t).length) + 1 := by omega
      show importLoop fuel buffer _ b = _
      rw [hloop, hend]
      rfl

/-- **To import an export is to add the array.** Whatever follows the export is left alone. -/
theorem import_export {a : AssocArray} (hportable : Portable (.ofArray a)) (hordered : Ordered (.ofArray a))
    (b : AssocArray) (rest : List UInt8) :
    importBinary (image a ++ rest) b =
      ((add a.tree b).mapError .array).map fun c => (c, (image a).length) := by
  have hbytes : image a ++ rest = magic ++ (imageOfTree a.tree ++ ([0] ++ rest)) := by
    simp only [image, Variant.ofArray, imageOfValue, List.append_assoc]
  obtain ⟨_, hhead, hinner, _⟩ := array_read (show (image a ++ rest).drop 0 = _ from hbytes)
  cases hportable with | assocArray _ _ hkeys hbelow =>
  cases hordered with | assocArray _ _ _ _ hbelow' =>
  have hlen : (image a).length = 8 + (imageOfTree a.tree).length := length_imageOfArray _ _
  have hfuel : (imageOfTree a.tree).length < (image a ++ rest).length := by
    rw [List.length_append, hlen]
    omega
  have hloop := importLoop_export a.tree (fun e he => ⟨hkeys e he, hbelow e he, hbelow' e he⟩) b hinner hfuel
  have hend : 7 + (imageOfTree a.tree).length + 1 = (image a).length := by omega
  rw [hend] at hloop
  rw [importBinary]
  show (checkHead ((image a ++ rest).drop 0) >>= _) = _
  rw [hhead]
  exact hloop

mutual

theorem uncounted_recounted : ∀ v : Variant, uncounted (recounted v) = uncounted v
  | .string _ => rfl
  | .assocArray _ tree => by rw [recounted, uncounted, uncounted, uncountedTree_recounted tree]

theorem uncountedTree_recounted : ∀ tree : List (CString × Variant),
    uncountedTree (recountedTree tree) = uncountedTree tree
  | [] => rfl
  | (key, a) :: tree => by
    rw [recountedTree, uncountedTree, uncountedTree, uncounted_recounted a, uncountedTree_recounted tree]

end

/-- **Out into bytes and back.** An export is imported into any array by adding the array that was
    exported. Imported into an empty one it is equal to it. -/
theorem export_import {malloc malloc' malloc'' : Nat → List UInt8} (hmalloc : ∀ n, (malloc n).length = n)
    (hmalloc' : ∀ n, (malloc' n).length = n) (hmalloc'' : ∀ n, (malloc'' n).length = n) {a : AssocArray}
    (hportable : Portable (.ofArray a)) (hordered : Ordered (.ofArray a)) (hsize : (image a).length ≤ 2 ^ 63) :
    ∃ bs, exportBytes malloc a = some bs ∧
      (∀ (b : AssocArray) (rest : List UInt8), importBinary (bs ++ rest) b =
        ((add a.tree b).mapError .array).map fun c => (c, bs.length)) ∧
      ∃ c, importBinary bs {} = .ok (c, bs.length) ∧ equals malloc' malloc'' c a = some true := by
  have hcopy := copyVariant_ordered hordered
  have himage : image ⟨countKeys a.tree 0, recountedTree a.tree⟩ = image a := by
    have hsame := imageOfValue_uncounted (recounted (.ofArray a))
    rw [uncounted_recounted, imageOfValue_uncounted] at hsame
    exact hsame.symm
  refine ⟨image a, exportBytes_eq hmalloc a hsize, import_export hportable hordered,
    ⟨countKeys a.tree 0, recountedTree a.tree⟩, ?_, ?_⟩
  · have himport := import_export hportable hordered {} []
    rw [List.append_nil] at himport
    rw [himport]
    cases hordered with | assocArray _ _ hkeys hsorted hbelow =>
    rw [add_ordered hkeys hsorted (fun e he => copyVariant_ordered (hbelow e he))
      (fun _ _ e he => absurd he (List.not_mem_nil))]
    rfl
  · simp [equals, exportBytes_eq hmalloc' _ (himage ▸ hsize), exportBytes_eq hmalloc'' a hsize, himage,
      memcmp_eq_zero]

theorem Ordered.nested : Ordered (.ofArray nested) := by
  have hnet : Ordered (.assocArray 0 [("rx".toList, .string "20".toList)]) :=
    .assocArray _ _ (by decide) (List.pairwise_singleton _ _) (by simpa using Ordered.string _)
  exact .assocArray _ _ (by decide) (by decide) (by simpa [AssocArray.nested] using ⟨Ordered.string _, hnet⟩)

theorem export_import_nested :
    ∃ bs, exportBytes (List.replicate · 0) nested = some bs ∧
      (∀ (b : AssocArray) (rest : List UInt8), importBinary (bs ++ rest) b =
        ((add nested.tree b).mapError .array).map fun c => (c, bs.length)) ∧
      ∃ c, importBinary bs {} = .ok (c, bs.length) ∧
        equals (List.replicate · 1) (List.replicate · 2) c nested = some true :=
  export_import (fun n => List.length_replicate) (fun n => List.length_replicate)
    (fun n => List.length_replicate) (.nested 0) .nested (by decide)

/-! ## What is accepted -/

theorem bind_eq_ok {ε α β : Type} {x : Except ε α} {f : α → Except ε β} {r : β} (h : x >>= f = .ok r) :
    ∃ y, x = .ok y ∧ f y = .ok r := by
  cases x with
  | error e => cases h
  | ok y => exact ⟨y, rfl, h⟩

theorem mapError_eq_ok {ε ε' α : Type} {x : Except ε α} {f : ε → ε'} {r : α} (h : x.mapError f = .ok r) :
    x = .ok r := by
  cases x with
  | error e => cases h
  | ok y => exact congrArg _ (Except.ok.inj h)

/-- What a loop that comes to its end did first. -/
inductive ImportStep (fuel : Nat) (buffer : List UInt8) (p : Nat) (a : AssocArray) : AssocArray → Nat → Prop
  | behind (room : buffer.length ≤ p) : ImportStep fuel buffer p a a (p + 1)
  | last (room : p < buffer.length) (type : peek buffer 1 p = .ok 0) : ImportStep fuel buffer p a a (p + 1)
  | string {key value : CString} {keylen vallen n : Nat} {b c : AssocArray} (room : p < buffer.length)
      (type : peek buffer 1 p = .ok 4) (len : peek buffer 2 (p + 1) = .ok keylen)
      (hkey : readKey buffer (p + 3) keylen = .ok key) (hvallen : peek buffer 4 (p + 3 + keylen) = .ok vallen)
      (hvalue : readValue buffer (p + 3 + keylen + 4) vallen = .ok value) (set : setString key value a = .ok b)
      (rest : importLoop fuel buffer (p + 3 + keylen + 4 + vallen) b = .ok (c, n)) :
      ImportStep fuel buffer p a c n
  | array {key : CString} {keylen bytes n : Nat} {na b c : AssocArray} (room : p + 3 + keylen ≤ buffer.length)
      (type : peek buffer 1 p = .ok 5) (len : peek buffer 2 (p + 1) = .ok keylen)
      (hkey : readKey buffer (p + 3) keylen = .ok key) (head : checkHead (buffer.drop (p + 3 + keylen)) = .ok ())
      (hna : importLoop fuel (buffer.drop (p + 3 + keylen)) 7 {} = .ok (na, bytes)) (set : setArray key na a = .ok b)
      (rest : importLoop fuel buffer (p + 3 + keylen + bytes) b = .ok (c, n)) :
      ImportStep fuel buffer p a c n

section
variable {fuel p n : Nat} {buffer : List UInt8} {a c : AssocArray}

theorem importLoop_cases (h : importLoop (fuel + 1) buffer p a = .ok (c, n)) : ImportStep fuel buffer p a c n := by
  rw [importLoop] at h
  by_cases hroom : buffer.length ≤ p
  · rw [if_pos hroom] at h
    cases h
    exact .behind hroom
  rw [if_neg hroom] at h
  obtain ⟨type, htype, h⟩ := bind_eq_ok h
  by_cases hlast : type = 0
  · rw [if_pos hlast] at h
    cases h
    exact .last (by omega) (hlast ▸ htype)
  rw [if_neg hlast] at h
  obtain ⟨keylen, hlen, h⟩ := bind_eq_ok h
  obtain ⟨key, hkey, h⟩ := bind_eq_ok h
  by_cases hstring : type = 4
  · rw [if_pos hstring] at h
    obtain ⟨vallen, hvallen, h⟩ := bind_eq_ok h
    obtain ⟨value, hvalue, h⟩ := bind_eq_ok h
    obtain ⟨b, hset, h⟩ := bind_eq_ok h
    exact .string (by omega) (hstring ▸ htype) hlen hkey hvallen hvalue (mapError_eq_ok hset) h
  rw [if_neg hstring] at h
  by_cases harray : type = 5
  · rw [if_pos harray] at h
    by_cases hbeyond : buffer.length < p + 3 + keylen
    · rw [if_pos hbeyond] at h
      cases h
    rw [if_neg hbeyond] at h
    obtain ⟨_, hhead, h⟩ := bind_eq_ok h
    obtain ⟨⟨na, bytes⟩, hna, h⟩ := bind_eq_ok h
    obtain ⟨b, hset, h⟩ := bind_eq_ok h
    exact .array (by omega) (harray ▸ htype) hlen hkey hhead hna (mapError_eq_ok hset) h
  rw [if_neg harray] at h
  by_cases hunmodelled : type ∈ [6, 8, 9, 10]
  · rw [if_pos hunmodelled] at h
    cases h
  rw [if_neg hunmodelled] at h
  obtain ⟨_, _, h⟩ := bind_eq_ok h
  cases h

/-- The loop comes behind where it began. -/
theorem importLoop_lt (h : importLoop fuel buffer p a = .ok (c, n)) : p < n := by
  induction fuel generalizing buffer p a c n with
  | zero => cases h
  | succ fuel ih =>
    cases importLoop_cases h with
    | behind => omega
    | last => omega
    | string _ _ _ _ _ _ _ rest =>
      have hrest := ih rest
      omega
    | array _ _ _ _ _ _ _ rest =>
      have hrest := ih rest
      omega

/-- A loop that ends inside the buffer ends with a 0. -/
theorem importLoop_last (h : importLoop fuel buffer p a = .ok (c, n)) (hn : n ≤ buffer.length) :
    peek buffer 1 (n - 1) = .ok 0 := by
  induction fuel generalizing buffer p a c n with
  | zero => cases h
  | succ fuel ih =>
    cases importLoop_cases h with
    | behind room => omega
    | last room type => exact type
    | string _ _ _ _ _ _ _ rest => exact ih rest hn
    | array _ _ _ _ _ _ _ rest => exact ih rest hn

end

section
variable {pre x y : List UInt8} {p n k : Nat}

theorem window_append (x : List UInt8) (hroom : p + k ≤ pre.length) :
    ((pre ++ x).drop p).take k = (pre.drop p).take k := by
  rw [List.drop_append_of_le_length (by omega), List.take_append_of_le_length (by rw [List.length_drop]; omega)]

theorem peek_append {v : Nat} (h : peek (pre ++ x) k p = .ok v) (hroom : p + k ≤ pre.length) :
    peek (pre ++ y) k p = .ok v := by
  rw [peek, if_pos (by rw [List.length_append]; omega), window_append _ hroom] at h ⊢
  exact h

theorem readKey_append {key : CString} {keylen : Nat} (h : readKey (pre ++ x) p keylen = .ok key)
    (hroom : p + keylen ≤ pre.length) : readKey (pre ++ y) p keylen = .ok key := by
  simp only [readKey, window_append _ hroom] at h ⊢
  exact h

/-- A text that ends in front reads the same, whatever follows. -/
theorem readValue_append {value : CString} {vallen q : Nat} (h : readValue (pre ++ x) p vallen = .ok value)
    (hpq : p ≤ q) (hq : q < pre.length) (hzero : peek (pre ++ x) 1 q = .ok 0) :
    readValue (pre ++ y) p vallen = .ok value := by
  have hmem : (0 : UInt8) ∈ pre.drop p := by
    obtain ⟨b, hb⟩ : ∃ b, pre.drop q = b :: pre.drop (q + 1) := ⟨pre[q], List.drop_eq_getElem_cons hq⟩
    have hdrop : (pre ++ x).drop q = b :: (pre.drop (q + 1) ++ x) := by
      rw [List.drop_append_of_le_length (by omega), hb, List.cons_append]
    have hbyte := peek_byte hdrop
    rw [hbyte] at hzero
    have hb0 : b = 0 := UInt8.toNat_inj.mp (Except.ok.inj hzero)
    have hsub : pre.drop q = (pre.drop p).drop (q - p) := by
      rw [List.drop_drop]
      congr 1
      omega
    apply List.mem_of_mem_drop (i := q - p)
    rw [← hsub, hb, hb0]
    exact List.mem_cons_self
  have htext : ∀ z : List UInt8, ((pre ++ z).drop p).takeWhile (· ≠ 0) = (pre.drop p).takeWhile (· ≠ 0) := by
    intro z
    rw [List.drop_append_of_le_length (by omega), List.takeWhile_append, if_neg (Nat.ne_of_lt (text_lt hmem))]
  have hlen := text_lt hmem
  rw [List.length_drop] at hlen
  simp only [readValue, htext] at h ⊢
  rw [if_neg (by rw [List.length_append]; omega)] at h ⊢
  exact h

theorem checkHead_append (h : checkHead (pre ++ x) = .ok ()) (hroom : 8 ≤ pre.length) :
    checkHead (pre ++ y) = .ok () := by
  have hhead : ∀ z : List UInt8, (pre ++ z).take 7 = pre.take 7 :=
    fun z => List.take_append_of_le_length (by omega)
  simp only [checkHead, hhead, List.length_append] at h ⊢
  rw [if_neg (by omega)] at h ⊢
  by_cases hmagic : pre.take 7 = magic
  · rw [if_neg]
    intro hbad
    rcases hbad with hbad | hbad
    · omega
    · exact hbad hmagic
  · rw [if_pos (Or.inr hmagic)] at h
    cases h

end

/-- **The loop reads no further than where it ends.** -/
theorem importLoop_append {pre x y : List UInt8} {fuel fuel' p n : Nat} {a c : AssocArray}
    (h : importLoop fuel (pre ++ x) p a = .ok (c, n)) (hn : n ≤ pre.length) (hfuel : n ≤ p + fuel') :
    importLoop fuel' (pre ++ y) p a = .ok (c, n) := by
  induction fuel generalizing pre x y fuel' p a c n with
  | zero => cases h
  | succ fuel ih =>
    have hpn := importLoop_lt h
    obtain ⟨fuel', rfl⟩ : ∃ f, fuel' = f + 1 := ⟨fuel' - 1, by omega⟩
    have hlength : pre.length ≤ (pre ++ x).length := by
      rw [List.length_append]
      omega
    have hlength' : pre.length ≤ (pre ++ y).length := by
      rw [List.length_append]
      omega
    have hzero := importLoop_last h (by omega)
    cases importLoop_cases h with
    | behind room => omega
    | last room type =>
      rw [importLoop, if_neg (by omega), peek_append type (by omega)]
      rfl
    | string room type len hkey hvallen hvalue set rest =>
      have hrest := importLoop_lt rest
      rw [importLoop_string (by omega) (peek_append type (by omega)) (peek_append len (by omega))
        (readKey_append hkey (by omega)) (peek_append hvallen (by omega))
        (readValue_append hvalue (q := n - 1) (by omega) (by omega) hzero), set]
      exact ih rest hn (by omega)
    | @array key keylen bytes _ na b _ room type len hkey head hna set rest =>
      have hrest := importLoop_lt rest
      have hbytes := importLoop_lt hna
      have hdrop : ∀ z : List UInt8, (pre ++ z).drop (p + 3 + keylen) = pre.drop (p + 3 + keylen) ++ z :=
        fun z => List.drop_append_of_le_length (by omega)
      have hinner : (pre.drop (p + 3 + keylen)).length = pre.length - (p + 3 + keylen) := List.length_drop
      rw [hdrop] at head hna
      rw [importLoop_array (by omega) (peek_append type (by omega)) (peek_append len (by omega))
        (readKey_append hkey (by omega)) (by rw [hdrop]; exact checkHead_append head (by omega))
        (by rw [hdrop]; exact ih hna (by omega) (by omega)), set]
      exact ih rest hn (by omega)

/-- **What is accepted says where it ends.** Bytes from which an array was imported up to their end are
    imported as that array, whatever follows them. -/
theorem import_append {pre x y : List UInt8} {n : Nat} {a c : AssocArray}
    (h : importBinary (pre ++ x) a = .ok (c, n)) (hn : n ≤ pre.length) :
    importBinary (pre ++ y) a = .ok (c, n) := by
  rw [importBinary] at h
  obtain ⟨_, hhead, hloop⟩ := bind_eq_ok h
  have hlt := importLoop_lt hloop
  rw [importBinary, checkHead_append hhead (by omega)]
  exact importLoop_append hloop hn (by rw [List.length_append]; omega)

theorem import_append_nested :
    importBinary (image nested ++ [80, 80]) {} = .ok (⟨0, nested.tree⟩, 46) := by
  have hnone : importBinary (image nested ++ []) {} = .ok (⟨0, nested.tree⟩, 46) := by rfl
  exact import_append hnone (by decide)

/-! ## The fuel -/

theorem bind_eq_error {ε α β : Type} {x : Except ε α} {f : α → Except ε β} {e : ε} (h : x >>= f = .error e)
    (hx : x ≠ .error e) : ∃ y, x = .ok y ∧ f y = .error e := by
  cases x with
  | error e' =>
    cases h
    exact absurd rfl hx
  | ok y => exact ⟨y, rfl, h⟩

section
variable {buffer : List UInt8} {p k : Nat}

theorem peek_fuel : peek buffer k p ≠ .error .outOfFuel := by
  rw [peek]
  split <;> simp

theorem readKey_fuel : readKey buffer p k ≠ .error .outOfFuel := by
  simp only [readKey]
  split
  · simp
  · split <;> simp

theorem readValue_fuel : readValue buffer p k ≠ .error .outOfFuel := by
  simp only [readValue]
  split <;> simp

theorem checkHead_fuel : checkHead buffer ≠ .error .outOfFuel := by
  rw [checkHead]
  split
  · simp
  · split <;> simp

theorem mapError_fuel {x : Except ArrayException AssocArray} :
    x.mapError ImportException.array ≠ .error .outOfFuel := by
  cases x <;> simp [Except.mapError]

theorem checkHead_length (h : checkHead buffer = .ok ()) : 8 ≤ buffer.length := by
  rw [checkHead] at h
  by_contra hshort
  split at h
  · cases h
  · rw [if_pos (Or.inl (by omega))] at h
    cases h

end

theorem importLoop_fuel {fuel p : Nat} {buffer : List UInt8} {a : AssocArray} (hfuel : buffer.length - p < fuel) :
    importLoop fuel buffer p a ≠ .error .outOfFuel := by
  induction fuel generalizing buffer p a with
  | zero => omega
  | succ fuel ih =>
    intro h
    rw [importLoop] at h
    by_cases hroom : buffer.length ≤ p
    · rw [if_pos hroom] at h
      cases h
    rw [if_neg hroom] at h
    obtain ⟨type, -, h⟩ := bind_eq_error h peek_fuel
    by_cases hlast : type = 0
    · rw [if_pos hlast] at h
      cases h
    rw [if_neg hlast] at h
    obtain ⟨keylen, -, h⟩ := bind_eq_error h peek_fuel
    obtain ⟨key, -, h⟩ := bind_eq_error h readKey_fuel
    by_cases hstring : type = 4
    · rw [if_pos hstring] at h
      obtain ⟨vallen, -, h⟩ := bind_eq_error h peek_fuel
      obtain ⟨value, -, h⟩ := bind_eq_error h readValue_fuel
      obtain ⟨b, -, h⟩ := bind_eq_error h mapError_fuel
      exact ih (by omega) h
    rw [if_neg hstring] at h
    by_cases harray : type = 5
    · rw [if_pos harray] at h
      by_cases hbeyond : buffer.length < p + 3 + keylen
      · rw [if_pos hbeyond] at h
        cases h
      rw [if_neg hbeyond] at h
      obtain ⟨_, hhead, h⟩ := bind_eq_error h checkHead_fuel
      have hlen := checkHead_length hhead
      rw [List.length_drop] at hlen
      obtain ⟨⟨na, bytes⟩, hna, h⟩ := bind_eq_error h (ih (by rw [List.length_drop]; omega))
      have hbytes := importLoop_lt hna
      obtain ⟨b, -, h⟩ := bind_eq_error h mapError_fuel
      exact ih (by omega) h
    rw [if_neg harray] at h
    by_cases hunmodelled : type ∈ [6, 8, 9, 10]
    · rw [if_pos hunmodelled] at h
      cases h
    rw [if_neg hunmodelled] at h
    obtain ⟨_, -, h⟩ := bind_eq_error h peek_fuel
    cases h

/-- The import of any bytes comes to an end. -/
theorem importBinary_fuel (buffer : List UInt8) (a : AssocArray) : importBinary buffer a ≠ .error .outOfFuel := by
  intro h
  rw [importBinary] at h
  obtain ⟨_, hhead, h⟩ := bind_eq_error h checkHead_fuel
  have hlen := checkHead_length hhead
  exact importLoop_fuel (by omega) h

end AssocArray

end UdpPingPong
