import UdpPingPong.Stat.Export

/- The equality of two associative arrays: `AssocArray::operator==`.

   Both arrays are exported into fresh memory, and the bytes are compared.

   1. `equals`: the two exports and the comparison;
   2. `Portable`: what the format can carry. The length of a key has 16 bits in it, that of
      a value 32, and texts end at a 0;
   3. `imageOfValue_inj`: the bytes say what was exported, and where it ends;
   4. `equals_iff`: two arrays are equal exactly when their entries are, in their order and
      on every level. -/
namespace UdpPingPong

open Memory

namespace AssocArray

/-- `ByteArrayPtr::memcmp`, over signed characters. -/
def memcmp : List UInt8 → List UInt8 → Int
  | [], [] => 0
  | [], _ :: _ => -1
  | _ :: _, [] => 1
  | x :: xs, y :: ys => if x.toInt8 < y.toInt8 then -1 else if y.toInt8 < x.toInt8 then 1 else memcmp xs ys

/-- `exportBinary` into a `ByteArray`: `malloc n` is what stands in `n` bytes of fresh memory. -/
def exportBytes (malloc : Nat → List UInt8) (a : AssocArray) : Option (List UInt8) := do
  let size ← binarySize a
  let (ws, realsize) := exportBinary true size a
  let _ ← realsize
  return storeAll (malloc size) ws

/-- `operator==`. -/
def equals (malloc malloc' : Nat → List UInt8) (a other : AssocArray) : Option Bool := do
  let b1 ← exportBytes malloc a
  let b2 ← exportBytes malloc' other
  return memcmp b1 b2 = 0

mutual

/-- A value without the counters for "[]" keys. -/
def uncounted : Variant → Variant
  | .string value => .string value
  | .assocArray _ tree => .assocArray 0 (uncountedTree tree)

def uncountedTree : List (CString × Variant) → List (CString × Variant)
  | [] => []
  | (key, a) :: tree => (key, uncounted a) :: uncountedTree tree

end

/-- Texts of single bytes whose lengths fit the format. -/
inductive Portable : Variant → Prop
  | string (s : CString) (bytewise : s.Bytewise) (size : s.length < 2 ^ 32) : Portable (.string s)
  | assocArray (m : UInt64) (t : List (CString × Variant))
      (keys : ∀ e ∈ t, e.1.Bytewise ∧ e.1.length < 2 ^ 16) (below : ∀ e ∈ t, Portable e.2) :
      Portable (.assocArray m t)

theorem memcmp_eq_zero (bs cs : List UInt8) : memcmp bs cs = 0 ↔ bs = cs := by
  induction bs, cs using memcmp.induct with
  | case1 => simp [memcmp]
  | case2 => simp [memcmp]
  | case3 => simp [memcmp]
  | case4 x xs y ys hlt =>
    have hne : x ≠ y := by
      intro h
      subst h
      exact Int8.lt_irrefl hlt
    simp [memcmp, hlt, hne]
  | case5 x xs y ys hlt hgt =>
    have hne : x ≠ y := by
      intro h
      subst h
      exact Int8.lt_irrefl hgt
    simp [memcmp, hlt, hgt, hne]
  | case6 x xs y ys hlt hgt ih =>
    have heq : x = y := by
      have hint : x.toInt8 = y.toInt8 := Int8.le_antisymm (Int8.not_lt.mp hgt) (Int8.not_lt.mp hlt)
      rw [← UInt8.toUInt8_toInt8 x, hint, UInt8.toUInt8_toInt8]
    subst heq
    simp [memcmp, ih, Int8.lt_irrefl]

theorem typeOf_ne_zero (v : Variant) : typeOf v ≠ 0 := by
  cases v <;> simp [typeOf]

/-- A text behind its length is known from the bytes, and so is what follows it. -/
theorem text_inj {k : Nat} {s t : CString} {r r' : List UInt8} (hs : s.Bytewise) (ht : t.Bytewise)
    (hsize : s.length < 256 ^ k) (hsize' : t.length < 256 ^ k)
    (h : networkBytes k s.length ++ (s.bytes ++ r) = networkBytes k t.length ++ (t.bytes ++ r')) :
    s = t ∧ r = r' := by
  obtain ⟨hlen, htext⟩ := List.append_inj h (by rw [networkBytes_length, networkBytes_length])
  have hsame : s.length = t.length := networkBytes_inj hsize hsize' hlen
  obtain ⟨hbytes, hrest⟩ := List.append_inj htext (by rw [CString.bytes_length, CString.bytes_length, hsame])
  exact ⟨CString.bytes_inj hs ht hbytes, hrest⟩

mutual

/-- A value is known from its image up to its counters, and so is what follows it. -/
theorem imageOfValue_inj {r r' : List UInt8} : ∀ v w : Variant, Portable v → Portable w → typeOf v = typeOf w →
    imageOfValue v ++ r = imageOfValue w ++ r' → uncounted v = uncounted w ∧ r = r'
  | .string s, .string t => by
    intro hv hw _ h
    cases hv with | string _ hs hsize =>
    cases hw with | string _ ht hsize' =>
    rw [imageOfValue, imageOfValue, List.append_assoc, List.append_assoc] at h
    obtain ⟨hst, hr⟩ := text_inj hs ht hsize hsize' h
    exact ⟨by rw [hst], hr⟩
  | .assocArray m t, .assocArray n u => by
    intro hv hw _ h
    cases hv with | assocArray _ _ hkeys hbelow =>
    cases hw with | assocArray _ _ hkeys' hbelow' =>
    simp only [imageOfValue, List.append_assoc] at h
    obtain ⟨htree, hr⟩ := imageOfTree_inj t u (fun e he => ⟨hkeys e he, hbelow e he⟩)
      (fun e he => ⟨hkeys' e he, hbelow' e he⟩) (List.append_cancel_left h)
    exact ⟨by rw [uncounted, uncounted, htree], hr⟩
  | .string _, .assocArray _ _ => fun _ _ htype => absurd htype (by simp [typeOf])
  | .assocArray _ _, .string _ => fun _ _ htype => absurd htype (by simp [typeOf])

theorem imageOfTree_inj {r r' : List UInt8} : ∀ t u : List (CString × Variant),
    (∀ e ∈ t, (e.1.Bytewise ∧ e.1.length < 2 ^ 16) ∧ Portable e.2) →
    (∀ e ∈ u, (e.1.Bytewise ∧ e.1.length < 2 ^ 16) ∧ Portable e.2) →
    imageOfTree t ++ ([0] ++ r) = imageOfTree u ++ ([0] ++ r') → uncountedTree t = uncountedTree u ∧ r = r'
  | [], [] => by
    intro _ _ h
    exact ⟨rfl, List.append_cancel_left (List.append_cancel_left h)⟩
  | [], (key, a) :: u => by
    intro _ _ h
    rw [imageOfTree, imageOfTree] at h
    exact absurd (List.cons.inj h).1.symm (typeOf_ne_zero a)
  | (key, a) :: t, [] => by
    intro _ _ h
    rw [imageOfTree, imageOfTree] at h
    exact absurd (List.cons.inj h).1 (typeOf_ne_zero a)
  | (key, a) :: t, (key', b) :: u => by
    intro ht hu h
    rw [List.forall_mem_cons] at ht hu
    obtain ⟨⟨⟨hkey, hsize⟩, ha⟩, ht⟩ := ht
    obtain ⟨⟨⟨hkey', hsize'⟩, hb⟩, hu⟩ := hu
    simp only [imageOfTree, List.cons_append, List.append_assoc] at h
    obtain ⟨htype, hbody⟩ := List.cons.inj h
    obtain ⟨hkeys, hvalues⟩ := text_inj hkey hkey' hsize hsize' hbody
    obtain ⟨hab, htrees⟩ := imageOfValue_inj a b ha hb htype hvalues
    obtain ⟨htu, hr⟩ := imageOfTree_inj t u ht hu htrees
    simp only at hkeys
    exact ⟨by rw [uncountedTree, uncountedTree, hkeys, hab, htu], hr⟩

end

mutual

/-- The counters leave no trace in an export. -/
theorem imageOfValue_uncounted : ∀ v : Variant, imageOfValue (uncounted v) = imageOfValue v
  | .string _ => rfl
  | .assocArray _ tree => by rw [uncounted, imageOfValue, imageOfValue, imageOfTree_uncounted tree]

theorem imageOfTree_uncounted : ∀ tree : List (CString × Variant),
    imageOfTree (uncountedTree tree) = imageOfTree tree
  | [] => rfl
  | (key, a) :: tree => by
    have htype : typeOf (uncounted a) = typeOf a := by cases a <;> rfl
    rw [uncountedTree, imageOfTree, imageOfTree, imageOfValue_uncounted a, imageOfTree_uncounted tree, htype]

end

theorem exportBytes_eq {malloc : Nat → List UInt8} (hmalloc : ∀ n, (malloc n).length = n) (a : AssocArray)
    (h63 : (image a).length ≤ 2 ^ 63) : exportBytes malloc a = some (image a) := by
  have h64 : (image a).length < 2 ^ 64 := by omega
  obtain ⟨hsize, hreal, hmem⟩ := export_exact h64 a h63
  rw [if_neg (by omega)] at hreal
  have hall := hmem (malloc (image a).length) (Nat.le_refl _) (by rw [hmalloc])
  have hdrop : (malloc (image a).length).drop (image a).length = [] := by
    apply List.drop_eq_nil_of_le
    rw [hmalloc]
  rw [hdrop, List.append_nil] at hall
  simp [exportBytes, hsize, hreal, hall]

/-- **When two arrays are equal.** Their entries are, with their keys and in their order, on every level;
    the counters for "[]" keys do not matter. -/
theorem equals_iff {malloc malloc' : Nat → List UInt8} (hmalloc : ∀ n, (malloc n).length = n)
    (hmalloc' : ∀ n, (malloc' n).length = n) {a other : AssocArray} (ha : Portable (.ofArray a))
    (hother : Portable (.ofArray other)) (hsize : (image a).length ≤ 2 ^ 63)
    (hsize' : (image other).length ≤ 2 ^ 63) :
    ∃ r, equals malloc malloc' a other = some r ∧ (r = true ↔ uncountedTree a.tree = uncountedTree other.tree) := by
  refine ⟨decide (memcmp (image a) (image other) = 0), ?_, ?_⟩
  · simp [equals, exportBytes_eq hmalloc a hsize, exportBytes_eq hmalloc' other hsize']
  · rw [decide_eq_true_iff, memcmp_eq_zero]
    refine ⟨?_, ?_⟩
    · intro h
      have himage : image a ++ [] = image other ++ [] := by rw [h]
      obtain ⟨hall, _⟩ := imageOfValue_inj _ _ ha hother rfl himage
      injection hall
    · intro h
      rw [image, image, Variant.ofArray, Variant.ofArray, ← imageOfValue_uncounted (.assocArray a.maxint a.tree),
        ← imageOfValue_uncounted (.assocArray other.maxint other.tree), uncounted, uncounted, h]

theorem Portable.nested (m : UInt64) : Portable (.assocArray m nested.tree) := by
  have hone : Portable (.string "1".toList) := .string _ (by simp [CString.Bytewise]) (by simp)
  have hrx : Portable (.string "20".toList) := .string _ (by simp [CString.Bytewise]) (by simp)
  have hnet : Portable (.assocArray 0 [("rx".toList, .string "20".toList)]) :=
    .assocArray _ _ (by simp [CString.Bytewise]) (by simpa using hrx)
  exact .assocArray _ _ (by simp [AssocArray.nested, CString.Bytewise])
    (by simpa [AssocArray.nested] using ⟨hone, hnet⟩)

theorem equals_nested :
    equals (List.replicate · 0) (List.replicate · 1) nested { nested with maxint := 5 } = some true := by
  have hmalloc : ∀ (b : UInt8) n, (List.replicate n b).length = n := fun _ _ => List.length_replicate
  have hone : Portable (.ofArray nested) := .nested 0
  have hother : Portable (.ofArray { nested with maxint := 5 }) := .nested 5
  obtain ⟨r, hr, hiff⟩ := equals_iff (hmalloc 0) (hmalloc 1) hone hother (by decide) (by decide)
  rw [hr, hiff.mpr rfl]

end AssocArray

end UdpPingPong
