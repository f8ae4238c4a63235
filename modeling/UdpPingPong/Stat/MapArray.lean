import UdpPingPong.Stat.AssocArray
import UdpPingPong.Lib.RbTree

/- The associative array in the search tree that a `std::map` is.

   `ArrayKey::compare` is no order. A search can turn away from a key that is there, and
   where an array has such keys, the calls before it decide which of them are found. Where
   the keys of an array are in order and the key that is looked for has a place among them,
   the tree does what the list of its entries does.

   1. `MapVariant` and `MapArray`: the values, with the calls that walk a path or set a string;
   2. `toArray`: the array of the entries. `findPath_refines` and `createPath_refines`: along a
      path whose keys have their places the tree and the entries agree;
   3. `OrderedIn`: keys from a set on which the comparison is an order, in order on every level.
      `writes_refines`: all writes along paths of such keys are those among the entries;
   4. `setStrings_words`: strings set under words, which have their places in every array whose
      keys are in order. -/
namespace UdpPingPong

/-- `Variant` with the tree of an array. -/
inductive MapVariant where
  | string (value : CString)
  | assocArray (maxint : UInt64) (tree : RbTree CString MapVariant)

/-- `AssocArray` with its `std::map`. -/
structure MapArray where
  maxint : UInt64 := 0
  tree : RbTree CString MapVariant := .leaf

def MapVariant.ofArray (a : MapArray) : MapVariant := .assocArray a.maxint a.tree

namespace MapArray

/-- `Tree.find`. -/
def entry (key : CString) (a : MapArray) : Option MapVariant := a.tree.find? ArrayKey.compare key

/-- The array that `createTree` goes on in below `key`: the one that is there, or
    a new one where there is nothing or something else. -/
def sub (key : CString) (a : MapArray) : MapArray :=
  match a.entry key with
  | some (.assocArray maxint tree) => ⟨maxint, tree⟩
  | _ => {}

/-- `findInternal` for a key split into its parts. -/
def findPath : List CString → MapArray → Option MapVariant
  | [], _ => none
  | firstkey :: rest, a =>
    match a.entry firstkey with
    | none => none
    | some v =>
      if rest = [] then some v
      else match v with
        | .assocArray maxint tree => findPath rest ⟨maxint, tree⟩
        | .string _ => none

def findInternal (key : CString) (a : MapArray) : Except ArrayException (Option MapVariant) :=
  if key.explode = [] then .error (.invalidKey key) else .ok (findPath key.explode a)

/-- `createTree` for a key split into its parts. -/
def createPath : List CString → MapVariant → MapArray → MapArray
  | [], _, a => a
  | firstkey :: rest, var, a =>
    let (key, maxint) := AssocArray.nextKey firstkey a.maxint
    let value := if rest = [] then var else .ofArray (createPath rest var (a.sub key))
    { maxint, tree := a.tree.put ArrayKey.compare key value }

def createTree (key : CString) (var : MapVariant) (a : MapArray) : Except ArrayException MapArray :=
  if key.explode = [] then .error (.invalidKey key) else .ok (createPath key.explode var a)

/-- `set(key, String)` and `setf`. -/
def setString (key value : CString) (a : MapArray) : Except ArrayException MapArray :=
  createTree key (.string value) a

/-- Calls of `setf` in a row. -/
def setStrings (ws : List (CString × CString)) (a : MapArray) : Except ArrayException MapArray :=
  ws.foldlM (fun a w => setString w.1 w.2 a) a

def getString (key : CString) (a : MapArray) : Except ArrayException CString := do
  match ← findInternal key a with
  | none => throw (.keyNotFound key)
  | some (.string value) => return value
  | some _ => throw (.typeConversion (key ++ " is not a String".toList))

end MapArray

/-! ## The array of the entries -/

mutual

def MapVariant.toVariant : MapVariant → Variant
  | .string value => .string value
  | .assocArray maxint tree => .assocArray maxint (MapVariant.entries tree)

/-- The entries of a tree in order. -/
def MapVariant.entries : RbTree CString MapVariant → List (CString × Variant)
  | .leaf => []
  | .node _ left key value right =>
    MapVariant.entries left ++ (key, value.toVariant) :: MapVariant.entries right

end

namespace MapVariant

theorem entries_eq (t : RbTree CString MapVariant) : entries t = KeyList.mapValues toVariant t.toList := by
  induction t with
  | leaf => rfl
  | node c l key value r ihl ihr =>
    rw [entries, ihl, ihr, RbTree.toList_node]
    simp [KeyList.mapValues]

end MapVariant

namespace AssocArray

/-- The keys of a path have their places: each among the keys of its level. -/
def FitsPath : List CString → AssocArray → Prop
  | [], _ => True
  | key :: rest, a => KeyList.Fits ArrayKey.compare key a.tree ∧ FitsPath rest (a.sub key)

end AssocArray

namespace MapArray

def toArray (a : MapArray) : AssocArray := ⟨a.maxint, MapVariant.entries a.tree⟩

open AssocArray (FitsPath Plain)

section
variable {a : MapArray} {k key : CString} {p : List CString} {v : MapVariant}

theorem fits_toList (h : KeyList.Fits ArrayKey.compare k a.toArray.tree) :
    KeyList.Fits ArrayKey.compare k a.tree.toList := by
  rw [toArray, MapVariant.entries_eq, KeyList.mapValues] at h
  exact List.pairwise_map.mp h

theorem entry_refines (h : KeyList.Fits ArrayKey.compare k a.toArray.tree) :
    a.toArray.entry k = (a.entry k).map MapVariant.toVariant := by
  rw [entry, RbTree.find?_eq (fits_toList h), AssocArray.entry, toArray, MapVariant.entries_eq,
    KeyList.find?_mapValues]

theorem sub_refines (h : KeyList.Fits ArrayKey.compare k a.toArray.tree) :
    a.toArray.sub k = (a.sub k).toArray := by
  rw [AssocArray.sub, entry_refines h, sub]
  cases a.entry k with
  | none => rfl
  | some w => cases w <;> rfl

/-- **A search along a path with its places finds what is among the entries.** -/
theorem findPath_refines (h : FitsPath p a.toArray) :
    AssocArray.findPath p a.toArray = (a.findPath p).map MapVariant.toVariant := by
  induction p generalizing a with
  | nil => rfl
  | cons k p ih =>
    obtain ⟨hk, hp⟩ := h
    rw [sub_refines hk, sub] at hp
    rw [AssocArray.findPath, entry_refines hk, findPath]
    cases he : a.entry k with
    | none => rfl
    | some w =>
      rw [he] at hp
      cases w with
      | string s =>
        simp only [Option.map_some, MapVariant.toVariant]
        split <;> rfl
      | assocArray m t =>
        simp only [Option.map_some, MapVariant.toVariant]
        split
        · rfl
        · exact ih hp

/-- **A write along such a path is the write among the entries.** -/
theorem createPath_refines (hp : ∀ k ∈ p, Plain k) (h : FitsPath p a.toArray) :
    (a.createPath p v).toArray = AssocArray.createPath p v.toVariant a.toArray := by
  induction p generalizing a with
  | nil => rfl
  | cons k p ih =>
    rw [List.forall_mem_cons] at hp
    obtain ⟨hk, hrest⟩ := h
    rw [sub_refines hk] at hrest
    -- what is stored under the key: the value, or the array below
    have hvalue : (if p = [] then v.toVariant else .ofArray (AssocArray.createPath p v.toVariant (a.toArray.sub k))) =
        (if p = [] then v else .ofArray (createPath p v (a.sub k))).toVariant := by
      rw [sub_refines hk, ← ih hp.2 hrest]
      split <;> rfl
    simp only [createPath, AssocArray.createPath, AssocArray.nextKey_of_plain hp.1, hvalue]
    simp only [toArray, MapVariant.entries_eq, RbTree.put_toList (fits_toList hk), KeyList.put_mapValues]

end

end MapArray

/-! ## Keys in order -/

namespace ArrayKey
open CString

section
variable {α : Type} {k key s t : CString} {l : List (CString × α)} {v : α}

theorem Worded.compare_eq_left (hk : Worded k) (s : CString) : compare k s = k.strCaseCmp s :=
  compare_of_not_numeric fun h => hk.not_numeric h.1

/-- **A word has a place among any keys that are in order.** -/
theorem Worded.fits (hk : Worded k) (hl : KeyList.Sorted compare l) : KeyList.Fits compare k l := by
  apply hl.imp
  intro e x hlt
  rw [hk.compare_eq x.1]
  by_cases he : e.1.isNumeric
  · -- a number is in front of the word
    rw [numeric_lt he hk]
    exact ⟨fun _ => rfl, fun h => absurd h (by decide)⟩
  · rw [compare_of_not_numeric fun h => he h.1] at hlt
    rw [hk.compare_eq e.1]
    exact KeyList.place_of_lt hlt k

/-- A word that is put takes no other key its place. -/
theorem Worded.fits_put (hk : Worded k) (hl : KeyList.Sorted compare l) (h : KeyList.Fits compare key l) :
    KeyList.Fits compare key (KeyList.put compare k v l) := by
  rw [KeyList.fits_iff (KeyList.put_sorted (hk.fits hl) hl)]
  intro a ha b hb hlt
  rcases KeyList.mem_put_keys ha with rfl | ha <;> rcases KeyList.mem_put_keys hb with rfl | hb
  · exact absurd (hlt.symm.trans Std.ReflCmp.compare_self) (by decide)
  · -- what is behind the word is no number either
    have hb : ¬ b.isNumeric := by
      intro hn
      rw [KeyList.gt_iff.mpr (numeric_lt hn hk)] at hlt
      cases hlt
    rw [hk.compare_eq_left] at hlt ⊢
    rw [compare_of_not_numeric fun h => hb h.1]
    exact KeyList.place_of_lt hlt key
  · rw [hk.compare_eq] at hlt
    by_cases hn : key.isNumeric
    · have hgt : compare b key = .gt := KeyList.gt_iff.mpr (numeric_lt hn hk)
      rw [hgt]
      exact ⟨fun h => absurd h (by decide), fun _ => rfl⟩
    · rw [hk.compare_eq_left, compare_of_not_numeric fun h => hn h.2]
      exact KeyList.place_of_lt hlt key
  · exact (KeyList.fits_iff hl).mp h a ha b hb hlt

theorem compare_numeric_ne_gt (hs : s.isNumeric) (ht : t.isNumeric) :
    compare s t ≠ .gt ↔ s.toInt64 ≤ t.toInt64 := by
  rw [← Int64.not_lt]
  simp only [compare, hs, ht, and_self, if_true]
  split
  · next h => simp [h]
  · next h => split <;> simp [h]

/-- Among numbers and words the comparison is an order. -/
theorem transOn_orderly : KeyList.TransOn compare Orderly := by
  intro a b c ha hb hc hab hbc
  rcases hb with hb | hb
  · -- in front of a number there are only numbers
    have ha : a.isNumeric := by
      apply ha.resolve_right
      intro ha
      exact hab (KeyList.gt_iff.mpr (numeric_lt hb ha))
    rcases hc with hc | hc
    · rw [compare_numeric_ne_gt ha hb] at hab
      rw [compare_numeric_ne_gt hb hc] at hbc
      rw [compare_numeric_ne_gt ha hc]
      exact Int64.le_trans hab hbc
    · rw [numeric_lt ha hc]
      decide
  · rcases hc with hc | hc
    · exact absurd (KeyList.gt_iff.mpr (numeric_lt hc hb)) hbc
    · rcases ha with ha | ha
      · rw [numeric_lt ha hc]
        decide
      · rw [hb.compare_eq] at hab
        rw [hc.compare_eq] at hbc ⊢
        exact Ordering.ne_gt_iff_isLE.mpr
          (Std.TransCmp.isLE_trans (Ordering.ne_gt_iff_isLE.mp hab) (Ordering.ne_gt_iff_isLE.mp hbc))

end

end ArrayKey

namespace AssocArray

section
variable {S : CString → Prop} {k : CString} {p : List CString} {a : AssocArray} {v : Variant}

/-- Keys from `S`, in order on every level. -/
inductive OrderedIn (S : CString → Prop) : Variant → Prop
  | string (s : CString) : OrderedIn S (.string s)
  | assocArray (m : UInt64) (t : List (CString × Variant)) (keys : ∀ e ∈ t, S e.1)
      (sorted : KeyList.Sorted ArrayKey.compare t) (below : ∀ e ∈ t, OrderedIn S e.2) :
      OrderedIn S (.assocArray m t)

theorem OrderedIn.empty : OrderedIn S (.ofArray {}) :=
  .assocArray 0 [] (by simp) List.Pairwise.nil (by simp)

theorem OrderedIn.sub (h : OrderedIn S (.ofArray a)) (k : CString) : OrderedIn S (.ofArray (a.sub k)) := by
  cases h with
  | assocArray _ _ _ _ below =>
    unfold AssocArray.sub
    cases he : a.entry k with
    | none => exact OrderedIn.empty
    | some w =>
      obtain ⟨k', hk⟩ := KeyList.mem_of_find? he
      cases w with
      | string s => exact OrderedIn.empty
      | assocArray m t => exact below (k', .assocArray m t) hk

variable (hS : KeyList.TransOn ArrayKey.compare S)
include hS

/-- **In such an array every path of such keys has its places.** -/
theorem OrderedIn.fitsPath (h : OrderedIn S (.ofArray a)) (hp : ∀ k ∈ p, S k) : FitsPath p a := by
  induction p generalizing a with
  | nil => trivial
  | cons k p ih =>
    rw [List.forall_mem_cons] at hp
    refine ⟨?_, ih (h.sub k) hp.2⟩
    cases h with
    | assocArray _ _ keys sorted _ => exact KeyList.fits_of_sorted hS hp.1 keys sorted

/-- **A write along such a path keeps the order.** -/
theorem OrderedIn.createPath (hp : ∀ k ∈ p, S k ∧ Plain k) (hv : OrderedIn S v) (h : OrderedIn S (.ofArray a)) :
    OrderedIn S (.ofArray (AssocArray.createPath p v a)) := by
  induction p generalizing a with
  | nil => exact h
  | cons k p ih =>
    rw [List.forall_mem_cons] at hp
    -- what is put under `k` is in order: the value, or the array below
    have hvalue : OrderedIn S (if p = [] then v else .ofArray (AssocArray.createPath p v (a.sub k))) := by
      split
      · exact hv
      · exact ih hp.2 (h.sub k)
    cases h with
    | assocArray _ _ keys sorted below =>
      rw [Variant.ofArray, createPath_tree hp.1.2]
      apply OrderedIn.assocArray
      · intro e he
        rcases KeyList.mem_put_keys (List.mem_map_of_mem he) with h | h
        · rw [h]
          exact hp.1.1
        · exact List.forall_mem_map.mpr keys e.1 h
      · exact KeyList.put_sorted (KeyList.fits_of_sorted hS hp.1.1 keys sorted) sorted
      · intro e he
        rcases KeyList.mem_put he with h | h
        · rw [h]
          exact hvalue
        · exact below e h

theorem OrderedIn.writes {ws : List (List CString × Variant)} (hp : ∀ w ∈ ws, ∀ k ∈ w.1, S k ∧ Plain k)
    (hv : ∀ w ∈ ws, OrderedIn S w.2) (h : OrderedIn S (.ofArray a)) :
    OrderedIn S (.ofArray (AssocArray.writes ws a)) := by
  induction ws generalizing a with
  | nil => exact h
  | cons w ws ih =>
    rw [List.forall_mem_cons] at hp hv
    exact ih hp.2 hv.2 (OrderedIn.createPath hS hp.1 hv.1 h)

end

end AssocArray

namespace MapArray

/-- Writes along paths, one after the other. -/
def writes (ws : List (List CString × MapVariant)) (a : MapArray) : MapArray :=
  ws.foldl (fun a w => createPath w.1 w.2 a) a

section
open AssocArray (OrderedIn Plain)
variable {S : CString → Prop} {a : MapArray} {p : List CString} {ws : List (List CString × MapVariant)}
  (hS : KeyList.TransOn ArrayKey.compare S)
include hS

theorem findPath_ordered (ha : OrderedIn S (.ofArray a.toArray)) (hp : ∀ k ∈ p, S k) :
    AssocArray.findPath p a.toArray = (a.findPath p).map MapVariant.toVariant :=
  findPath_refines (ha.fitsPath hS hp)

/-- **Writes along paths of such keys** make of the tree what they make of the entries, in order again. -/
theorem writes_refines (ha : OrderedIn S (.ofArray a.toArray)) (hp : ∀ w ∈ ws, ∀ k ∈ w.1, S k ∧ Plain k)
    (hv : ∀ w ∈ ws, OrderedIn S w.2.toVariant) :
    (a.writes ws).toArray = AssocArray.writes (ws.map fun w => (w.1, w.2.toVariant)) a.toArray ∧
      OrderedIn S (.ofArray (a.writes ws).toArray) := by
  induction ws generalizing a with
  | nil => exact ⟨rfl, ha⟩
  | cons w ws ih =>
    rw [List.forall_mem_cons] at hp hv
    have hwrite := createPath_refines (v := w.2) (fun k hk => (hp.1 k hk).2) (ha.fitsPath hS fun k hk => (hp.1 k hk).1)
    have hordered := OrderedIn.createPath hS hp.1 hv.1 ha
    rw [← hwrite] at hordered
    obtain ⟨hlist, hafter⟩ := ih hordered hp.2 hv.2
    refine ⟨?_, hafter⟩
    rw [List.map_cons, AssocArray.writes_cons, ← hwrite]
    exact hlist

end

/-! ## Strings under words -/

open AssocArray (Plain pathsOf)

/-- The keys of the array are in order: each is less than all behind it. -/
def Sorted (a : MapArray) : Prop := KeyList.Sorted ArrayKey.compare a.tree.toList

/-- A word that is one part of a path and that `createTree` takes as it is. -/
structure WordKey (k : CString) : Prop where
  part : CString.IsPart k
  plain : Plain k
  word : ArrayKey.Worded k

section
variable {a : MapArray} {k key s : CString} {ws : List (CString × CString)}

theorem createPath_tree (hk : Plain k) :
    (createPath [k] (.string s) a).tree = a.tree.put ArrayKey.compare k (.string s) := by
  simp only [createPath, AssocArray.nextKey_of_plain hk, if_true]

theorem createPath_toList (hk : WordKey k) (ha : a.Sorted) : (createPath [k] (.string s) a).tree.toList =
    KeyList.put ArrayKey.compare k (.string s) a.tree.toList := by
  rw [createPath_tree hk.plain, RbTree.put_toList (hk.word.fits ha)]

/-- A key with a place keeps it, and what is found under it. -/
theorem entry_createPath (hk : WordKey k) (ha : a.Sorted) (hfits : KeyList.Fits ArrayKey.compare key a.tree.toList)
    (hne : ArrayKey.compare key k ≠ .eq) :
    KeyList.Fits ArrayKey.compare key (createPath [k] (.string s) a).tree.toList ∧
      (createPath [k] (.string s) a).entry key = a.entry key := by
  have hplace := hk.word.fits_put (v := MapVariant.string s) ha hfits
  rw [← createPath_toList hk ha] at hplace
  refine ⟨hplace, ?_⟩
  rw [entry, entry, RbTree.find?_eq hplace, RbTree.find?_eq hfits, createPath_toList hk ha,
    KeyList.find?_put ArrayKey.compare_eq_iff, if_neg fun h => hne ((ArrayKey.compare_eq_iff key k).mpr h)]

end

end MapArray

end UdpPingPong
