import UdpPingPong.Stat.Key
import UdpPingPong.Lib.KeyList

/- The associative array: a tree of strings, reached by paths of keys. An array is kept as the
   list of its entries. A `std::map` does what is done with the list here as long as its
   keys are in order and the key that is looked for has a place among them. `MapArray` is
   the array in its search tree.

   1. `Variant` and `AssocArray`: a value is a string or an array, an array its
      entries in the order of the keys and the number for the next "[]" key;
   2. `findInternal` and `createTree`, which walk a path, and the calls made of
      them: `setString`, `setArray` (which stores a copy), `getString`,
      `getAssocArray`, each with the exceptions it throws;
   3. `findPath_createPath_same`, `findPath_createPath_other`: a path written is found
      with its value, and every path that parts from it is found as before;
   4. `findPath_writes`: a sequence of writes along paths of which no two meet leaves
      every one of the values to be read. -/
namespace UdpPingPong

/-- The exceptions of the array, with what they are thrown with. -/
inductive ArrayException where
  | invalidKey (key : CString)
  | keyNotFound (key : CString)
  | typeConversion (text : CString)
deriving DecidableEq, Repr

/-- `Variant`, for the two types that are stored and asked for here. The `std::map` of
    an array is the list of its entries, as it is iterated. -/
inductive Variant where
  | string (value : CString)
  | assocArray (maxint : UInt64) (tree : List (CString × Variant))

structure AssocArray where
  maxint : UInt64 := 0
  tree : List (CString × Variant) := []

namespace Variant

def ofArray (a : AssocArray) : Variant := assocArray a.maxint a.tree

/-- `Variant::toAssocArray`. -/
def toAssocArray : Variant → Except ArrayException AssocArray
  | assocArray maxint tree => .ok ⟨maxint, tree⟩
  | string _ => .error (.typeConversion [])

end Variant

namespace AssocArray

/-- `Tree.find`, where the key has a place among the entries. -/
def entry (key : CString) (a : AssocArray) : Option Variant :=
  KeyList.find? ArrayKey.compare key a.tree

/-- The array that `createTree` goes on in below `key`: the one that is there, or
    a new one where there is nothing or something else. -/
def sub (key : CString) (a : AssocArray) : AssocArray :=
  match a.entry key with
  | some (.assocArray maxint tree) => ⟨maxint, tree⟩
  | _ => {}

/-- `findInternal` for a key split into its parts. -/
def findPath : List CString → AssocArray → Option Variant
  | [], _ => none
  | firstkey :: rest, a =>
    match a.entry firstkey with
    | none => none
    | some v =>
      if rest = [] then some v
      else match v with
        | .assocArray maxint tree => findPath rest ⟨maxint, tree⟩
        | .string _ => none

def findInternal (key : CString) (a : AssocArray) : Except ArrayException (Option Variant) :=
  if key.explode = [] then .error (.invalidKey key) else .ok (findPath key.explode a)

/-- The key under which `createTree` stores, and the counter after it: "[]" takes
    the next number, and a numeric key moves the counter past it. -/
def nextKey (firstkey : CString) (maxint : UInt64) : CString × UInt64 :=
  let auto := firstkey = "[]".toList
  let key : CString := if auto then Decimal.printNat maxint.toNat else firstkey
  let maxint := if auto then maxint + 1 else maxint
  let keyint := key.toInt64.toUInt64
  (key, if key.isNumeric ∧ maxint ≤ keyint then keyint + 1 else maxint)

/-- `createTree` for a key split into its parts. -/
def createPath : List CString → Variant → AssocArray → AssocArray
  | [], _, a => a
  | firstkey :: rest, var, a =>
    let (key, maxint) := nextKey firstkey a.maxint
    let value := if rest = [] then var else .ofArray (createPath rest var (a.sub key))
    { maxint, tree := KeyList.put ArrayKey.compare key value a.tree }

def createTree (key : CString) (var : Variant) (a : AssocArray) : Except ArrayException AssocArray :=
  if key.explode = [] then .error (.invalidKey key) else .ok (createPath key.explode var a)

mutual

/-- The copy of a value, made when it is stored. -/
def copyVariant : Variant → Except ArrayException Variant
  | .string value => .ok (.string value)
  | .assocArray _ tree => do
    -- the copy constructor starts from an empty array
    let a ← add tree {}
    return .ofArray a

/-- `AssocArray::add`: every entry stored again, under its key. -/
def add : List (CString × Variant) → AssocArray → Except ArrayException AssocArray
  | [], a => .ok a
  | (key, value) :: other, a => do
    let var ← copyVariant value
    let a ← createTree key var a
    add other a

end

/-- `set(key, String)` and `setf`. -/
def setString (key value : CString) (a : AssocArray) : Except ArrayException AssocArray :=
  createTree key (.string value) a

/-- Calls of `setf` in a row. -/
def setStrings (ws : List (CString × CString)) (a : AssocArray) : Except ArrayException AssocArray :=
  ws.foldlM (fun a w => setString w.1 w.2 a) a

/-- `set(key, AssocArray)`. -/
def setArray (key : CString) (value : AssocArray) (a : AssocArray) :
    Except ArrayException AssocArray := do
  let var ← copyVariant (.ofArray value)
  createTree key var a

def getString (key : CString) (a : AssocArray) : Except ArrayException CString := do
  match ← findInternal key a with
  | none => throw (.keyNotFound key)
  | some (.string value) => return value
  | some _ => throw (.typeConversion (key ++ " is not a String".toList))

def getAssocArray (key : CString) (a : AssocArray) : Except ArrayException AssocArray := do
  match ← findInternal key a with
  | none => throw (.keyNotFound key)
  | some (.assocArray maxint tree) => return ⟨maxint, tree⟩
  | some _ => throw (.typeConversion (key ++ " is not an AssocArray".toList))

/-! ## One write and one path -/

section
variable {k k' : CString} {p q rest : List CString} {v : Variant} {a : AssocArray}

/-- A key that `createTree` takes as it is. -/
def Plain (k : CString) : Prop := k ≠ "[]".toList

instance : DecidablePred Plain := fun k => inferInstanceAs (Decidable (k ≠ "[]".toList))

theorem nextKey_of_plain (h : Plain k) (maxint : UInt64) : (nextKey k maxint).1 = k :=
  if_neg h

theorem createPath_tree (h : Plain k) : (createPath (k :: rest) v a).tree =
    KeyList.put ArrayKey.compare k (if rest = [] then v else .ofArray (createPath rest v (a.sub k)))
      a.tree := by
  simp only [createPath, nextKey_of_plain h]

theorem entry_congr (h : ArrayKey.canon k' = ArrayKey.canon k) : a.entry k' = a.entry k :=
  KeyList.find?_congr ArrayKey.compare_eq_iff h

/-- **What a write changes at the first level.** -/
theorem entry_createPath (h : Plain k) : (createPath (k :: rest) v a).entry k' =
    if ArrayKey.canon k' = ArrayKey.canon k then
      some (if rest = [] then v else .ofArray (createPath rest v (a.sub k)))
    else a.entry k' := by
  rw [entry, createPath_tree h]
  exact KeyList.find?_put ArrayKey.compare_eq_iff

theorem sub_eq_of_entry {b : AssocArray} (h : b.entry k' = a.entry k) : b.sub k' = a.sub k := by
  simp only [sub, h]

theorem sub_of_entry {b : AssocArray} (h : a.entry k = some (.ofArray b)) : a.sub k = b := by
  simp only [sub, h, Variant.ofArray]

theorem sub_createPath_below (h : Plain k) (hr : rest ≠ []) (hk : ArrayKey.canon k' = ArrayKey.canon k) :
    (createPath (k :: rest) v a).sub k' = createPath rest v (a.sub k) := by
  apply sub_of_entry
  rw [entry_createPath h, if_pos hk, if_neg hr]

theorem findPath_empty (p : List CString) : findPath p {} = none := by
  cases p with
  | nil => rfl
  | cons k p => rfl

theorem findPath_single : findPath [k] a = a.entry k := by
  simp only [findPath]
  cases a.entry k <;> rfl

/-- Below the first level a path goes on where `createTree` would go on. -/
theorem findPath_cons (hr : rest ≠ []) : findPath (k :: rest) a = findPath rest (a.sub k) := by
  simp only [findPath, sub]
  cases a.entry k with
  | none => exact (findPath_empty rest).symm
  | some w =>
    cases w with
    | string s => simp only [if_neg hr, findPath_empty]
    | assocArray m t => simp only [if_neg hr]

/-- Two paths part: at some level both go on, under keys that compare different. -/
def Part : List CString → List CString → Prop
  | k :: p, l :: q => ArrayKey.canon k ≠ ArrayKey.canon l ∨ Part p q
  | _, _ => False

instance decidablePart : ∀ p q : List CString, Decidable (Part p q)
  | k :: p, l :: q =>
    have := decidablePart p q
    inferInstanceAs (Decidable (ArrayKey.canon k ≠ ArrayKey.canon l ∨ Part p q))
  | [], _ => isFalse (fun h => h)
  | _ :: _, [] => isFalse (fun h => h)

/-- A path parts from everything below a key that it does not start with. -/
theorem Part.below (h : Part [k] q) (p : List CString) : Part q (k :: p) := by
  cases q with
  | nil => exact absurd h (fun h => h)
  | cons l q => exact Or.inl (Ne.symm (h.resolve_right (fun h => h)))

theorem Part.symm : ∀ {p q : List CString}, Part p q → Part q p
  | _ :: _, _ :: _, h => h.imp Ne.symm Part.symm

/-- **A path written is found with its value.** -/
theorem findPath_createPath_same (hq : ∀ k ∈ q, Plain k) (hne : q ≠ []) (v : Variant) (a : AssocArray) :
    findPath q (createPath q v a) = some v := by
  induction q generalizing a with
  | nil => exact absurd rfl hne
  | cons k q ih =>
    have hk := hq k List.mem_cons_self
    by_cases hr : q = []
    · subst hr
      rw [findPath_single, entry_createPath hk, if_pos rfl, if_pos rfl]
    · rw [findPath_cons hr, sub_createPath_below hk hr rfl]
      exact ih (fun l hl => hq l (List.mem_cons_of_mem k hl)) hr (a.sub k)

/-- **A path that parts from the one written is found as before.** -/
theorem findPath_createPath_other (hq : ∀ k ∈ q, Plain k) (h : Part p q) (v : Variant)
    (a : AssocArray) : findPath p (createPath q v a) = findPath p a := by
  induction q generalizing p a with
  | nil => cases p <;> exact absurd h (fun h => h)
  | cons l q ih =>
    cases p with
    | nil => exact absurd h (fun h => h)
    | cons k p =>
      have hl := hq l List.mem_cons_self
      by_cases hk : ArrayKey.canon k = ArrayKey.canon l
      · -- one key on this level: both paths go on below it
        have hpq : Part p q := h.resolve_left (fun hne => hne hk)
        have hp : p ≠ [] := by
          intro hp
          rw [hp] at hpq
          exact hpq
        have hr : q ≠ [] := by
          intro hr
          rw [hr] at hpq
          cases p <;> exact hpq
        rw [findPath_cons hp, findPath_cons hp, sub_createPath_below hl hr hk,
          ih (fun k hk => hq k (List.mem_cons_of_mem l hk)) hpq,
          sub_eq_of_entry (b := a) (entry_congr hk)]
      · have he : (createPath (l :: q) v a).entry k = a.entry k := by
          rw [entry_createPath hl, if_neg hk]
        simp only [findPath, he]

end

/-! ## Sequences of writes -/

/-- Writes along paths, one after the other. -/
def writes (ws : List (List CString × Variant)) (a : AssocArray) : AssocArray :=
  ws.foldl (fun a w => createPath w.1 w.2 a) a

@[simp] theorem writes_cons (w : List CString × Variant) (ws : List (List CString × Variant))
    (a : AssocArray) : writes (w :: ws) a = writes ws (createPath w.1 w.2 a) := rfl

theorem writes_append (ws us : List (List CString × Variant)) (a : AssocArray) :
    writes (ws ++ us) a = writes us (writes ws a) := by
  rw [writes, List.foldl_append]
  rfl

/-- A path that `createTree` takes as it is. -/
def PlainPath (p : List CString) : Prop := p ≠ [] ∧ ∀ k ∈ p, CString.IsPart k ∧ Plain k

instance : DecidablePred PlainPath :=
  fun p => inferInstanceAs (Decidable (p ≠ [] ∧ ∀ k ∈ p, CString.IsPart k ∧ Plain k))

theorem PlainPath.plain {p : List CString} (h : PlainPath p) : ∀ k ∈ p, Plain k :=
  fun k hk => (h.2 k hk).2

section
variable {ws : List (List CString × Variant)} {p : List CString} {k : CString} {v : Variant}

theorem findPath_writes_other (hw : ∀ w ∈ ws, PlainPath w.1) (h : ∀ w ∈ ws, Part p w.1)
    (a : AssocArray) : findPath p (writes ws a) = findPath p a := by
  induction ws generalizing a with
  | nil => rfl
  | cons w ws ih =>
    rw [List.forall_mem_cons] at hw h
    rw [writes_cons, ih hw.2 h.2, findPath_createPath_other hw.1.plain h.1]

/-- **Writes along paths of which no two meet leave every value to be read.** -/
theorem findPath_writes (hw : ∀ w ∈ ws, PlainPath w.1)
    (hp : ws.Pairwise fun w u => Part w.1 u.1) (h : (p, v) ∈ ws) (a : AssocArray) :
    findPath p (writes ws a) = some v := by
  induction ws generalizing a with
  | nil => cases h
  | cons w ws ih =>
    rw [List.pairwise_cons] at hp
    rw [List.forall_mem_cons] at hw
    rw [writes_cons]
    rcases List.mem_cons.mp h with rfl | h
    · rw [findPath_writes_other hw.2 hp.1]
      exact findPath_createPath_same hw.1.plain hw.1.1 v a
    · exact ih hw.2 hp.2 h (createPath w.1 w.2 a)

/-- Writes that start elsewhere leave what is below a key. -/
theorem sub_writes_other (hw : ∀ w ∈ ws, PlainPath w.1) (h : ∀ w ∈ ws, Part [k] w.1)
    (a : AssocArray) : (writes ws a).sub k = a.sub k := by
  apply sub_eq_of_entry
  rw [← findPath_single, findPath_writes_other hw h, findPath_single]

/-- Writes that all start with one key are writes of the rest below that key. -/
theorem sub_writes_below (hk : Plain k) (hw : ∀ w ∈ ws, w.1 ≠ []) (a : AssocArray) :
    (writes (ws.map fun w => (k :: w.1, w.2)) a).sub k = writes ws (a.sub k) := by
  induction ws generalizing a with
  | nil => rfl
  | cons w ws ih =>
    rw [List.forall_mem_cons] at hw
    rw [List.map_cons, writes_cons, ih hw.2, sub_createPath_below hk hw.1 rfl, writes_cons]

/-- Writes under one key each, none of them there before: the entries are added. -/
theorem writes_single_perm {es : List (CString × Variant)} {a : AssocArray}
    (hplain : ∀ e ∈ es, Plain e.1)
    (hnew : (es ++ a.tree).Pairwise fun e x => ArrayKey.canon e.1 ≠ ArrayKey.canon x.1) :
    (writes (es.map fun e => ([e.1], e.2)) a).tree.Perm (es ++ a.tree) := by
  induction es generalizing a with
  | nil => exact List.Perm.refl _
  | cons e es ih =>
    rw [List.forall_mem_cons] at hplain
    rw [List.cons_append, List.pairwise_cons] at hnew
    have hput : (createPath [e.1] e.2 a).tree.Perm (e :: a.tree) := by
      rw [createPath_tree hplain.1, if_pos rfl]
      apply KeyList.put_perm
      apply (KeyList.find?_eq_none ArrayKey.compare_eq_iff).mpr
      intro x hx
      exact Ne.symm (hnew.1 x (List.mem_append_right es hx))
    have hall : (es ++ (createPath [e.1] e.2 a).tree).Perm (e :: (es ++ a.tree)) :=
      (hput.append_left es).trans List.perm_middle
    rw [List.map_cons, writes_cons]
    refine (ih hplain.2 ?_).trans hall
    exact hall.pairwise_iff (fun h => Ne.symm h) |>.mpr (List.pairwise_cons.mpr hnew)

theorem writes_empty_perm {es : List (CString × Variant)} (hplain : ∀ e ∈ es, Plain e.1)
    (hnew : es.Pairwise fun e x => ArrayKey.canon e.1 ≠ ArrayKey.canon x.1) :
    (writes (es.map fun e => ([e.1], e.2)) {}).tree.Perm es := by
  have hes : es ++ (AssocArray.mk 0 []).tree = es := List.append_nil es
  have hperm := writes_single_perm (a := {}) hplain (by rw [hes]; exact hnew)
  rwa [hes] at hperm

/-- An array with entries below a key is found under that key. -/
theorem entry_of_sub {a : AssocArray} (h : (a.sub k).tree ≠ []) :
    a.entry k = some (.ofArray (a.sub k)) := by
  unfold sub at h ⊢
  cases he : a.entry k with
  | none => simp [he] at h
  | some w =>
    cases w with
    | string s => simp [he] at h
    | assocArray m t => rfl

end

/-! ## Copies -/

/-- The string that is found along a path of keys, if any. -/
def textAt : List CString → Variant → Option CString
  | [], .string s => some s
  | k :: p, .assocArray m t => (entry k ⟨m, t⟩).bind (textAt p)
  | _, _ => none

/-- The keys of one level: parts of a path, none is "[]", no two compare equal. -/
def ProperKeys (ks : List CString) : Prop :=
  (∀ k ∈ ks, CString.IsPart k ∧ Plain k) ∧
    ks.Pairwise fun k l => ArrayKey.canon k ≠ ArrayKey.canon l

/-- What `createTree` builds: proper keys on every level. -/
inductive WellFormed : Variant → Prop
  | string (s : CString) : WellFormed (.string s)
  | assocArray (m : UInt64) (t : List (CString × Variant)) (keys : ProperKeys (t.map Prod.fst))
      (below : ∀ e ∈ t, WellFormed e.2) : WellFormed (.assocArray m t)

theorem findPath_eq_string {p : List CString} {a : AssocArray} {s : CString} (hp : p ≠ []) :
    findPath p a = some (.string s) ↔ textAt p (.ofArray a) = some s := by
  induction p generalizing a with
  | nil => exact absurd rfl hp
  | cons k p ih =>
    show _ ↔ (a.entry k).bind (textAt p) = some s
    by_cases hr : p = []
    · subst hr
      rw [findPath_single]
      cases a.entry k with
      | none => simp
      | some w => cases w <;> simp [textAt]
    · rw [findPath_cons hr, ih hr, sub]
      obtain ⟨l, p, rfl⟩ := List.exists_cons_of_ne_nil hr
      cases a.entry k with
      | none => simp [textAt, entry, KeyList.find?, Variant.ofArray]
      | some w =>
        cases w with
        | string u => simp [textAt, entry, KeyList.find?, Variant.ofArray]
        | assocArray m t => rfl

theorem explode_of_isPart {k : CString} (h : CString.IsPart k) : k.explode = [k] := by
  have hk : CString.explode (CString.implode [k]) = [k] :=
    CString.explode_implode (List.cons_ne_nil k []) (by simpa using h)
  simpa [CString.implode, List.intercalate] using hk

/-- Entries stored again one after the other: each is there, copied, and the
    entries under other keys are as before. -/
theorem add_spec {t : List (CString × Variant)} (hkeys : ProperKeys (t.map Prod.fst))
    (hcopy : ∀ e ∈ t, ∃ v, copyVariant e.2 = .ok v ∧ ∀ p, textAt p v = textAt p e.2) (a : AssocArray) :
    ∃ b, add t a = .ok b ∧ ∀ k p, (b.entry k).bind (textAt p) =
      ((KeyList.find? ArrayKey.compare k t).or (a.entry k)).bind (textAt p) := by
  induction t generalizing a with
  | nil => exact ⟨a, rfl, fun k p => rfl⟩
  | cons e t ih =>
    obtain ⟨hpart, hapart⟩ := hkeys
    rw [List.map_cons, List.forall_mem_cons] at hpart
    rw [List.map_cons, List.pairwise_cons] at hapart
    rw [List.forall_mem_cons] at hcopy
    obtain ⟨v, hv, htext⟩ := hcopy.1
    obtain ⟨b, hb, hentry⟩ := ih ⟨hpart.2, hapart.2⟩ hcopy.2 (createPath [e.1] v a)
    refine ⟨b, ?_, fun k p => ?_⟩
    · have hc : createTree e.1 v a = .ok (createPath [e.1] v a) := by
        simp only [createTree, explode_of_isPart hpart.1.1, List.cons_ne_nil, if_false]
      rw [add, hv]
      show createTree e.1 v a >>= add t = .ok b
      rw [hc]
      exact hb
    · rw [hentry, entry_createPath hpart.1.2, if_pos rfl]
      simp only [KeyList.find?, ArrayKey.compare_eq_iff]
      by_cases hk : ArrayKey.canon k = ArrayKey.canon e.1
      · -- no later entry has this key, so the one stored here stays
        have hnone : KeyList.find? ArrayKey.compare k t = none := by
          apply (KeyList.find?_eq_none ArrayKey.compare_eq_iff).mpr
          intro x hx
          rw [hk]
          exact Ne.symm (hapart.1 x.1 (List.mem_map_of_mem hx))
        simp [hk, hnone, htext]
      · simp [hk]

/-- **A copy reads as the original does.** -/
theorem copyVariant_spec {v : Variant} (h : WellFormed v) :
    ∃ w, copyVariant v = .ok w ∧ ∀ p, textAt p w = textAt p v := by
  induction h with
  | string s => exact ⟨.string s, rfl, fun p => rfl⟩
  | assocArray m t keys below ih =>
    obtain ⟨b, hb, hentry⟩ := add_spec keys ih {}
    refine ⟨.ofArray b, ?_, fun p => ?_⟩
    · rw [copyVariant, hb]
      rfl
    · cases p with
      | nil => rfl
      | cons k p =>
        show (b.entry k).bind (textAt p) = (entry k ⟨m, t⟩).bind (textAt p)
        rw [hentry]
        simp [entry, KeyList.find?]

theorem copy_array_spec {a : AssocArray} (h : WellFormed (.ofArray a)) :
    ∃ b, copyVariant (.ofArray a) = .ok (.ofArray b) ∧
      ∀ p, textAt p (.ofArray b) = textAt p (.ofArray a) := by
  obtain ⟨w, hw, htext⟩ := copyVariant_spec h
  rw [Variant.ofArray, copyVariant] at hw
  cases hb : add a.tree {} with
  | error e =>
    rw [hb] at hw
    cases hw
  | ok b =>
    rw [hb] at hw
    cases hw
    refine ⟨b, ?_, htext⟩
    rw [Variant.ofArray, copyVariant, hb]
    rfl

theorem WellFormed.empty : WellFormed (.ofArray {}) :=
  .assocArray 0 [] ⟨by simp, List.Pairwise.nil⟩ (by simp)

/-- What is below a key of a well-formed array is well formed. -/
theorem WellFormed.sub {a : AssocArray} (h : WellFormed (.ofArray a)) (k : CString) :
    WellFormed (.ofArray (a.sub k)) := by
  cases h with
  | assocArray _ _ _ below =>
    unfold AssocArray.sub
    cases he : a.entry k with
    | none => exact WellFormed.empty
    | some w =>
      obtain ⟨k', hk⟩ := KeyList.mem_of_find? he
      cases w with
      | string s => exact WellFormed.empty
      | assocArray m t => exact below (k', .assocArray m t) hk

/-- Writing something well formed along a path of proper keys keeps the array well formed. -/
theorem WellFormed.createPath {q : List CString} {v : Variant} {a : AssocArray}
    (hq : ∀ k ∈ q, CString.IsPart k ∧ Plain k) (hv : WellFormed v) (ha : WellFormed (.ofArray a)) :
    WellFormed (.ofArray (AssocArray.createPath q v a)) := by
  induction q generalizing a with
  | nil => exact ha
  | cons k q ih =>
    rw [List.forall_mem_cons] at hq
    -- what is put under `k` is well formed: the value, or the array below
    have hvalue : WellFormed (if q = [] then v else .ofArray (AssocArray.createPath q v (a.sub k))) := by
      split
      · exact hv
      · exact ih hq.2 (ha.sub k)
    cases ha with
    | assocArray _ _ keys below =>
      rw [Variant.ofArray, createPath_tree hq.1.2]
      apply WellFormed.assocArray
      · -- the keys are those of before, or one more that differs from all of them
        rcases KeyList.put_keys (k := k) (l := a.tree) ArrayKey.compare_eq_iff with h | ⟨hnew, h⟩
        · rw [h]
          exact keys
        · refine ⟨?_, ?_⟩
          · intro x hx
            rcases List.mem_cons.mp (h.mem_iff.mp hx) with rfl | hx
            · exact hq.1
            · exact keys.1 x hx
          · apply (h.pairwise_iff fun h => Ne.symm h).mpr
            apply List.pairwise_cons.mpr
            exact ⟨List.forall_mem_map.mpr fun x hx => Ne.symm (hnew x hx), keys.2⟩
      · intro e he
        rcases KeyList.mem_put he with h | h
        · rw [h]
          exact hvalue
        · exact below e h

/-! ## The calls -/

section
variable {key : CString} {a b : AssocArray} {v : Variant} {s : CString}

theorem createTree_eq (h : key.explode ≠ []) (v : Variant) (a : AssocArray) :
    createTree key v a = .ok (createPath key.explode v a) :=
  if_neg h

/-- The paths and values of calls of `setf`. -/
def pathsOf (ws : List (CString × CString)) : List (List CString × Variant) :=
  ws.map fun w => (w.1.explode, .string w.2)

theorem setStrings_eq {ws : List (CString × CString)} (h : ∀ w ∈ ws, w.1.explode ≠ [])
    (a : AssocArray) : setStrings ws a = .ok (writes (pathsOf ws) a) := by
  induction ws generalizing a with
  | nil => rfl
  | cons w ws ih =>
    rw [List.forall_mem_cons] at h
    show setString w.1 w.2 a >>= setStrings ws = _
    rw [setString, createTree_eq h.1]
    exact ih h.2 (createPath w.1.explode (.string w.2) a)

theorem findInternal_eq (h : findPath key.explode a = some v) : findInternal key a = .ok (some v) := by
  have hne : key.explode ≠ [] := by
    intro he
    rw [he] at h
    cases h
  rw [findInternal, if_neg hne, h]

theorem getString_eq (h : findPath key.explode a = some (.string s)) : getString key a = .ok s := by
  rw [getString, findInternal_eq h]
  rfl

theorem getAssocArray_eq (h : findPath key.explode a = some (.ofArray b)) :
    getAssocArray key a = .ok b := by
  rw [getAssocArray, findInternal_eq h]
  rfl

/-- What is read from a stored copy is what was to be read from the original. -/
theorem getString_copy {w : AssocArray} (h : ∀ p, textAt p (.ofArray w) = textAt p (.ofArray a))
    (hs : findPath key.explode a = some (.string s)) : getString key w = .ok s := by
  have hne : key.explode ≠ [] := by
    intro he
    rw [he] at hs
    cases hs
  apply getString_eq
  rw [findPath_eq_string hne] at hs ⊢
  rw [h, hs]

end

/-- Calls of `setf` build a well-formed array. -/
theorem WellFormed.writes {ws : List (List CString × Variant)} {a : AssocArray}
    (hq : ∀ w ∈ ws, PlainPath w.1) (hv : ∀ w ∈ ws, WellFormed w.2)
    (ha : WellFormed (.ofArray a)) : WellFormed (.ofArray (AssocArray.writes ws a)) := by
  induction ws generalizing a with
  | nil => exact ha
  | cons w ws ih =>
    rw [List.forall_mem_cons] at hq hv
    exact ih hq.2 hv.2 (WellFormed.createPath hq.1.2 hv.1 ha)

/-- Keys whose paths `createTree` takes as they are and of which no two meet. -/
def ProperTexts (keys : List CString) : Prop :=
  (∀ k ∈ keys, PlainPath k.explode) ∧ keys.Pairwise fun k l => Part k.explode l.explode

instance : DecidablePred ProperTexts := fun keys =>
  inferInstanceAs (Decidable ((∀ k ∈ keys, PlainPath k.explode) ∧
    keys.Pairwise fun k l => Part k.explode l.explode))

section
variable {ws : List (CString × CString)} (h : ProperTexts (ws.map Prod.fst))
include h

theorem ProperTexts.plain : ∀ w ∈ pathsOf ws, PlainPath w.1 := by
  intro u hu
  obtain ⟨w, hw, rfl⟩ := List.mem_map.mp hu
  exact h.1 w.1 (List.mem_map_of_mem hw)

theorem ProperTexts.part : (pathsOf ws).Pairwise fun w u => Part w.1 u.1 := by
  have hp := List.pairwise_map.mp h.2
  exact List.pairwise_map.mpr hp

theorem ProperTexts.setStrings_eq (a : AssocArray) :
    setStrings ws a = .ok (AssocArray.writes (pathsOf ws) a) :=
  AssocArray.setStrings_eq (fun w hw => (List.forall_mem_map.mp h.1 w hw).1) a

/-- **The array made by calls of `setf`, stored as a copy, reads as it was written.** -/
theorem ProperTexts.copy_read :
    ∃ b, copyVariant (.ofArray (AssocArray.writes (pathsOf ws) {})) = .ok (.ofArray b) ∧
      ∀ w ∈ ws, getString w.1 b = .ok w.2 := by
  have hwf : WellFormed (.ofArray (AssocArray.writes (pathsOf ws) {})) := by
    apply WellFormed.writes h.plain _ WellFormed.empty
    intro u hu
    obtain ⟨w, -, rfl⟩ := List.mem_map.mp hu
    exact WellFormed.string w.2
  obtain ⟨b, hb, htext⟩ := copy_array_spec hwf
  refine ⟨b, hb, fun w hw => getString_copy htext ?_⟩
  exact findPath_writes h.plain h.part (List.mem_map_of_mem hw) {}

end

end AssocArray

end UdpPingPong
