import UdpPingPong.Lib.KeyList

/- A map kept in a red-black tree, as the GNU library keeps a `std::map`.

   A search goes down from the root and follows the comparison at every node. It finds
   what is there as long as the comparison orders the keys; where it does not, a search
   can turn away from the key it looks for, and the rotations of an insertion decide
   which keys are lost to it.

   1. `find?`, `assign`, `insertUnique` and `put`: the iterator that is looked up, its value
      changed, a new key inserted and the tree rebalanced;
   2. `toList`: the entries in the order of an iteration. `insertLeaf_toList` and the
      lemmas in front of it: rebalancing does not change it;
   3. `find?_eq`, `put_toList`: for a key that has a place among the others the tree does
      what the list of its entries does. -/

inductive RbColor where
  | red | black
  deriving DecidableEq, Repr

/-- A tree, with its entries at the nodes. -/
inductive RbTree (κ α : Type) where
  | leaf
  | node (color : RbColor) (left : RbTree κ α) (key : κ) (value : α) (right : RbTree κ α)

namespace RbTree

variable {κ α : Type}

/-- The entries in order. -/
def toList : RbTree κ α → List (κ × α)
  | leaf => []
  | node _ l key value r => toList l ++ (key, value) :: toList r

/-! ## Searching -/

section
variable (cmp : κ → κ → Ordering) (k : κ)

/-- `_M_lower_bound`: the last node at which the search went left. -/
def lowerBound : RbTree κ α → Option (κ × α) → Option (κ × α)
  | leaf, y => y
  | node _ l key value r, y => if cmp key k = .lt then lowerBound r y else lowerBound l (some (key, value))

def find? (t : RbTree κ α) : Option α :=
  match lowerBound cmp k t none with
  | none => none
  | some e => if cmp k e.1 = .lt then none else some e.2

/-- The value at the lower bound becomes `v`; there is no tree where there is no lower bound. -/
def assign (v : α) : RbTree κ α → Option (RbTree κ α)
  | leaf => none
  | node c l key value r =>
    if cmp key k = .lt then (assign v r).map fun r => node c l key value r
    else match assign v l with
      | some l => some (node c l key value r)
      | none => some (node c l key v r)

/-- The node in front of the place where `k` is inserted: the last one at which the way went right. -/
def predecessor : RbTree κ α → Option κ → Option κ
  | leaf, y => y
  | node _ l key _ r, y => if cmp k key = .lt then predecessor l y else predecessor r (some key)

end

/-! ## Inserting -/

def isRed : RbTree κ α → Bool
  | node .red _ _ _ _ => true
  | _ => false

def blacken : RbTree κ α → RbTree κ α
  | leaf => leaf
  | node _ l key value r => node .black l key value r

/-- `_Rb_tree_insert_and_rebalance` at the grandparent of a red node below a red left child. -/
def fixLeft (c : RbColor) : RbTree κ α → κ → α → RbTree κ α → RbTree κ α
  | node .red (node .red a ak av b) lk lv lr, key, value, r =>
    if r.isRed then node .red (node .black (node .red a ak av b) lk lv lr) key value r.blacken
    else node .black (node .red a ak av b) lk lv (node .red lr key value r)
  | node .red ll lk lv (node .red a ak av b), key, value, r =>
    if r.isRed then node .red (node .black ll lk lv (node .red a ak av b)) key value r.blacken
    else node .black (node .red ll lk lv a) ak av (node .red b key value r)
  | l, key, value, r => node c l key value r

/-- The same below a red right child. -/
def fixRight (c : RbColor) (l : RbTree κ α) (key : κ) (value : α) : RbTree κ α → RbTree κ α
  | node .red rl rk rv (node .red a ak av b) =>
    if l.isRed then node .red l.blacken key value (node .black rl rk rv (node .red a ak av b))
    else node .black (node .red l key value rl) rk rv (node .red a ak av b)
  | node .red (node .red a ak av b) rk rv rr =>
    if l.isRed then node .red l.blacken key value (node .black (node .red a ak av b) rk rv rr)
    else node .black (node .red l key value a) ak av (node .red b rk rv rr)
  | r => node c l key value r

section
variable (cmp : κ → κ → Ordering) (k : κ) (v : α)

/-- A red node at the end of the way down, and what it upsets put right on the way up. -/
def insertLeaf : RbTree κ α → RbTree κ α
  | leaf => node .red leaf k v leaf
  | node c l key value r =>
    if cmp k key = .lt then fixLeft c (insertLeaf l) key value r
    else fixRight c l key value (insertLeaf r)

/-- `_M_insert_unique`: nothing is inserted behind a key that is not less. -/
def insertUnique (t : RbTree κ α) : RbTree κ α :=
  match predecessor cmp k t none with
  | some key => if cmp key k = .lt then (insertLeaf cmp k v t).blacken else t
  | none => (insertLeaf cmp k v t).blacken

/-- The value of a key that is found is changed, another key is inserted. -/
def put (t : RbTree κ α) : RbTree κ α :=
  if (find? cmp k t).isSome then (assign cmp k v t).getD t else insertUnique cmp k v t

end

/-! ## The entries -/

section
variable {c : RbColor} {l r : RbTree κ α} {key : κ} {value : α}

@[simp] theorem toList_leaf : (leaf : RbTree κ α).toList = [] := rfl

@[simp] theorem toList_node : (node c l key value r).toList = l.toList ++ (key, value) :: r.toList := rfl

@[simp] theorem blacken_toList (t : RbTree κ α) : t.blacken.toList = t.toList := by
  cases t <;> rfl

@[simp] theorem fixLeft_toList : (fixLeft c l key value r).toList = l.toList ++ (key, value) :: r.toList := by
  unfold fixLeft
  split
  · split <;> simp
  · split <;> simp
  · rfl

@[simp] theorem fixRight_toList : (fixRight c l key value r).toList = l.toList ++ (key, value) :: r.toList := by
  unfold fixRight
  split
  · split <;> simp
  · split <;> simp
  · rfl

end

/-! ## The tree and the list -/

section
variable {cmp : κ → κ → Ordering} {k : κ} {v : α} {t : RbTree κ α}

/-- The search ends at the first entry that is not less. -/
theorem lowerBound_eq (h : KeyList.Fits cmp k t.toList) (y : Option (κ × α)) :
    lowerBound cmp k t y = (t.toList.find? fun e => cmp e.1 k ≠ .lt).or y := by
  induction t generalizing y with
  | leaf => rfl
  | node c l key value r ihl ihr =>
    obtain ⟨hl, hr, hlr⟩ := List.pairwise_append.mp h
    rw [lowerBound, toList_node, List.find?_append]
    split
    · next hlt =>
      -- everything on the left is less as well
      have hnone : (l.toList.find? fun e => cmp e.1 k ≠ .lt) = none := by
        rw [List.find?_eq_none]
        intro e he
        simpa using (hlr e he _ List.mem_cons_self).1 hlt
      rw [ihr (List.pairwise_cons.mp hr).2, hnone, Option.none_or, List.find?_cons_of_neg (by simpa using hlt)]
    · next hnot =>
      rw [ihl hl, List.find?_cons_of_pos (by simpa using hnot)]
      cases l.toList.find? fun e => cmp e.1 k ≠ .lt <;> rfl

theorem predecessor_mem {y : Option κ} {key : κ} (h : predecessor cmp k t y = some key) :
    y = some key ∨ ∃ e ∈ t.toList, e.1 = key ∧ cmp k key ≠ .lt := by
  induction t generalizing y with
  | leaf => exact .inl h
  | node c l key' value r ihl ihr =>
    rw [predecessor] at h
    split at h
    · rcases ihl h with hy | ⟨e, he, hkey⟩
      · exact .inl hy
      · exact .inr ⟨e, by simp [he], hkey⟩
    · next hnot =>
      rcases ihr h with hy | ⟨e, he, hkey⟩
      · obtain rfl := Option.some.inj hy
        exact .inr ⟨(key', value), by simp, rfl, hnot⟩
      · exact .inr ⟨e, by simp [he], hkey⟩

theorem assign_none (h : KeyList.Fits cmp k t.toList) (hnone : assign cmp k v t = none) :
    ∀ e ∈ t.toList, cmp e.1 k = .lt := by
  induction t with
  | leaf =>
    intro e he
    cases he
  | node c l key value r ihl ihr =>
    obtain ⟨hl, hr, hlr⟩ := List.pairwise_append.mp h
    rw [assign] at hnone
    split at hnone
    · next hlt =>
      rw [toList_node, List.forall_mem_append, List.forall_mem_cons]
      refine ⟨fun e he => (hlr e he _ List.mem_cons_self).1 hlt, hlt, ?_⟩
      exact ihr (List.pairwise_cons.mp hr).2 (Option.map_eq_none_iff.mp hnone)
    · split at hnone <;> cases hnone

theorem assign_some {t' : RbTree κ α} (hsome : assign cmp k v t = some t') : ∃ e ∈ t.toList, cmp e.1 k ≠ .lt := by
  induction t generalizing t' with
  | leaf => cases hsome
  | node c l key value r ihl ihr =>
    rw [assign] at hsome
    split at hsome
    · obtain ⟨r', hr, -⟩ := Option.map_eq_some_iff.mp hsome
      obtain ⟨e, he, hnot⟩ := ihr hr
      exact ⟨e, by simp [he], hnot⟩
    · next hnot => exact ⟨(key, value), by simp, hnot⟩

variable [Std.OrientedCmp cmp]

/-- **A key with a place is found as in the list.** -/
theorem find?_eq (h : KeyList.Fits cmp k t.toList) : find? cmp k t = KeyList.find? cmp k t.toList := by
  rw [find?, lowerBound_eq h, Option.or_none]
  generalize t.toList = l at h
  induction l with
  | nil => rfl
  | cons e l ih =>
    obtain ⟨he, hl⟩ := List.pairwise_cons.mp h
    rw [KeyList.find?]
    cases hcmp : cmp e.1 k with
    | lt =>
      have hgt : cmp k e.1 = .gt := KeyList.gt_iff.mpr hcmp
      rw [List.find?_cons_of_neg (by simpa using hcmp), if_neg (by rw [hgt]; decide)]
      exact ih hl
    | eq =>
      have heq : cmp k e.1 = .eq := Std.OrientedCmp.eq_comm.mp hcmp
      rw [List.find?_cons_of_pos (by simp [hcmp]), if_pos heq]
      simp [heq]
    | gt =>
      -- the rest of the list is greater too
      have hlt : cmp k e.1 = .lt := KeyList.gt_iff.mp hcmp
      have hnone : KeyList.find? cmp k l = none := by
        rw [KeyList.find?_isNone_iff]
        intro x hx
        rw [KeyList.gt_iff.mp ((he x hx).2 hcmp)]
        decide
      rw [List.find?_cons_of_pos (by simp [hcmp]), if_neg (by rw [hlt]; decide), hnone]
      simp [hlt]

/-- An entry that is greater than the key is in front of nothing that is equal. -/
theorem find?_of_gt {l l' : List (κ × α)} (h : KeyList.Fits cmp k (l ++ l')) {e : κ × α} (he : e ∈ l)
    (hgt : cmp e.1 k = .gt) : KeyList.find? cmp k l' = none := by
  rw [KeyList.find?_isNone_iff]
  intro x hx
  rw [KeyList.gt_iff.mp (((List.pairwise_append.mp h).2.2 e he x hx).2 hgt)]
  decide

/-- Where there is a lower bound in front, what is found is found there. -/
theorem isSome_of_assign {t' : RbTree κ α} {rest : List (κ × α)} (h : KeyList.Fits cmp k (t.toList ++ rest))
    (hsome : assign cmp k v t = some t') (hfound : (KeyList.find? cmp k (t.toList ++ rest)).isSome) :
    (KeyList.find? cmp k t.toList).isSome := by
  by_contra hnone
  rw [Bool.not_eq_true, Option.isSome_eq_false_iff, Option.isNone_iff_eq_none] at hnone
  have hne := KeyList.find?_isNone_iff.mp hnone
  obtain ⟨e, he, hge⟩ := assign_some hsome
  rw [KeyList.find?_append_of_ne hne, find?_of_gt h he (KeyList.gt_of_ne hge (hne e he))] at hfound
  cases hfound

theorem assign_toList (h : KeyList.Fits cmp k t.toList) (hfound : (KeyList.find? cmp k t.toList).isSome) :
    (assign cmp k v t).map toList = some (KeyList.replace cmp k v t.toList) := by
  induction t with
  | leaf => cases hfound
  | node c l key value r ihl ihr =>
    obtain ⟨hl, hr, hlr⟩ := List.pairwise_append.mp h
    rw [assign]
    split
    · next hlt =>
      have hne : ∀ e ∈ l.toList ++ [(key, value)], cmp k e.1 ≠ .eq := by
        rw [List.forall_mem_append, List.forall_mem_singleton]
        refine ⟨fun e he => ?_, ?_⟩
        · rw [KeyList.gt_iff.mpr ((hlr e he _ List.mem_cons_self).1 hlt)]
          decide
        · rw [KeyList.gt_iff.mpr hlt]
          decide
      have hsplit : (node c l key value r).toList = (l.toList ++ [(key, value)]) ++ r.toList := by simp
      rw [hsplit, KeyList.find?_append_of_ne hne] at hfound
      obtain ⟨r', hr', hlist⟩ := Option.map_eq_some_iff.mp (ihr (List.pairwise_cons.mp hr).2 hfound)
      rw [hsplit, KeyList.replace_append_of_ne hne, hr', ← hlist]
      simp
    · next hnot =>
      split
      · next l' hl' =>
        -- the lower bound is on the left, and equal
        have hin := isSome_of_assign h hl' hfound
        obtain ⟨l'', hl'', hlist⟩ := Option.map_eq_some_iff.mp (ihl hl hin)
        obtain rfl := Option.some.inj (hl'.symm.trans hl'')
        rw [toList_node, KeyList.replace_append_of_found hin, ← hlist]
        rfl
      · next hl' =>
        have hne : ∀ e ∈ l.toList, cmp k e.1 ≠ .eq := by
          intro e he
          rw [KeyList.gt_iff.mpr (assign_none hl hl' e he)]
          decide
        have heq : cmp k key = .eq := by
          rw [toList_node, KeyList.find?_append_of_ne hne, KeyList.find?] at hfound
          by_contra hkey
          have hgt : cmp key k = .gt := KeyList.gt_of_ne hnot hkey
          rw [if_neg hkey, find?_of_gt (l := [(key, value)]) hr List.mem_cons_self hgt] at hfound
          cases hfound
        rw [toList_node, KeyList.replace_append_of_ne hne, KeyList.replace, if_pos heq]
        rfl

theorem insertLeaf_toList (h : KeyList.Fits cmp k t.toList) :
    (insertLeaf cmp k v t).toList = KeyList.insert cmp k v t.toList := by
  induction t with
  | leaf => rfl
  | node c l key value r ihl ihr =>
    obtain ⟨hl, hr, hlr⟩ := List.pairwise_append.mp h
    rw [insertLeaf, toList_node]
    split
    · next hlt => rw [fixLeft_toList, ihl hl, KeyList.insert_append_of_lt hlt]
    · next hnot =>
      have hge : ∀ e ∈ l.toList, cmp k e.1 ≠ .lt := by
        intro e he hlt
        exact hnot (KeyList.gt_iff.mp ((hlr e he _ List.mem_cons_self).2 (KeyList.gt_iff.mpr hlt)))
      rw [fixRight_toList, ihr (List.pairwise_cons.mp hr).2, KeyList.insert_append_of_not_lt hge, KeyList.insert,
        if_neg hnot]

theorem insertUnique_toList (h : KeyList.Fits cmp k t.toList) (hnone : KeyList.find? cmp k t.toList = none) :
    (insertUnique cmp k v t).toList = KeyList.insert cmp k v t.toList := by
  rw [insertUnique]
  split
  · next key hkey =>
    rcases predecessor_mem hkey with hnil | ⟨e, he, rfl, hnot⟩
    · cases hnil
    · have hne : cmp k e.1 ≠ .eq := KeyList.find?_isNone_iff.mp hnone e he
      have hlt : cmp e.1 k = .lt := KeyList.gt_iff.mp (KeyList.gt_of_ne hnot (mt Std.OrientedCmp.eq_comm.mp hne))
      rw [if_pos hlt, blacken_toList, insertLeaf_toList h]
  · rw [blacken_toList, insertLeaf_toList h]

/-- **A key with a place is put as into the list.** -/
theorem put_toList (h : KeyList.Fits cmp k t.toList) : (put cmp k v t).toList = KeyList.put cmp k v t.toList := by
  rw [put, KeyList.put, find?_eq h]
  split
  · next hfound =>
    obtain ⟨t', ht', hlist⟩ := Option.map_eq_some_iff.mp (assign_toList (v := v) h hfound)
    rw [ht', Option.getD_some, hlist]
  · next hnot => exact insertUnique_toList h (Option.not_isSome_iff_eq_none.mp hnot)

end

end RbTree
