import Mathlib.Data.List.Perm.Basic

/- A map kept as the list of its entries, found by a three-way comparison of keys.

   1. `find?`, `insert` and `replace`: the entry whose key compares equal, a new
      entry placed before the first greater one, and the value of an existing
      entry changed, its key text staying as it was;
   2. `put`: replace what is there, insert otherwise;
   3. `find?_put`: what a `put` changes for a lookup. The comparison need not be
      an order for this. It is enough that comparing equal is an equivalence,
      given as equality of a normal form `c` of the keys;
   4. `put_perm`: putting a key that is not there adds one entry and keeps the others;
   5. `put_put`: of two values put under one key the last one stays;
   6. `Sorted` and `Fits`: every key is less than those behind it, and a key has a place
      between them; `put_sorted`: putting such a key keeps the order. -/
namespace KeyList

variable {κ α γ : Type*}

/-- The value of the first entry whose key compares equal. -/
def find? (cmp : κ → κ → Ordering) (k : κ) : List (κ × α) → Option α
  | [] => none
  | e :: l => if cmp k e.1 = .eq then some e.2 else find? cmp k l

/-- A new entry, in front of the first greater key. -/
def insert (cmp : κ → κ → Ordering) (k : κ) (v : α) : List (κ × α) → List (κ × α)
  | [] => [(k, v)]
  | e :: l => if cmp k e.1 = .lt then (k, v) :: e :: l else e :: insert cmp k v l

/-- The value of the first entry whose key compares equal becomes `v`. -/
def replace (cmp : κ → κ → Ordering) (k : κ) (v : α) : List (κ × α) → List (κ × α)
  | [] => []
  | e :: l => if cmp k e.1 = .eq then (e.1, v) :: l else e :: replace cmp k v l

def put (cmp : κ → κ → Ordering) (k : κ) (v : α) (l : List (κ × α)) : List (κ × α) :=
  if (find? cmp k l).isSome then replace cmp k v l else insert cmp k v l

section
variable {cmp : κ → κ → Ordering} {c : κ → γ} {k k' : κ} {v : α} {l : List (κ × α)}

theorem insert_perm : (insert cmp k v l).Perm ((k, v) :: l) := by
  induction l with
  | nil => exact List.Perm.refl _
  | cons e l ih =>
    simp only [insert]
    split
    · exact List.Perm.refl _
    · exact (ih.cons e).trans (List.Perm.swap _ _ l)

theorem put_perm (h : find? cmp k l = none) : (put cmp k v l).Perm ((k, v) :: l) := by
  simp only [put, h, Option.isSome_none, Bool.false_eq_true, if_false]
  exact insert_perm

/-- A key that compares greater than all others goes to the end. -/
theorem put_last (h : ∀ e ∈ l, cmp k e.1 = .gt) : put cmp k v l = l ++ [(k, v)] := by
  have hfind : find? cmp k l = none := by
    induction l with
    | nil => rfl
    | cons e l ih =>
      rw [List.forall_mem_cons] at h
      simp only [find?, h.1, ih h.2, reduceCtorEq, if_false]
  simp only [put, hfind, Option.isSome_none, Bool.false_eq_true, if_false]
  clear hfind
  induction l with
  | nil => rfl
  | cons e l ih =>
    rw [List.forall_mem_cons] at h
    simp only [insert, h.1, ih h.2, reduceCtorEq, if_false, List.cons_append]

theorem mem_of_find? (h : find? cmp k l = some v) : ∃ k', (k', v) ∈ l := by
  induction l with
  | nil => cases h
  | cons e l ih =>
    simp only [find?] at h
    split at h
    · cases h
      exact ⟨e.1, List.mem_cons_self⟩
    · obtain ⟨k', hk⟩ := ih h
      exact ⟨k', List.mem_cons_of_mem e hk⟩

theorem insert_keys : ((insert cmp k v l).map Prod.fst).Perm (k :: l.map Prod.fst) :=
  insert_perm.map Prod.fst

theorem replace_keys : (replace cmp k v l).map Prod.fst = l.map Prod.fst := by
  induction l with
  | nil => rfl
  | cons e l ih =>
    simp only [replace]
    split
    · rfl
    · simp only [List.map_cons, ih]

/-- A value of the map after a `put` is the new one or was there before. -/
theorem mem_put {e : κ × α} (h : e ∈ put cmp k v l) : e.2 = v ∨ e ∈ l := by
  simp only [put] at h
  split at h
  · clear * - h
    induction l with
    | nil => cases h
    | cons x l ih =>
      simp only [replace] at h
      split at h <;> rcases List.mem_cons.mp h with rfl | h
      · exact Or.inl rfl
      · exact Or.inr (List.mem_cons_of_mem x h)
      · exact Or.inr List.mem_cons_self
      · exact (ih h).imp_right (List.mem_cons_of_mem x)
  · rcases List.mem_cons.mp (insert_perm.mem_iff.mp h) with rfl | h
    · exact Or.inl rfl
    · exact Or.inr h

variable [DecidableEq γ] (hc : ∀ a b, cmp a b = .eq ↔ c a = c b)
include hc

theorem find?_eq_none : find? cmp k l = none ↔ ∀ e ∈ l, c e.1 ≠ c k := by
  induction l with
  | nil => simp [find?]
  | cons e l ih =>
    simp only [find?, hc, List.forall_mem_cons]
    split
    · next h => simp [h]
    · next h => simp [ih, Ne.symm h]

/-- Keys of one normal form find the same. -/
theorem find?_congr (h : c k' = c k) : find? cmp k' l = find? cmp k l := by
  induction l with
  | nil => rfl
  | cons e l ih => simp only [find?, hc, h, ih]

theorem find?_insert (h : find? cmp k l = none) :
    find? cmp k' (insert cmp k v l) = if c k' = c k then some v else find? cmp k' l := by
  induction l with
  | nil => simp [insert, find?, hc]
  | cons e l ih =>
    have hne : c e.1 ≠ c k := (find?_eq_none hc).mp h e List.mem_cons_self
    have hl : find? cmp k l = none :=
      (find?_eq_none hc).mpr fun x hx => (find?_eq_none hc).mp h x (List.mem_cons_of_mem e hx)
    simp only [insert]
    split
    · simp only [find?, hc]
    · simp only [find?, hc, ih hl]
      -- a key cannot be that of the entry and the new one at once
      by_cases hk : c k' = c k
      · simp [hk, Ne.symm hne]
      · simp [hk]

theorem find?_replace (h : (find? cmp k l).isSome) :
    find? cmp k' (replace cmp k v l) = if c k' = c k then some v else find? cmp k' l := by
  induction l with
  | nil => simp [find?] at h
  | cons e l ih =>
    simp only [find?, hc] at h
    simp only [replace, hc]
    by_cases he : c k = c e.1
    · simp only [he, if_true, find?, hc]
      split <;> rfl
    · rw [if_neg he] at h
      simp only [he, if_false, find?, hc, ih h]
      by_cases hk : c k' = c k
      · simp [hk, he]
      · simp [hk]

/-- The keys of the map after a `put`. -/
theorem put_keys :
    (put cmp k v l).map Prod.fst = l.map Prod.fst ∨
      (∀ x ∈ l, c x.1 ≠ c k) ∧ ((put cmp k v l).map Prod.fst).Perm (k :: l.map Prod.fst) := by
  simp only [put]
  split
  · exact Or.inl replace_keys
  · next h =>
    exact Or.inr ⟨(find?_eq_none hc).mp (Option.not_isSome_iff_eq_none.mp h), insert_keys⟩

/-- **What a `put` does to a lookup.** -/
theorem find?_put :
    find? cmp k' (put cmp k v l) = if c k' = c k then some v else find? cmp k' l := by
  simp only [put]
  split
  · next h => exact find?_replace hc h
  · next h => exact find?_insert hc (Option.not_isSome_iff_eq_none.mp h)

/-- Of two values under one key the first leaves no trace. -/
theorem replace_put {w : α} : replace cmp k w (put cmp k v l) = put cmp k w l := by
  have hreplace : replace cmp k w (replace cmp k v l) = replace cmp k w l := by
    induction l with
    | nil => rfl
    | cons e l ih =>
      simp only [replace]
      split
      · next h => simp only [replace, h, if_true]
      · next h => simp only [replace, h, if_false, ih]
  have hinsert : find? cmp k l = none → replace cmp k w (insert cmp k v l) = insert cmp k w l := by
    clear hreplace
    intro hnone
    have hself : cmp k k = .eq := (hc k k).mpr rfl
    induction l with
    | nil => simp only [insert, replace, hself, if_true]
    | cons e l ih =>
      have hne : cmp k e.1 ≠ .eq := by
        intro h
        exact (find?_eq_none hc).mp hnone e List.mem_cons_self ((hc k e.1).mp h).symm
      have hl : find? cmp k l = none :=
        (find?_eq_none hc).mpr fun x hx => (find?_eq_none hc).mp hnone x (List.mem_cons_of_mem e hx)
      simp only [insert]
      split
      · simp only [replace, hself, if_true]
      · simp only [replace, hne, if_false, ih hl]
  simp only [put]
  split
  · exact hreplace
  · next h => exact hinsert (Option.not_isSome_iff_eq_none.mp h)

theorem put_put {w : α} : put cmp k w (put cmp k v l) = put cmp k w l := by
  have hfound : (find? cmp k (put cmp k v l)).isSome := by
    rw [find?_put hc, if_pos rfl]
    rfl
  rw [put, if_pos hfound, replace_put hc]

end

/-! ## Lists in two parts -/

section
variable {cmp : κ → κ → Ordering} {k : κ} {v : α} {l l' : List (κ × α)} {e : κ × α}

theorem find?_isNone_iff : find? cmp k l = none ↔ ∀ e ∈ l, cmp k e.1 ≠ .eq := by
  induction l with
  | nil => simp [find?]
  | cons e l ih =>
    simp only [find?, List.forall_mem_cons]
    split
    · next h => simp [h]
    · next h => simp [h, ih]

theorem find?_append_of_ne (h : ∀ e ∈ l, cmp k e.1 ≠ .eq) : find? cmp k (l ++ l') = find? cmp k l' := by
  induction l with
  | nil => rfl
  | cons e l ih =>
    rw [List.forall_mem_cons] at h
    rw [List.cons_append, find?, if_neg h.1, ih h.2]

theorem replace_append_of_ne (h : ∀ e ∈ l, cmp k e.1 ≠ .eq) :
    replace cmp k v (l ++ l') = l ++ replace cmp k v l' := by
  induction l with
  | nil => rfl
  | cons e l ih =>
    rw [List.forall_mem_cons] at h
    rw [List.cons_append, replace, if_neg h.1, ih h.2, List.cons_append]

theorem replace_append_of_found (h : (find? cmp k l).isSome) :
    replace cmp k v (l ++ l') = replace cmp k v l ++ l' := by
  induction l with
  | nil => cases h
  | cons e l ih =>
    rw [List.cons_append, replace, replace]
    split
    · rfl
    · next hne =>
      rw [find?, if_neg hne] at h
      rw [ih h, List.cons_append]

/-- A new entry goes in front of a greater key. -/
theorem insert_append_of_lt (h : cmp k e.1 = .lt) : insert cmp k v (l ++ e :: l') = insert cmp k v l ++ e :: l' := by
  induction l with
  | nil => simp only [List.nil_append, insert, h, if_true, List.cons_append]
  | cons x l ih =>
    simp only [List.cons_append, insert, ih]
    split <;> rfl

theorem insert_append_of_not_lt (h : ∀ e ∈ l, cmp k e.1 ≠ .lt) :
    insert cmp k v (l ++ l') = l ++ insert cmp k v l' := by
  induction l with
  | nil => rfl
  | cons e l ih =>
    rw [List.forall_mem_cons] at h
    rw [List.cons_append, insert, if_neg h.1, ih h.2, List.cons_append]

end

/-! ## Order -/

section
variable {cmp : κ → κ → Ordering} {k : κ} {v : α} {l l' : List (κ × α)} {e x : κ × α}

/-- Every key is less than the keys behind it. -/
def Sorted (cmp : κ → κ → Ordering) (l : List (κ × α)) : Prop := l.Pairwise fun e x => cmp e.1 x.1 = .lt

/-- The key `k` has a place in the list: what is in front of a key less than `k` is less, and what is
    behind a greater one is greater. -/
def Fits (cmp : κ → κ → Ordering) (k : κ) (l : List (κ × α)) : Prop :=
  l.Pairwise fun e x => (cmp x.1 k = .lt → cmp e.1 k = .lt) ∧ (cmp e.1 k = .gt → cmp x.1 k = .gt)

/-- On the keys in `S` the comparison is transitive. -/
def TransOn (cmp : κ → κ → Ordering) (S : κ → Prop) : Prop :=
  ∀ a b c, S a → S b → S c → cmp a b ≠ .gt → cmp b c ≠ .gt → cmp a c ≠ .gt

theorem mem_put_keys {a : κ} (h : a ∈ (put cmp k v l).map Prod.fst) : a = k ∨ a ∈ l.map Prod.fst := by
  simp only [put] at h
  split at h
  · rw [replace_keys] at h
    exact .inr h
  · exact List.mem_cons.mp (insert_keys.mem_iff.mp h)

theorem sorted_of_keys (h : l.map Prod.fst = l'.map Prod.fst) (hl : Sorted cmp l') : Sorted cmp l := by
  have hkeys : (l'.map Prod.fst).Pairwise fun a b => cmp a b = .lt := List.pairwise_map.mpr hl
  rw [← h] at hkeys
  exact List.pairwise_map.mp hkeys

variable [Std.OrientedCmp cmp]

theorem gt_iff {a b : κ} : cmp a b = .gt ↔ cmp b a = .lt := Std.OrientedCmp.gt_iff_lt

/-- What is neither less nor equal is greater. -/
theorem gt_of_ne {a b : κ} (hlt : cmp a b ≠ .lt) (heq : cmp b a ≠ .eq) : cmp a b = .gt := by
  cases h : cmp a b with
  | lt => exact absurd h hlt
  | eq => exact absurd (Std.OrientedCmp.eq_comm.mp h) heq
  | gt => rfl

/-- Where the comparison is transitive every key has a place. -/
theorem fits_of_sorted {S : κ → Prop} (hS : TransOn cmp S) (hk : S k) (hkeys : ∀ e ∈ l, S e.1)
    (hl : Sorted cmp l) : Fits cmp k l := by
  apply List.Pairwise.imp_of_mem _ hl
  intro e x he hx hlt
  have hgt : cmp x.1 e.1 = .gt := gt_iff.mpr hlt
  -- with `k` not behind `x` and not in front of `e` they would stand the other way round
  have hnot : cmp x.1 k ≠ .gt → cmp k e.1 ≠ .gt → False :=
    fun hxk hke => hS x.1 k e.1 (hkeys x hx) hk (hkeys e he) hxk hke hgt
  refine ⟨fun hxk => ?_, fun hek => ?_⟩
  · by_contra hne
    apply hnot (by rw [hxk]; decide)
    rw [ne_eq, gt_iff]
    exact hne
  · by_contra hne
    apply hnot hne
    rw [gt_iff.mp hek]
    decide

/-- In an ordered list the place of a key is a matter of the keys alone. -/
theorem fits_iff (hl : Sorted cmp l) : Fits cmp k l ↔ ∀ a ∈ l.map Prod.fst, ∀ b ∈ l.map Prod.fst, cmp a b = .lt →
    (cmp b k = .lt → cmp a k = .lt) ∧ (cmp a k = .gt → cmp b k = .gt) := by
  refine ⟨fun h => ?_, fun h => ?_⟩
  · simp only [List.forall_mem_map]
    induction l with
    | nil => simp
    | cons y l ih =>
      obtain ⟨hy, hl⟩ := List.pairwise_cons.mp hl
      obtain ⟨hfits, h⟩ := List.pairwise_cons.mp h
      intro e he x hx hlt
      rcases List.mem_cons.mp he with rfl | he' <;> rcases List.mem_cons.mp hx with rfl | hx'
      · exact absurd (hlt.symm.trans Std.ReflCmp.compare_self) (by decide)
      · exact hfits x hx'
      · rw [gt_iff.mpr (hy e he')] at hlt
        cases hlt
      · exact ih hl h e he' x hx' hlt
  · apply List.Pairwise.imp_of_mem _ hl
    exact fun he hx hlt => h _ (List.mem_map_of_mem he) _ (List.mem_map_of_mem hx) hlt

theorem insert_sorted (hk : Fits cmp k l) (hnone : ∀ e ∈ l, cmp k e.1 ≠ .eq) (hl : Sorted cmp l) :
    Sorted cmp (insert cmp k v l) := by
  induction l with
  | nil => exact List.pairwise_singleton _ _
  | cons e l ih =>
    obtain ⟨hfits, hk⟩ := List.pairwise_cons.mp hk
    obtain ⟨he, hl'⟩ := List.pairwise_cons.mp hl
    rw [List.forall_mem_cons] at hnone
    simp only [insert]
    split
    · next hlt =>
      refine List.pairwise_cons.mpr ⟨List.forall_mem_cons.mpr ⟨hlt, fun x hx => ?_⟩, hl⟩
      exact gt_iff.mp ((hfits x hx).2 (gt_iff.mpr hlt))
    · next hnot =>
      refine List.pairwise_cons.mpr ⟨fun x hx => ?_, ih hk hnone.2 hl'⟩
      rcases List.mem_cons.mp (insert_perm.mem_iff.mp hx) with rfl | hx
      · exact gt_iff.mp (gt_of_ne hnot (mt Std.OrientedCmp.eq_comm.mp hnone.1))
      · exact he x hx

/-- **A key with a place is put in order.** -/
theorem put_sorted (hk : Fits cmp k l) (hl : Sorted cmp l) : Sorted cmp (put cmp k v l) := by
  simp only [put]
  split
  · exact sorted_of_keys replace_keys hl
  · next h => exact insert_sorted hk (find?_isNone_iff.mp (Option.not_isSome_iff_eq_none.mp h)) hl

end

/-- Where the comparison is an order every key has a place between two others. -/
theorem place_of_lt {cmp : κ → κ → Ordering} [Std.TransCmp cmp] {a b : κ} (hlt : cmp a b = .lt) (k : κ) :
    (cmp b k = .lt → cmp a k = .lt) ∧ (cmp a k = .gt → cmp b k = .gt) := by
  refine ⟨fun h => Std.TransCmp.lt_trans hlt h, fun h => ?_⟩
  exact gt_iff.mpr (Std.TransCmp.lt_trans (gt_iff.mp h) hlt)

/-! ## Other values -/

section
variable {β : Type*} (f : α → β) {cmp : κ → κ → Ordering} {k : κ} {v : α} {l : List (κ × α)}

/-- The same keys with the values `f` makes of the values. -/
def mapValues (l : List (κ × α)) : List (κ × β) := l.map fun e => (e.1, f e.2)

theorem find?_mapValues : find? cmp k (mapValues f l) = (find? cmp k l).map f := by
  induction l with
  | nil => rfl
  | cons e l ih =>
    simp only [mapValues, List.map_cons, find?] at ih ⊢
    split
    · rfl
    · exact ih

theorem put_mapValues : put cmp k (f v) (mapValues f l) = mapValues f (put cmp k v l) := by
  have hreplace : replace cmp k (f v) (mapValues f l) = mapValues f (replace cmp k v l) := by
    induction l with
    | nil => rfl
    | cons e l ih =>
      simp only [mapValues, List.map_cons, replace] at ih ⊢
      split
      · rfl
      · rw [List.map_cons, ih]
  have hinsert : insert cmp k (f v) (mapValues f l) = mapValues f (insert cmp k v l) := by
    clear hreplace
    induction l with
    | nil => rfl
    | cons e l ih =>
      simp only [mapValues, List.map_cons, insert] at ih ⊢
      split
      · rfl
      · rw [List.map_cons, ih]
  simp only [put, find?_mapValues, Option.isSome_map, hreplace, hinsert]
  split <;> rfl

end

end KeyList
