import Mathlib.Data.List.Basic
import Mathlib.Data.List.Induction
import Mathlib.Order.Bounds.Basic
import Mathlib.Order.MinMax

/- Minimum and maximum kept in variables that start at 0, one of them with 0 for
   "nothing seen yet".

   1. `lower` and `raise`: one value is seen; `lowest` and `highest`: a list of them;
   2. `highest_isGreatest_iff`: the maximum is right exactly when a value is not negative;
   3. `lowest_isLeast_iff`: the minimum is right exactly when a value is negative, none
      is 0, or the last one is: a 0 counts as nothing seen when another value follows;
   4. `lowest_perm_iff`: the same for all orders of the values at once;
   5. `lower_right_comm`: positive values can be exchanged. -/
namespace Sentinel

variable {α : Type}

theorem setOf_mem_snoc (l : List α) (x : α) : {y | y ∈ l ++ [x]} = insert x {y | y ∈ l} := by
  ext y
  simp [or_comm]

variable [LinearOrder α]

/-- The maximum `m` when `x` is seen. -/
def raise (m x : α) : α := if m < x then x else m

theorem raise_eq_max (m x : α) : raise m x = max m x := (max_def_lt m x).symm

theorem raise_right_comm (m x y : α) : raise (raise m x) y = raise (raise m y) x := by
  simp only [raise_eq_max, max_right_comm]

variable [Zero α]

/-- The minimum `m`, of 0 for nothing seen yet, when `x` is seen. -/
def lower (m x : α) : α := if m = 0 then x else if x < m then x else m

def lowest (l : List α) : α := l.foldl lower 0

def highest (l : List α) : α := l.foldl raise 0

section
variable {m x y : α} {l : List α}

@[simp] theorem lower_zero (x : α) : lower 0 x = x := if_pos rfl

theorem lower_of_ne (hm : m ≠ 0) (x : α) : lower m x = min m x := by
  rw [lower, if_neg hm, min_comm, min_def_lt]

theorem lowest_snoc (l : List α) (x : α) : lowest (l ++ [x]) = lower (lowest l) x := by
  rw [lowest, List.foldl_append]
  rfl

theorem highest_snoc (l : List α) (x : α) : highest (l ++ [x]) = max (highest l) x := by
  rw [← raise_eq_max, highest, List.foldl_append]
  rfl

/-! ## The maximum -/

theorem highest_isGreatest (l : List α) : IsGreatest (insert 0 {x | x ∈ l}) (highest l) := by
  induction l using List.reverseRecOn with
  | nil => simp [highest, isGreatest_singleton]
  | append_singleton l x ih =>
    rw [highest_snoc, setOf_mem_snoc, Set.insert_comm, max_comm]
    exact ih.insert x

/-- **When the maximum is right.** -/
theorem highest_isGreatest_iff : IsGreatest {x | x ∈ l} (highest l) ↔ ∃ x ∈ l, 0 ≤ x := by
  have hg := highest_isGreatest l
  refine ⟨?_, ?_⟩
  · intro h
    exact ⟨highest l, h.1, hg.2 (Set.mem_insert 0 _)⟩
  · intro h
    obtain ⟨x, hx, h0⟩ := h
    refine ⟨?_, fun y hy => hg.2 (Set.mem_insert_of_mem 0 hy)⟩
    rcases hg.1 with hz | hm
    · -- the maximum is 0, and so is `x`
      have hle : x ≤ highest l := hg.2 (Set.mem_insert_of_mem 0 hx)
      rw [hz] at hle ⊢
      obtain rfl := le_antisymm hle h0
      exact hx
    · exact hm

/-! ## The minimum -/

theorem lowest_nonneg (h : ∀ x ∈ l, 0 ≤ x) : 0 ≤ lowest l := by
  induction l using List.reverseRecOn with
  | nil => exact le_refl _
  | append_singleton l x ih =>
    have hm := ih fun y hy => h y (List.mem_append_left _ hy)
    have hx := h x (by simp)
    rw [lowest_snoc, lower]
    split
    · exact hx
    · split
      · exact hx
      · exact hm

/-- Once a negative value is seen, no other is taken for "nothing". -/
theorem lowest_isLeast_of_neg (h : ∃ x ∈ l, x < 0) : IsLeast {x | x ∈ l} (lowest l) := by
  induction l using List.reverseRecOn with
  | nil => simp at h
  | append_singleton l x ih =>
    rw [lowest_snoc, setOf_mem_snoc]
    by_cases hl : ∃ y ∈ l, y < 0
    · have hleast := ih hl
      obtain ⟨y, hy, hneg⟩ := hl
      have hne : lowest l ≠ 0 := ne_of_lt (lt_of_le_of_lt (hleast.2 hy) hneg)
      rw [lower_of_ne hne, min_comm]
      exact hleast.insert x
    · have hnonneg : ∀ y ∈ l, 0 ≤ y := fun y hy => not_lt.mp fun hneg => hl ⟨y, hy, hneg⟩
      have hx : x < 0 := by
        obtain ⟨y, hy, hneg⟩ := h
        rcases List.mem_append.mp hy with hy | hy
        · exact absurd ⟨y, hy, hneg⟩ hl
        · rwa [List.mem_singleton.mp hy] at hneg
      have hlow : lower (lowest l) x = x := by
        rw [lower]
        split
        · rfl
        · rw [if_pos (lt_of_lt_of_le hx (lowest_nonneg hnonneg))]
      rw [hlow]
      refine ⟨Set.mem_insert x _, ?_⟩
      intro y hy
      rcases hy with rfl | hy
      · exact le_refl _
      · exact le_trans hx.le (hnonneg y hy)

/-- Without a 0 the minimum is an ordinary one. -/
theorem lowest_isLeast_of_ne (hl : l ≠ []) (h : 0 ∉ l) : IsLeast {x | x ∈ l} (lowest l) := by
  induction l using List.reverseRecOn with
  | nil => exact absurd rfl hl
  | append_singleton l x ih =>
    rw [lowest_snoc, setOf_mem_snoc]
    by_cases hnil : l = []
    · subst hnil
      simp [lowest, isLeast_singleton]
    · have hl0 : 0 ∉ l := fun h0 => h (List.mem_append_left _ h0)
      have hleast := ih hnil hl0
      have hne : lowest l ≠ 0 := fun h0 => hl0 (h0 ▸ hleast.1)
      rw [lower_of_ne hne, min_comm]
      exact hleast.insert x

/-- Of values that are not negative, only a last 0 leaves the minimum at 0. -/
theorem lowest_eq_zero_iff (hl : l ≠ []) (h : ∀ x ∈ l, 0 ≤ x) : lowest l = 0 ↔ l.getLast? = some 0 := by
  obtain ⟨l, x, rfl⟩ := (List.eq_nil_or_concat' l).resolve_left hl
  have hm := lowest_nonneg fun y hy => h y (List.mem_append_left [x] hy)
  have hx := h x (by simp)
  rw [lowest_snoc, List.getLast?_concat, Option.some.injEq, lower]
  split
  · rfl
  · next hne =>
    split
    · rfl
    · next hle =>
      refine ⟨?_, ?_⟩
      · intro h0
        exact absurd h0 hne
      · intro h0
        subst h0
        exact absurd (lt_of_le_of_ne hm (Ne.symm hne)) hle

/-- **When the minimum is right.** -/
theorem lowest_isLeast_iff (hl : l ≠ []) : IsLeast {x | x ∈ l} (lowest l) ↔
    (∃ x ∈ l, x < 0) ∨ 0 ∉ l ∨ l.getLast? = some 0 := by
  by_cases hneg : ∃ x ∈ l, x < 0
  · exact iff_of_true (lowest_isLeast_of_neg hneg) (.inl hneg)
  by_cases h0 : 0 ∈ l
  · have hnonneg : ∀ x ∈ l, 0 ≤ x := fun x hx => not_lt.mp fun h => hneg ⟨x, hx, h⟩
    simp only [hneg, h0, not_true, false_or]
    rw [← lowest_eq_zero_iff hl hnonneg]
    refine ⟨?_, ?_⟩
    · intro hleast
      exact le_antisymm (hleast.2 h0) (lowest_nonneg hnonneg)
    · intro hz
      rw [hz]
      exact ⟨h0, hnonneg⟩
  · exact iff_of_true (lowest_isLeast_of_ne hl h0) (.inr (.inl h0))

/-- **When the minimum is right in every order** of the values. -/
theorem lowest_perm_iff (hl : l ≠ []) : (∀ l', l'.Perm l → IsLeast {x | x ∈ l} (lowest l')) ↔
    (∃ x ∈ l, x < 0) ∨ 0 ∉ l ∨ ∀ x ∈ l, x = 0 := by
  have hmem : ∀ {l' : List α}, l'.Perm l → {x | x ∈ l'} = {x | x ∈ l} := fun hp => Set.ext fun _ => hp.mem_iff
  refine ⟨?_, ?_⟩
  · intro h
    by_contra hno
    obtain ⟨hneg, hno⟩ := not_or.mp hno
    obtain ⟨h0, hno⟩ := not_or.mp hno
    obtain ⟨x, hx⟩ := not_forall.mp hno
    obtain ⟨hx, hne⟩ := Classical.not_imp.mp hx
    -- with `x` at the end the 0 before it is forgotten
    obtain ⟨s, t, rfl⟩ := List.append_of_mem hx
    have hp : (s ++ t ++ [x]).Perm (s ++ x :: t) := by
      rw [List.append_assoc]
      exact (List.perm_append_singleton x t).append_left s
    have hleast := h _ hp
    rw [← hmem hp, lowest_isLeast_iff (by simp), List.getLast?_concat] at hleast
    rcases hleast with ⟨y, hy, hlt⟩ | hz | hlast
    · exact hneg ⟨y, hp.mem_iff.mp hy, hlt⟩
    · exact h0 fun hm => hz (hp.mem_iff.mpr hm)
    · exact hne (Option.some.inj hlast)
  · intro h l' hp
    have hl' : l' ≠ [] := fun hnil => hl (List.nil_perm.mp (hnil ▸ hp))
    rw [← hmem hp, lowest_isLeast_iff hl']
    rcases h with ⟨x, hx, hlt⟩ | h0 | hall
    · exact .inl ⟨x, hp.mem_iff.mpr hx, hlt⟩
    · exact .inr (.inl fun hm => h0 (hp.mem_iff.mp hm))
    · refine .inr (.inr ?_)
      rw [List.getLast?_eq_some_getLast hl', hall _ (hp.mem_iff.mp (List.getLast_mem hl'))]

/-- Positive values can be seen in any order. -/
theorem lower_right_comm (m : α) (hx : 0 < x) (hy : 0 < y) : lower (lower m x) y = lower (lower m y) x := by
  by_cases hm : m = 0
  · subst hm
    rw [lower_zero, lower_zero, lower_of_ne hx.ne', lower_of_ne hy.ne', min_comm]
  · have hne : ∀ {z : α}, 0 < z → min m z ≠ 0 := by
      intro z hz
      rcases min_choice m z with h | h
      · rwa [h]
      · rw [h]
        exact hz.ne'
    rw [lower_of_ne hm, lower_of_ne hm, lower_of_ne (hne hx), lower_of_ne (hne hy), min_right_comm]

end

end Sentinel
