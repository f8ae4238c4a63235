import Mathlib.Algebra.BigOperators.Ring.List
import Mathlib.Algebra.Field.Basic
import Mathlib.Algebra.Ring.CharZero
import Mathlib.Data.Nat.Cast.Field
import Mathlib.Tactic.Ring
import Mathlib.Tactic.LinearCombination

/- The mean of quotients against the quotient of sums.

   Groups `x` of a list have a weight `w x` and a value `v x`. The mean of the
   quotients `v x / w x` counts every group once, the quotient of the sums by its
   weight.

   1. `covariation_eq`: the pairwise differences of two quantities, multiplied and
      added up, from their sums;
   2. `mean_quotient_iff`: both means are the same exactly when weights and quotients
      do not vary together. -/
namespace Mean

variable {α K : Type} [Field K]

/-- How `f` and `g` vary together over all pairs of a list. -/
def covariation (f g : α → K) (l : List α) : K :=
  (l.map fun x => (l.map fun y => (f x - f y) * (g x - g y)).sum).sum

section
variable (f g : α → K) (l : List α)

/-- The differences of one member to all members. -/
theorem covariation_inner (x : α) : (l.map fun y => (f x - f y) * (g x - g y)).sum =
    l.length * (f x * g x) - f x * (l.map g).sum - (l.map f).sum * g x + (l.map fun y => f y * g y).sum := by
  induction l with
  | nil => simp
  | cons z l ih =>
    simp only [List.map_cons, List.sum_cons, List.length_cons, ih]
    push_cast
    ring

/-- A quadratic expression in the members, added up over a list `k`. -/
theorem covariation_outer (n F G S : K) (k : List α) :
    (k.map fun x => n * (f x * g x) - f x * G - F * g x + S).sum =
      n * (k.map fun x => f x * g x).sum - (k.map f).sum * G - F * (k.map g).sum + k.length * S := by
  induction k with
  | nil => simp
  | cons z k ih =>
    simp only [List.map_cons, List.sum_cons, List.length_cons, ih]
    push_cast
    ring

theorem covariation_eq : covariation f g l =
    2 * (l.length * (l.map fun x => f x * g x).sum - (l.map f).sum * (l.map g).sum) := by
  simp only [covariation, covariation_inner, covariation_outer]
  ring

end

/-- Quantities of which one does not vary do not vary together. -/
theorem covariation_of_const {f g : α → K} {l : List α} (h : ∀ x ∈ l, ∀ y ∈ l, f x = f y) :
    covariation f g l = 0 := by
  apply List.sum_eq_zero
  intro a ha
  obtain ⟨x, hx, rfl⟩ := List.mem_map.mp ha
  apply List.sum_eq_zero
  intro b hb
  obtain ⟨y, hy, rfl⟩ := List.mem_map.mp hb
  rw [h x hx y hy, sub_self, zero_mul]

theorem covariation_comm (f g : α → K) (l : List α) : covariation f g l = covariation g f l := by
  simp only [covariation, mul_comm]

/-- **When the mean of the quotients is the quotient of the sums.** -/
theorem mean_quotient_iff [CharZero K] {v w : α → K} {l : List α} (hl : l ≠ []) (hw : ∀ x ∈ l, w x ≠ 0)
    (hsum : (l.map w).sum ≠ 0) :
    (l.map fun x => v x / w x).sum / l.length = (l.map v).sum / (l.map w).sum ↔
      covariation w (fun x => v x / w x) l = 0 := by
  have hlen : (l.length : K) ≠ 0 := by
    rw [Nat.cast_ne_zero]
    exact fun h => hl (List.eq_nil_of_length_eq_zero h)
  have hv : (l.map fun x => w x * (v x / w x)).sum = (l.map v).sum := by
    congr 1
    apply List.map_congr_left
    intro x hx
    exact mul_div_cancel₀ (v x) (hw x hx)
  rw [div_eq_div_iff hlen hsum, covariation_eq, hv, mul_eq_zero, or_iff_right two_ne_zero, sub_eq_zero]
  refine ⟨?_, ?_⟩
  · intro h
    linear_combination -h
  · intro h
    linear_combination -h

end Mean
