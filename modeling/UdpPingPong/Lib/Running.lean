import Mathlib.Algebra.BigOperators.Group.List.Basic
import Mathlib.Data.List.Chain
import Mathlib.Tactic.Common

/- Running totals: a start value, and increments added one after the other.

   1. `running start incs n`: the total after `n` increments;
   2. `running_cons_succ`: the first increment moves into the start value;
   3. `running_fold`: the same total, as a fold that adds one increment at a time;
   4. `steps delta start incs`: what a rule makes of each total and the next one;
   5. `intervals f a l`: what a rule makes of each element and the next one, and
      `sum_intervals`: differences add up to the one from the first to the last. -/
namespace Running

variable {α : Type} [AddMonoid α]

/-- The total after `n` increments. -/
def running (start : α) (incs : List α) (n : Nat) : α := start + (incs.take n).sum

variable {start : α} {incs : List α}

@[simp] theorem running_zero : running start incs 0 = start := by
  rw [running, List.take_zero, List.sum_nil, add_zero]

theorem running_cons_succ (d : α) (n : Nat) : running start (d :: incs) (n + 1) = running (start + d) incs n := by
  rw [running, running, List.take_succ_cons, List.sum_cons, add_assoc]

/-- A map that turns an operation into addition turns its fold into a running total. -/
theorem running_fold {β : Type} {add : β → β → β} {c : β → α} (hc : ∀ x y, c (add x y) = c x + c y) (b : β)
    (l : List β) (n : Nat) : c ((l.take n).foldl add b) = running (c b) (l.map c) n := by
  induction l generalizing b n with
  | nil => simp [running]
  | cons x l ih =>
    cases n with
    | zero => simp
    | succ n => rw [List.take_succ_cons, List.foldl_cons, ih, List.map_cons, running_cons_succ, hc]

/-- What `delta` makes of the totals in a row. -/
def steps (delta : α → α → α) (start : α) (incs : List α) : List α :=
  (List.range incs.length).map fun n => delta (running start incs n) (running start incs (n + 1))

theorem steps_cons (delta : α → α → α) (d : α) :
    steps delta start (d :: incs) = delta start (start + d) :: steps delta (start + d) incs := by
  rw [steps, List.length_cons, List.range_succ_eq_map, List.map_cons, List.map_map, running_zero,
    running_cons_succ, running_zero]
  congr 1
  apply List.map_congr_left
  intro n _
  simp only [Function.comp, Nat.succ_eq_add_one, running_cons_succ]

/-! ## From one element to the next -/

section
variable {σ β : Type}

/-- What `f` makes of each element of `a :: l` and the next one. -/
def intervals (f : σ → σ → β) : σ → List σ → List β
  | _, [] => []
  | a, b :: l => f a b :: intervals f b l

theorem map_intervals {γ : Type} (g : β → γ) (f : σ → σ → β) (a : σ) (l : List σ) :
    (intervals f a l).map g = intervals (fun x y => g (f x y)) a l := by
  induction l generalizing a with
  | nil => rfl
  | cons b l ih => rw [intervals, intervals, List.map_cons, ih]

/-- Two rules make the same of all intervals exactly when they do of each. -/
theorem intervals_eq_iff {f g : σ → σ → β} {a : σ} {l : List σ} :
    intervals f a l = intervals g a l ↔ (a :: l).IsChain fun x y => f x y = g x y := by
  induction l generalizing a with
  | nil => simp [intervals]
  | cons b l ih => rw [intervals, intervals, List.cons.injEq, List.isChain_cons_cons, ih]

/-- **Differences add up**, whatever lies between the first element and the last. -/
theorem sum_intervals {γ : Type} [AddCommGroup γ] (c : σ → γ) (a : σ) (l : List σ) :
    (intervals (fun x y => c y - c x) a l).sum = c ((a :: l).getLast (List.cons_ne_nil a l)) - c a := by
  induction l generalizing a with
  | nil => simp [intervals]
  | cons b l ih =>
    calc (intervals (fun x y => c y - c x) a (b :: l)).sum
        = c b - c a + (intervals (fun x y => c y - c x) b l).sum := List.sum_cons
      _ = c b - c a + (c ((b :: l).getLast (List.cons_ne_nil b l)) - c b) := by rw [ih]
      _ = c ((b :: l).getLast (List.cons_ne_nil b l)) - c a := by rw [add_comm, sub_add_sub_cancel]
      _ = c ((a :: b :: l).getLast (List.cons_ne_nil a (b :: l))) - c a := by
          rw [List.getLast_cons (List.cons_ne_nil b l)]

end

end Running
