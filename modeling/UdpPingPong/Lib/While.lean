import Mathlib.Data.Nat.Find
import Mathlib.Logic.Function.Iterate
import Mathlib.Tactic.Common

/- Loops with a condition, a body and one output in each round.

   `loop` runs a loop for fewer rounds than its fuel, and has no result when the fuel is
   used up.

   1. `loop_eq_some_iff`: a loop ends with one output for each round before its
      condition fails for the first time;
   2. `returns_of_iterate`: what a loop returns, whatever fuel it has beyond that;
   3. `ends_iff`: it ends exactly when its condition fails at some time. -/
namespace While

variable {σ β : Type}

/-- The outputs of `while (cond) { out; body }` from the state `s`. -/
def loop (cond : σ → Prop) [DecidablePred cond] (body : σ → σ) (out : σ → β) : Nat → σ → Option (List β)
  | 0, _ => none
  | fuel + 1, s => if cond s then (loop cond body out fuel (body s)).map (out s :: ·) else some []

/-- The loop ends with the outputs `l`, from some amount of fuel on. -/
def Returns (cond : σ → Prop) [DecidablePred cond] (body : σ → σ) (out : σ → β) (s : σ) (l : List β) : Prop :=
  ∃ n, ∀ fuel, n ≤ fuel → loop cond body out fuel s = some l

/-- The loop ends. -/
def Ends (cond : σ → Prop) [DecidablePred cond] (body : σ → σ) (out : σ → β) (s : σ) : Prop :=
  ∃ fuel l, loop cond body out fuel s = some l

section
variable {cond : σ → Prop} [DecidablePred cond] {body : σ → σ} {out : σ → β} {s : σ} {l : List β}

/-- **The result of a loop**: the condition fails for the first time after `k` rounds, and there is fuel
    for them. -/
theorem loop_eq_some_iff (fuel : Nat) : loop cond body out fuel s = some l ↔
    ∃ k, k < fuel ∧ (∀ j, j < k → cond (body^[j] s)) ∧ ¬ cond (body^[k] s) ∧
      l = (List.range k).map fun j => out (body^[j] s) := by
  induction fuel generalizing s l with
  | zero => simp [loop]
  | succ fuel ih =>
    by_cases hc : cond s
    · rw [loop, if_pos hc, Option.map_eq_some_iff]
      refine ⟨?_, ?_⟩
      · intro h
        obtain ⟨l', hl', rfl⟩ := h
        obtain ⟨k, hk, hall, hend, rfl⟩ := ih.mp hl'
        refine ⟨k + 1, by omega, ?_, hend, ?_⟩
        · intro j hj
          cases j with
          | zero => exact hc
          | succ j => exact hall j (by omega)
        · rw [List.range_succ_eq_map, List.map_cons, List.map_map]
          rfl
      · intro h
        obtain ⟨k, hk, hall, hend, rfl⟩ := h
        cases k with
        | zero => exact absurd hc hend
        | succ k =>
          refine ⟨(List.range k).map fun j => out (body^[j] (body s)), ?_, ?_⟩
          · exact ih.mpr ⟨k, by omega, fun j hj => hall (j + 1) (by omega), hend, rfl⟩
          · rw [List.range_succ_eq_map, List.map_cons, List.map_map]
            rfl
    · rw [loop, if_neg hc]
      refine ⟨?_, ?_⟩
      · intro h
        obtain rfl := Option.some.inj h
        exact ⟨0, by omega, fun j hj => absurd hj (by omega), hc, rfl⟩
      · intro h
        obtain ⟨k, hk, hall, -, rfl⟩ := h
        cases k with
        | zero => rfl
        | succ k => exact absurd (hall 0 (by omega)) hc

/-- A loop whose condition fails for the first time after `k` rounds. -/
theorem returns_of_iterate (cond : σ → Prop) [DecidablePred cond] (body : σ → σ) (out : σ → β) {k : Nat}
    (hall : ∀ j, j < k → cond (body^[j] s)) (hend : ¬ cond (body^[k] s)) :
    Returns cond body out s ((List.range k).map fun j => out (body^[j] s)) :=
  ⟨k + 1, fun fuel hfuel => (loop_eq_some_iff fuel).mpr ⟨k, by omega, hall, hend, rfl⟩⟩

/-- **When a loop ends**: its condition fails after some number of rounds. -/
theorem ends_iff : Ends cond body out s ↔ ∃ k, ¬ cond (body^[k] s) := by
  refine ⟨?_, ?_⟩
  · intro h
    obtain ⟨fuel, l, hl⟩ := h
    obtain ⟨k, -, -, hend, -⟩ := (loop_eq_some_iff fuel).mp hl
    exact ⟨k, hend⟩
  · intro h
    classical
    obtain ⟨n, hn⟩ := returns_of_iterate cond body out (fun j hj => not_not.mp (Nat.find_min h hj)) (Nat.find_spec h)
    exact ⟨n, _, hn n (le_refl n)⟩

end

end While
