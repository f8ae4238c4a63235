import Mathlib.Data.List.Basic
import Mathlib.Algebra.Order.Ring.Nat
import Mathlib.Tactic.Ring

/- A list that is dealt out in turn.

   1. `next`: the index behind an index, which is 0 behind the last one;
   2. `dealt`: the elements in the order in which they are dealt, some whole rounds
      and the first elements of another one;
   3. `count_dealt`: in `n` turns an element gets its share of the whole rounds, and at
      most the share of one round more. -/
namespace RoundRobin

/-- The index behind `i` in a list of `k` elements. -/
def next (k i : Nat) : Nat := if k ≤ i + 1 then 0 else i + 1

theorem next_mod {k : Nat} (hk : 0 < k) (n : Nat) : next k (n % k) = (n + 1) % k := by
  have hlt := Nat.mod_lt n hk
  unfold next
  split
  · have hk' : n % k + 1 = k := by omega
    calc 0 = (n % k + 1) % k := by rw [hk', Nat.mod_self]
      _ = (n + 1) % k := Nat.mod_add_mod n k 1
  · calc n % k + 1 = (n % k + 1) % k := (Nat.mod_eq_of_lt (by omega)).symm
      _ = (n + 1) % k := Nat.mod_add_mod n k 1

variable {α : Type}

/-- The first `n` elements that are dealt. -/
def dealt (l : List α) (n : Nat) : List α := (List.replicate (n / l.length) l).flatten ++ l.take (n % l.length)

theorem dealt_zero (l : List α) : dealt l 0 = [] := by
  rw [dealt, Nat.zero_div, Nat.zero_mod]
  rfl

/-- **One more turn.** -/
theorem dealt_succ {l : List α} {n : Nat} {x : α} (h : l[n % l.length]? = some x) :
    dealt l (n + 1) = dealt l n ++ [x] := by
  obtain ⟨hlt, hx⟩ := List.getElem?_eq_some_iff.mp h
  have hk : 0 < l.length := Nat.zero_lt_of_lt hlt
  have htake : l.take (n % l.length) ++ [x] = l.take (n % l.length + 1) := by
    rw [← hx, List.take_append_getElem hlt]
  have hnext := next_mod hk n
  unfold next at hnext
  rw [dealt, dealt, List.append_assoc, htake]
  split at hnext
  · next hge =>
    -- the round is over
    have hdiv : (n + 1) / l.length = n / l.length + 1 := Nat.succ_div_of_mod_eq_zero hnext.symm
    rw [← hnext, hdiv, List.take_of_length_le hge, List.replicate_succ', List.flatten_append]
    simp
  · next hge =>
    have hdiv : (n + 1) / l.length = n / l.length := Nat.succ_div_of_mod_ne_zero (by omega)
    rw [← hnext, hdiv]

/-- **Everybody gets a fair share.** -/
theorem count_dealt [BEq α] (l : List α) (n : Nat) (x : α) :
    n / l.length * l.count x ≤ (dealt l n).count x ∧ (dealt l n).count x ≤ (n / l.length + 1) * l.count x := by
  have hcount : (dealt l n).count x = n / l.length * l.count x + (l.take (n % l.length)).count x := by
    rw [dealt, List.count_append, List.count_flatten, List.map_replicate, List.sum_replicate_nat]
  have hle : (l.take (n % l.length)).count x ≤ l.count x := (List.take_sublist _ l).count_le x
  rw [hcount]
  refine ⟨Nat.le_add_right _ _, ?_⟩
  calc n / l.length * l.count x + (l.take (n % l.length)).count x
      ≤ n / l.length * l.count x + l.count x := Nat.add_le_add_left hle _
    _ = (n / l.length + 1) * l.count x := (Nat.succ_mul _ _).symm

end RoundRobin
