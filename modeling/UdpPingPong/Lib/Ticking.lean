import Mathlib.Algebra.Order.Field.Basic
import Mathlib.Tactic.Linarith

/- Readings of a clock that moves on.

   A loop that waits for a time `e` reads a clock, and each reading is at least `δ` behind
   the one before. `ticksLeft δ e now` is how many more it takes at most when the last one
   was `now`.

   1. `exists_later`: there is always a next reading;
   2. `ticksLeft_mono`: no reading adds to those that are left;
   3. `ticksLeft_tick`: one that is not the last takes one of them. -/
namespace Ticking

variable {α : Type} [Field α] [LinearOrder α]

def ticksLeft (δ e now : α) : α := max 0 ((e - now) / δ + 1)

theorem ticksLeft_nonneg (δ e now : α) : 0 ≤ ticksLeft δ e now := le_max_left _ _

/-- Only the time that is left matters. -/
theorem ticksLeft_add (δ e now : α) : ticksLeft δ (now + e) now = ticksLeft δ e 0 := by
  rw [ticksLeft, ticksLeft, add_sub_cancel_left, sub_zero]

theorem exists_later (δ : α) (rs : List α) : ∃ t, ∀ r ∈ rs, r + δ ≤ t := by
  induction rs with
  | nil => exact ⟨0, by simp⟩
  | cons r rs ih =>
    obtain ⟨t, ht⟩ := ih
    refine ⟨max (r + δ) t, ?_⟩
    rw [List.forall_mem_cons]
    exact ⟨le_max_left _ _, fun x hx => le_trans (ht x hx) (le_max_right _ _)⟩

variable [IsStrictOrderedRing α] {δ e now t : α}

theorem ticksLeft_mono (hδ : 0 < δ) (h : now ≤ t) : ticksLeft δ e t ≤ ticksLeft δ e now := by
  apply max_le_max_left
  have hdiv : (e - t) / δ ≤ (e - now) / δ := div_le_div_of_nonneg_right (by linarith) (le_of_lt hδ)
  linarith

theorem ticksLeft_tick (hδ : 0 < δ) (h : now + δ ≤ t) (hle : now ≤ e) :
    ticksLeft δ e t + 1 ≤ ticksLeft δ e now := by
  have hnow : 0 ≤ (e - now) / δ := div_nonneg (by linarith) (le_of_lt hδ)
  have htick : (e - t) / δ + 1 ≤ (e - now) / δ := by
    calc (e - t) / δ + 1 = (e - t + δ) / δ := by rw [add_div, div_self (ne_of_gt hδ)]
      _ ≤ (e - now) / δ := div_le_div_of_nonneg_right (by linarith) (le_of_lt hδ)
  rw [ticksLeft, ticksLeft, max_eq_right (by linarith : 0 ≤ (e - now) / δ + 1)]
  rcases le_total 0 ((e - t) / δ + 1) with h0 | h0
  · rw [max_eq_right h0]
    linarith
  · rw [max_eq_left h0]
    linarith

end Ticking
