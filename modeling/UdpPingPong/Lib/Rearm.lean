import Mathlib.Algebra.Order.Group.Defs
import UdpPingPong.Lib.Exec

/- A check that is set again from the clock.

   A loop reads a clock and has a time `next` for its next check. Only a reading that is
   later sets it, to `δ` behind that reading, and then the loop asks for a stop flag. Each
   of these loops reads the clock in its own way; what is common to them is `Rearmed`.

   1. `Rearmed`: how steps move the next check; `begun` says that there is one, `closed`
      that the loop has asked for the flag or is over;
   2. `Rearmed.armed`: the next check is at most `δ` ahead of whatever bounds the readings;
   3. `Rearmed.watched`: once the flag is set the next check stays, until the loop closes. -/
namespace Rearm

open Exec

variable {σ ε α : Type} [AddCommGroup α] [LinearOrder α] [IsOrderedAddMonoid α]

/-- The steps of a system with a check. An event `stays` if it does not say that the flag is unset. -/
structure Rearmed (step : σ → ε → Option σ) (reading : ε → Option α) (stays : ε → Prop) (δ : α)
    (next : σ → α) (begun closed : σ → Prop) : Prop where
  /-- A next check is set from a reading, or was there before. -/
  step_next : ∀ s e t, step s e = some t → begun t →
    begun s ∧ next t = next s ∨ ∃ r, reading e = some r ∧ next t = r + δ
  /-- With the flag set a check that is there stays where it is, or the loop closes. -/
  step_begun : ∀ s e t, step s e = some t → stays e → begun s → begun t ∧ next t = next s ∨ closed t
  step_closed : ∀ s e t, step s e = some t → stays e → closed s → closed t

variable {step : σ → ε → Option σ} {reading : ε → Option α} {stays : ε → Prop} {δ b : α} {next : σ → α}
  {begun closed : σ → Prop} {s t : σ} {es : List ε}

/-- **The next check does not run ahead of the clock.** -/
theorem Rearmed.armed (h : Rearmed step reading stays δ next begun closed) (hs : ¬ begun s)
    (hr : Runs step s es t) (hb : ∀ e ∈ es, ∀ r, reading e = some r → r ≤ b) : begun t → next t ≤ b + δ := by
  apply Runs.trace_induct (P := fun es t => (∀ e ∈ es, ∀ r, reading e = some r → r ≤ b) →
    begun t → next t ≤ b + δ) _ _ hr hb
  · intro _ hbegun
    exact absurd hbegun hs
  · intro es t e u _ ih hstep hb hbegun
    rw [List.forall_mem_append] at hb
    rcases h.step_next t e u hstep hbegun with ⟨hbefore, hnext⟩ | ⟨r, hread, hnext⟩
    · rw [hnext]
      exact ih hb.1 hbefore
    · rw [hnext]
      exact add_le_add_left (hb.2 e (List.mem_singleton_self e) r hread) δ

omit [IsOrderedAddMonoid α] in
/-- **A request that stays** finds the check where it was, or the loop closed. -/
theorem Rearmed.watched (h : Rearmed step reading stays δ next begun closed) (hr : Runs step s es t)
    (hstays : ∀ e ∈ es, stays e) (hs : begun s ∧ next s ≤ b ∨ closed s) : begun t ∧ next t ≤ b ∨ closed t := by
  apply Runs.trace_induct (P := fun es t => (∀ e ∈ es, stays e) → begun t ∧ next t ≤ b ∨ closed t) _ _ hr hstays
  · intro _
    exact hs
  · intro es t e u _ ih hstep hstays
    rw [List.forall_mem_append] at hstays
    have he := hstays.2 e (List.mem_singleton_self e)
    rcases ih hstays.1 with ⟨hbegun, hnext⟩ | hclosed
    · rcases h.step_begun t e u hstep he hbegun with ⟨hbegun', hsame⟩ | hclosed
      · exact .inl ⟨hbegun', hsame ▸ hnext⟩
      · exact .inr hclosed
    · exact .inr (h.step_closed t e u hstep he hclosed)

end Rearm
