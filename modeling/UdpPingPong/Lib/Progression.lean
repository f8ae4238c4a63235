import Mathlib.Data.Int.GCD
import Mathlib.Data.Nat.ModEq
import Mathlib.Tactic.Common
import Mathlib.Tactic.Ring

/- Arithmetic progressions `a, a + s, a + 2 * s, ...`, counted up to a bound and modulo `m`.

   1. `terms a b s`: the terms up to `b`; `mem_terms` and `terms_sorted` say which they
      are, and in what order;
   2. `lt_termCount_iff`: the term number `termCount a b s` is the first one beyond `b`;
   3. `exists_residue_gt_iff`: the largest residue of a progression modulo `m`. -/
namespace Progression

/-! ## Terms up to a bound -/

/-- The number of terms up to `b`. -/
def termCount (a b s : Nat) : Nat := (b + s - a) / s

/-- The terms up to `b`. -/
def terms (a b s : Nat) : List Nat := (List.range (termCount a b s)).map fun k => a + k * s

section
variable {a b s k : Nat}

/-- The terms in front of number `termCount a b s` are those up to `b`. -/
theorem lt_termCount_iff (hs : 1 ≤ s) : k < termCount a b s ↔ a + k * s ≤ b := by
  rw [termCount, Nat.lt_iff_add_one_le, Nat.le_div_iff_mul_le (by omega), Nat.add_mul, Nat.one_mul]
  omega

theorem terms_eq_nil (hs : 1 ≤ s) (h : b < a) : terms a b s = [] := by
  have hcount : termCount a b s = 0 := by
    rw [termCount, Nat.div_eq_zero_iff]
    omega
  rw [terms, hcount]
  rfl

theorem mem_terms (hs : 1 ≤ s) {x : Nat} : x ∈ terms a b s ↔ ∃ k, x = a + k * s ∧ x ≤ b := by
  simp only [terms, List.mem_map, List.mem_range, lt_termCount_iff hs]
  refine ⟨?_, ?_⟩
  · intro h
    obtain ⟨k, hk, rfl⟩ := h
    exact ⟨k, rfl, hk⟩
  · intro h
    obtain ⟨k, rfl, hk⟩ := h
    exact ⟨k, hk, rfl⟩

theorem terms_sorted (a b : Nat) (hs : 1 ≤ s) : (terms a b s).Pairwise (· < ·) := by
  rw [terms, List.pairwise_map]
  apply List.pairwise_lt_range.imp
  intro j k hjk
  exact Nat.add_lt_add_left (Nat.mul_lt_mul_of_pos_right hjk hs) a

end

/-! ## Residues -/

section
variable {m : Nat} (a s : Nat)

/-- No residue is larger. -/
theorem residue_le (hm : 0 < m) (k : Nat) : (a + k * s) % m ≤ m - Nat.gcd s m + a % Nat.gcd s m := by
  have hg : 0 < Nat.gcd s m := Nat.gcd_pos_of_pos_right s hm
  obtain ⟨q, hq⟩ := Nat.gcd_dvd_right s m
  obtain ⟨t, ht⟩ := Nat.gcd_dvd_left s m
  generalize Nat.gcd s m = g at hg hq ht
  subst hq ht
  -- modulo `g` all residues are `a`
  have hmod : (a + k * (g * t)) % (g * q) % g = a % g := by
    rw [Nat.mod_mul_right_mod, show k * (g * t) = g * (k * t) by ring, Nat.add_mul_mod_self_left]
  have hlt : (a + k * (g * t)) % (g * q) < g * q := Nat.mod_lt _ hm
  generalize (a + k * (g * t)) % (g * q) = r at hmod hlt
  have hquot : r / g + 1 ≤ q := Nat.div_lt_of_lt_mul hlt
  have hsplit := Nat.div_add_mod r g
  have hstep : g * (r / g) + g ≤ g * q := by
    calc g * (r / g) + g = g * (r / g + 1) := by ring
      _ ≤ g * q := Nat.mul_le_mul_left g hquot
  omega

/-- A divisor of the modulus reaches the residue from every number. -/
theorem exists_gcd_residue {g : Nat} (hm : 0 < m) (hdvd : g ∣ m) (hg : 0 < g) :
    ∃ v, (a + g * v) % m = m - g + a % g := by
  obtain ⟨q, rfl⟩ := hdvd
  have hq : 1 ≤ q := Nat.pos_of_mul_pos_left hm
  obtain ⟨n, rfl⟩ := Nat.exists_eq_add_of_le' hq
  have hamod := Nat.mod_lt a hg
  have hlast : g * (n + 1) - g = g * n := by
    rw [Nat.mul_succ, Nat.add_sub_cancel]
  refine ⟨n * (a / g + 1), ?_⟩
  have hsum : a + g * (n * (a / g + 1)) = g * n + a % g + g * (n + 1) * (a / g) := by
    calc a + g * (n * (a / g + 1)) = g * (a / g) + a % g + g * (n * (a / g + 1)) := by rw [Nat.div_add_mod]
      _ = g * n + a % g + g * (n + 1) * (a / g) := by ring
  have hlt : g * n + a % g < g * (n + 1) := by
    rw [Nat.mul_succ]
    omega
  rw [hsum, Nat.add_mul_mod_self_left, Nat.mod_eq_of_lt hlt, hlast]

/-- This residue occurs. -/
theorem exists_residue_eq (hm : 0 < m) : ∃ k, (a + k * s) % m = m - Nat.gcd s m + a % Nat.gcd s m := by
  have hg : 0 < Nat.gcd s m := Nat.gcd_pos_of_pos_right s hm
  rcases Nat.lt_or_ge (Nat.gcd s m) m with hlt | hge
  · obtain ⟨u, -, hu⟩ := Nat.exists_mul_mod_eq_gcd hlt
    obtain ⟨v, hv⟩ := exists_gcd_residue a hm (Nat.gcd_dvd_right s m) hg
    refine ⟨u * v, ?_⟩
    -- a multiple of the divisor is one of `s`
    have hstep : Nat.gcd s m * v ≡ u * v * s [MOD m] := by
      calc Nat.gcd s m * v ≡ s * u % m * v [MOD m] := by rw [hu]
        _ ≡ s * u * v [MOD m] := (Nat.mod_modEq _ _).mul_right v
        _ = u * v * s := by ring
    rw [← hv]
    exact hstep.symm.add_left a
  · have heq : Nat.gcd s m = m := Nat.le_antisymm (Nat.gcd_le_right s hm) hge
    refine ⟨0, ?_⟩
    rw [heq]
    simp

/-- **The largest residue** of a progression. -/
theorem exists_residue_gt_iff (hm : 0 < m) (b : Nat) :
    (∃ k, b < (a + k * s) % m) ↔ b < m - Nat.gcd s m + a % Nat.gcd s m := by
  refine ⟨?_, ?_⟩
  · intro h
    obtain ⟨k, hk⟩ := h
    exact Nat.lt_of_lt_of_le hk (residue_le a s hm k)
  · intro h
    obtain ⟨k, hk⟩ := exists_residue_eq a s hm
    exact ⟨k, hk ▸ h⟩

end

end Progression
