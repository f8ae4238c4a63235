import Mathlib.Algebra.Order.Field.Rat
import Mathlib.Order.Monotone.Basic
import Mathlib.Tactic.Common
import Mathlib.Tactic.Ring
import Mathlib.Tactic.Positivity

/- The number a `double` stands for, read off its 64 bits.

   A sign bit, 11 bits of exponent and 52 bits of fraction. All finite numbers are
   multiples of 2^-1074; `units` counts these.

   1. `value`: the number of a bit pattern; infinities and NaNs have none;
   2. `units_strictMono`: without its sign a larger pattern is a larger number;
   3. `Reads.lt`: the same for whatever reads finite patterns as their numbers. -/
namespace Double

/-- The multiple of 2^-1074 that a pattern without its sign bit stands for. -/
def units (n : Nat) : Nat :=
  if n / 2 ^ 52 = 0 then n % 2 ^ 52 else (2 ^ 52 + n % 2 ^ 52) * 2 ^ (n / 2 ^ 52 - 1)

/-- The number of a pattern, unless all bits of its exponent are set. -/
def value (w : UInt64) : Option ℚ :=
  let n := w.toNat % 2 ^ 63
  if n / 2 ^ 52 = 2047 then none
  else some ((if w.toNat < 2 ^ 63 then 1 else -1) * units n / 2 ^ 1074)

/-- A function that gives every finite pattern its number, and the others any. -/
def Reads (read : UInt64 → ℚ) : Prop := ∀ w x, value w = some x → read w = x

/-- The next pattern: the fraction grows by one, or it starts again with the next exponent. -/
theorem units_lt_succ (n : Nat) : units n < units (n + 1) := by
  have hsplit := Nat.div_add_mod n (2 ^ 52)
  have hfrac := Nat.mod_lt n (show 0 < 2 ^ 52 by decide)
  generalize he : n / 2 ^ 52 = e at hsplit
  generalize hf : n % 2 ^ 52 = f at hsplit hfrac
  by_cases hlast : f + 1 = 2 ^ 52
  · have he' : (n + 1) / 2 ^ 52 = e + 1 := by omega
    have hf' : (n + 1) % 2 ^ 52 = 0 := by omega
    rw [units, units, he, hf, he', hf', if_neg (Nat.succ_ne_zero e), Nat.add_zero, Nat.add_sub_cancel]
    cases e with
    | zero => simpa using hfrac
    | succ e =>
      rw [if_neg (Nat.succ_ne_zero e), Nat.add_sub_cancel]
      calc (2 ^ 52 + f) * 2 ^ e < 2 ^ 52 * 2 * 2 ^ e :=
            Nat.mul_lt_mul_of_pos_right (by omega) (Nat.two_pow_pos e)
        _ = 2 ^ 52 * 2 ^ (e + 1) := by ring
  · have he' : (n + 1) / 2 ^ 52 = e := by omega
    have hf' : (n + 1) % 2 ^ 52 = f + 1 := by omega
    rw [units, units, he, hf, he', hf']
    split
    · exact Nat.lt_succ_self f
    · exact Nat.mul_lt_mul_of_pos_right (by omega) (Nat.two_pow_pos _)

theorem units_strictMono : StrictMono units := strictMono_nat_of_lt_succ units_lt_succ

/-- A finite pattern without a sign bit. -/
theorem value_of_lt {w : UInt64} (h : w.toNat < 2047 * 2 ^ 52) : value w = some ((units w.toNat : ℚ) / 2 ^ 1074) := by
  have hmod : w.toNat % 2 ^ 63 = w.toNat := Nat.mod_eq_of_lt (by omega)
  simp only [value, hmod]
  rw [if_neg (by omega), if_pos (by omega), one_mul]

/-- **Larger patterns are larger numbers**, where they are finite and have no sign bit. -/
theorem Reads.lt {read : UInt64 → ℚ} (hread : Reads read) {w x : UInt64} (hwx : w.toNat < x.toNat)
    (hx : x.toNat < 2047 * 2 ^ 52) : read w < read x := by
  rw [hread w _ (value_of_lt (by omega)), hread x _ (value_of_lt hx)]
  have hunits : (units w.toNat : ℚ) < units x.toNat := Nat.cast_lt.mpr (units_strictMono hwx)
  exact div_lt_div_of_pos_right hunits (by positivity)

end Double
