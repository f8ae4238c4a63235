import Mathlib.Algebra.Order.Field.Rat
import Mathlib.Algebra.Order.Ring.Abs
import Mathlib.Tactic.FieldSimp
import Mathlib.Tactic.Positivity
import UdpPingPong.Stat.SystemStat

/- The CPU usage between two samples.

   `getUsage` adds up the tick counters as C `int`s, subtracts the sums, and divides
   the differences as `double`s. The callers pass the later sample first.

   1. `ticks_eq`: the sums, where they do not overflow;
   2. `getUsage_eq`: the result, whichever sample comes first;
   3. `usage_right_iff`: the usage is the percentage of the busy ticks exactly when
      the ticks of the later sample are an `int`. -/
namespace UdpPingPong

/-- The result of an `int` operation; it is undefined when it overflows. -/
def asInt (x : Int) : Option Int := if -2 ^ 31 ≤ x ∧ x < 2 ^ 31 then some x else none

theorem asInt_of_range {x : Int} (h : -2 ^ 31 ≤ x) (h' : x < 2 ^ 31) : asInt x = some x := if_pos ⟨h, h'⟩

namespace Cpu

/-- `user+nice+system`. -/
def busy (s : Cpu) : Option Int := do
  let sum ← asInt (s.user.toInt + s.nice.toInt)
  asInt (sum + s.system.toInt)

/-- `user+nice+system+idle`. -/
def ticks (s : Cpu) : Option Int := do
  let sum ← s.busy
  asInt (sum + s.idle.toInt)

/-- `getUsage`: nothing where an `int` overflows or the division is by zero. -/
def getUsage (sample1 sample2 : Cpu) : Option ℚ := do
  let busy ← asInt ((← sample2.busy) - (← sample1.busy))
  let ticks ← asInt ((← sample2.ticks) - (← sample1.ticks))
  if ticks = 0 then none else some |100 * busy / ticks|

/-- The same sums as numbers. -/
def busyTicks (s : Cpu) : Int := s.user.toInt + s.nice.toInt + s.system.toInt

def allTicks (s : Cpu) : Int := s.busyTicks + s.idle.toInt

/-- A later sample `t` of the counters of `s`: they have not become smaller, and one has grown. -/
structure Advances (s t : Cpu) : Prop where
  user : 0 ≤ s.user ∧ s.user ≤ t.user
  nice : 0 ≤ s.nice ∧ s.nice ≤ t.nice
  system : 0 ≤ s.system ∧ s.system ≤ t.system
  idle : 0 ≤ s.idle ∧ s.idle ≤ t.idle
  grown : s.user < t.user ∨ s.nice < t.nice ∨ s.system < t.system ∨ s.idle < t.idle

/-- **The usage between `s` and `t` is right**: it is 100 times the busy ticks over all ticks, a
    percentage, in either order of the samples. -/
def UsageRight (s t : Cpu) : Prop :=
  ∃ usage : ℚ, getUsage t s = some usage ∧ getUsage s t = some usage ∧
    usage = 100 * (t.busyTicks - s.busyTicks) / (t.allTicks - s.allTicks) ∧ 0 ≤ usage ∧ usage ≤ 100

variable {s t : Cpu}

/-- What the counters say as numbers. -/
theorem Advances.toInt (h : Advances s t) :
    (0 ≤ s.user.toInt ∧ s.user.toInt ≤ t.user.toInt) ∧ (0 ≤ s.nice.toInt ∧ s.nice.toInt ≤ t.nice.toInt) ∧
      (0 ≤ s.system.toInt ∧ s.system.toInt ≤ t.system.toInt) ∧
      (0 ≤ s.idle.toInt ∧ s.idle.toInt ≤ t.idle.toInt) ∧ s.allTicks < t.allTicks := by
  obtain ⟨hu, hn, hs, hi, hg⟩ := h
  simp only [Int32.le_iff_toInt_le, Int32.lt_iff_toInt_lt, Int32.toInt_zero] at hu hn hs hi hg
  refine ⟨hu, hn, hs, hi, ?_⟩
  simp only [allTicks, busyTicks]
  omega

/-- A sum of counters that is an `int`. -/
theorem ticks_eq (hu : 0 ≤ s.user.toInt) (hn : 0 ≤ s.nice.toInt) (hs : 0 ≤ s.system.toInt)
    (hi : 0 ≤ s.idle.toInt) (h : s.allTicks < 2 ^ 31) : s.busy = some s.busyTicks ∧ s.ticks = some s.allTicks := by
  simp only [allTicks, busyTicks] at h
  have hbusy : s.busy = some s.busyTicks := by
    rw [busy, asInt_of_range (by omega) (by omega)]
    exact asInt_of_range (by omega) (by omega)
  refine ⟨hbusy, ?_⟩
  rw [ticks, hbusy]
  exact asInt_of_range (by simp only [busyTicks]; omega) h

theorem asInt_eq_some {x y : Int} (h : asInt x = some y) : y = x ∧ x < 2 ^ 31 := by
  unfold asInt at h
  split at h
  · next hx => exact ⟨(Option.some.inj h).symm, hx.2⟩
  · cases h

/-- Sums that do not overflow are `int`s. -/
theorem ticks_lt {x : Int} (h : s.ticks = some x) : s.allTicks < 2 ^ 31 := by
  obtain ⟨busy, hbusy, hx⟩ := Option.bind_eq_some_iff.mp h
  obtain ⟨sum, hsum, hb⟩ := Option.bind_eq_some_iff.mp hbusy
  obtain ⟨rfl, -⟩ := asInt_eq_some hsum
  obtain ⟨rfl, -⟩ := asInt_eq_some hb
  exact (asInt_eq_some hx).2

/-- A result comes from sums that do not overflow. -/
theorem ticks_of_getUsage {usage : ℚ} (h : getUsage t s = some usage) : t.allTicks < 2 ^ 31 := by
  simp only [getUsage, bind, Option.bind_eq_some_iff] at h
  obtain ⟨-, -, -, -, -, -, -, -, x, ht, -⟩ := h
  exact ticks_lt ht

/-- The result between two samples whose sums are `int`s. -/
theorem getUsage_eq {b b' n n' : Int} (hs : s.busy = some b ∧ s.ticks = some n) (ht : t.busy = some b' ∧ t.ticks = some n')
    (hb : 0 ≤ b ∧ b < 2 ^ 31) (hb' : 0 ≤ b' ∧ b' < 2 ^ 31) (hn : 0 ≤ n ∧ n < 2 ^ 31) (hn' : 0 ≤ n' ∧ n' < 2 ^ 31)
    (hne : n ≠ n') : getUsage s t = some |100 * ((b' : ℚ) - b) / (n' - n)| := by
  have hbusy : asInt (b' - b) = some (b' - b) := asInt_of_range (by omega) (by omega)
  have hticks : asInt (n' - n) = some (n' - n) := asInt_of_range (by omega) (by omega)
  simp only [getUsage, hs, ht, hbusy, hticks, bind, Option.bind_some]
  rw [if_neg (by omega)]
  push_cast
  rfl

/-- **When the usage is right**: the ticks of the later sample, all together, are an `int`. -/
theorem usage_right_iff (h : Advances s t) : UsageRight s t ↔ t.allTicks < 2 ^ 31 := by
  obtain ⟨hu, hn, hsys, hi, hlt⟩ := h.toInt
  refine ⟨?_, ?_⟩
  · intro hright
    obtain ⟨usage, husage, -⟩ := hright
    exact ticks_of_getUsage husage
  · intro hint
    have hs := ticks_eq hu.1 hn.1 hsys.1 hi.1 (by omega)
    have ht := ticks_eq (by omega) (by omega) (by omega) (by omega) hint
    have hbusy : 0 ≤ s.busyTicks ∧ s.busyTicks ≤ t.busyTicks ∧ t.busyTicks ≤ t.allTicks ∧ s.busyTicks ≤ s.allTicks ∧
        t.busyTicks - s.busyTicks ≤ t.allTicks - s.allTicks := by
      simp only [allTicks, busyTicks]
      omega
    have hst := getUsage_eq hs ht ⟨by omega, by omega⟩ ⟨by omega, by omega⟩ ⟨by omega, by omega⟩
      ⟨by omega, by omega⟩ (by omega)
    have hts := getUsage_eq ht hs ⟨by omega, by omega⟩ ⟨by omega, by omega⟩ ⟨by omega, by omega⟩
      ⟨by omega, by omega⟩ (by omega)
    have hpos : (0 : ℚ) < t.allTicks - s.allTicks := by exact_mod_cast sub_pos.mpr hlt
    have hb0 : (0 : ℚ) ≤ t.busyTicks - s.busyTicks := by exact_mod_cast sub_nonneg.mpr hbusy.2.1
    have hle : (t.busyTicks : ℚ) - s.busyTicks ≤ t.allTicks - s.allTicks := by exact_mod_cast hbusy.2.2.2.2
    have hnonneg : (0 : ℚ) ≤ 100 * (t.busyTicks - s.busyTicks) / (t.allTicks - s.allTicks) := by positivity
    -- the other order of the samples negates both differences
    have hswap : (100 : ℚ) * (s.busyTicks - t.busyTicks) / (s.allTicks - t.allTicks) =
        100 * (t.busyTicks - s.busyTicks) / (t.allTicks - s.allTicks) := by
      rw [← neg_sub (t.busyTicks : ℚ), ← neg_sub (t.allTicks : ℚ), mul_neg, neg_div_neg_eq]
    refine ⟨100 * (t.busyTicks - s.busyTicks) / (t.allTicks - s.allTicks), ?_, ?_, rfl, hnonneg, ?_⟩
    · rw [hts, hswap, abs_of_nonneg hnonneg]
    · rw [hst, abs_of_nonneg hnonneg]
    · rw [div_le_iff₀ hpos]
      linarith

/-- A machine that was busy for one of three ticks. -/
theorem usage_right_iff_one_of_three : UsageRight { user := 1 } { user := 2, idle := 2 } ↔
    allTicks { user := 2, idle := 2 } < 2 ^ 31 :=
  usage_right_iff ⟨by decide, by decide, by decide, by decide, by decide⟩

/-- After so many ticks of work and of idling the sum is no `int`. -/
theorem many_ticks_overflow : Advances {} { user := 1500000000, idle := 1500000000 } ∧
    getUsage { user := 1500000000, idle := 1500000000 } {} = none ∧
    ¬ UsageRight {} { user := 1500000000, idle := 1500000000 } := by
  have hnone : getUsage { user := 1500000000, idle := 1500000000 } {} = none := by decide +kernel
  refine ⟨⟨by decide, by decide, by decide, by decide, by decide⟩, hnone, ?_⟩
  intro h
  obtain ⟨usage, husage, -⟩ := h
  rw [hnone] at husage
  cases husage

end Cpu
end UdpPingPong
