import Mathlib.Algebra.BigOperators.Intervals
import Mathlib.Algebra.Order.Group.Unbundled.Int
import Mathlib.Algebra.Order.Ring.Int
import Mathlib.Data.Rat.Floor
import Mathlib.Tactic.Linarith
import Mathlib.Tactic.Ring

/- Greedy division: an amount `q` is dealt to `n` takers one after the other,
   each getting what is left divided by the number of takers left.

   1. `deal q n`: the shares, by truncating division, in the order they are dealt;
   2. `share` and `dealt`: the closed form for `q ≥ 0`. The first `n - q % n`
      takers get `q / n`, the last `q % n` get one more (`deal_eq_share`), so the
      remainder of the division ends up with the takers served last;
   3. `deal_sum`, `deal_fair` and `deal_sign`: for `q` of either sign the shares make
      up `q`, differ by one at most and do not turn against its sign;
   4. `dealt_gap`: how far the first `k` takers are behind the proportional
      `k * q / n`, and `even_iff`: when they are never a whole unit behind. -/
namespace Greedy

/-- What `n` takers get of `q`, in the order they are served. -/
def deal : Int → Nat → List Int
  | _, 0 => []
  | q, n + 1 => q.tdiv (n + 1) :: deal (q - q.tdiv (n + 1)) n

/-- What taker number `k` (from 0) of `n` gets of `q`. -/
def share (q n k : Int) : Int := q / n + if n - q % n ≤ k then 1 else 0

/-- What the first `k` of `n` takers get of `q` together. -/
def dealt (q n k : Int) : Int := k * (q / n) + max 0 (k - (n - q % n))

section
variable {q n k : Int}

theorem deal_length : ∀ (q : Int) (n : Nat), (deal q n).length = n
  | _, 0 => rfl
  | q, n + 1 => by rw [deal, List.length_cons, deal_length]

@[simp] theorem dealt_zero (hn : 0 < n) : dealt q n 0 = 0 := by
  have hb := Int.emod_lt_of_pos q hn
  simp only [dealt, Int.zero_mul, Int.zero_add]
  omega

@[simp] theorem dealt_self (hn : 0 < n) : dealt q n n = q := by
  have hb := Int.emod_nonneg q (Int.ne_of_gt hn)
  have hq := Int.mul_ediv_add_emod q n
  simp only [dealt]
  omega

theorem dealt_succ (q n k : Int) : dealt q n (k + 1) = dealt q n k + share q n k := by
  simp only [dealt, share, Int.add_mul, Int.one_mul]
  split <;> omega

theorem sum_share (q : Int) {n : Int} (hn : 0 < n) : ∀ k : Nat,
    ∑ i ∈ Finset.range k, share q n i = dealt q n k
  | 0 => by simp [hn]
  | k + 1 => by rw [Finset.sum_range_succ, sum_share q hn k, Nat.cast_add, Nat.cast_one, dealt_succ]

theorem share_lower (q n k : Int) : q / n ≤ share q n k := by
  simp only [share]
  split <;> omega

theorem share_upper (q n k : Int) : share q n k ≤ q / n + 1 := by
  simp only [share]
  split <;> omega

/-- Takers served later do not get less. -/
theorem share_mono (q n : Int) {k l : Int} (hkl : k ≤ l) : share q n k ≤ share q n l := by
  simp only [share]
  split <;> split <;> omega

theorem share_nonneg (hq : 0 ≤ q) (hn : 0 < n) (k : Int) : 0 ≤ share q n k :=
  Int.le_trans (Int.ediv_nonneg hq (Int.le_of_lt hn)) (share_lower q n k)

/-- More takers do not get less together. -/
theorem dealt_mono (hq : 0 ≤ q) (hn : 0 < n) {k l : Int} (hkl : k ≤ l) : dealt q n k ≤ dealt q n l := by
  induction l, hkl using Int.leInduction with
  | base => exact Int.le_refl _
  | succ l hkl ih =>
    rw [dealt_succ]
    exact Int.le_trans ih (Int.le_add_of_nonneg_right (share_nonneg hq hn l))

/-- A share is the quotient, rounded down or up. -/
theorem share_floor_or_ceil (q : Int) (hn : 0 < n) (hk : k < n) :
    share q n k = ⌊(q / n : ℚ)⌋ ∨ share q n k = ⌈(q / n : ℚ)⌉ := by
  obtain ⟨m, rfl⟩ := Int.eq_ofNat_of_zero_le (Int.le_of_lt hn)
  have hb := Int.emod_nonneg q (Int.ne_of_gt hn)
  rw [Int.cast_natCast, Rat.floor_intCast_div_natCast, Rat.ceil_intCast_div_natCast]
  simp only [share]
  split
  · -- a taker of the remainder: there is one, so rounding up adds one
    have hdvd : ¬ (m : Int) ∣ q := by
      rw [Int.dvd_iff_emod_eq_zero]
      omega
    right
    rw [Int.neg_ediv, if_neg hdvd, Int.sign_eq_one_of_pos hn]
    omega
  · left
    omega

/-- With a unit for every taker no share is empty. -/
theorem share_pos (hn : 0 < n) (hq : n ≤ q) (k : Int) : 0 < share q n k := by
  have hdiv : 1 ≤ q / n := by
    rw [Int.le_ediv_iff_mul_le hn]
    omega
  exact Int.lt_of_lt_of_le hdiv (share_lower q n k)

/-- The taker served first gets the rounded-down share. -/
theorem share_first (q : Int) (hn : 0 < n) : share q n 0 = q / n := by
  have hb := Int.emod_lt_of_pos q hn
  simp only [share]
  split <;> omega

/-- What is left after `k` takers, in closed form: before the remainder is reached,
    and from there on. -/
theorem left_eq (q : Int) (hn : 0 < n) (k : Int) :
    q - dealt q n k = if n - q % n ≤ k then (n - k) * (q / n + 1) else (n - k) * (q / n) + q % n := by
  have hq := Int.mul_ediv_add_emod q n
  have hb := Int.emod_nonneg q (Int.ne_of_gt hn)
  simp only [dealt]
  split
  · next h =>
    rw [max_eq_right (by omega)]
    linarith
  · next h =>
    rw [max_eq_left (by omega)]
    linarith

theorem left_nonneg (hq : 0 ≤ q) (hn : 0 < n) (hk : k ≤ n) : 0 ≤ q - dealt q n k := by
  have ha : 0 ≤ q / n := Int.ediv_nonneg hq (Int.le_of_lt hn)
  have hb := Int.emod_nonneg q (Int.ne_of_gt hn)
  rw [left_eq q hn k]
  split
  · exact Int.mul_nonneg (by omega) (by omega)
  · exact Int.add_nonneg (Int.mul_nonneg (by omega) ha) hb

/-- **The greedy step**: what is left, divided by the takers left, is the next share. -/
theorem tdiv_left (hq : 0 ≤ q) (hk : 0 ≤ k) (hkn : k < n) :
    (q - dealt q n k).tdiv (n - k) = share q n k := by
  have hn : 0 < n := by omega
  have hb := Int.emod_nonneg q (Int.ne_of_gt hn)
  have hpos : n - k ≠ 0 := by omega
  rw [Int.tdiv_eq_ediv_of_nonneg (left_nonneg hq hn (by omega)), left_eq q hn k, share]
  split
  · rw [Int.mul_ediv_cancel_left _ hpos]
  · next h =>
    rw [Int.add_comm, Int.add_mul_ediv_left _ _ hpos,
      Int.ediv_eq_zero_of_lt hb (by omega), Int.zero_add, Int.add_zero]

/-- Dealing on from the `k`-th taker deals the remaining shares. -/
theorem deal_left (hq : 0 ≤ q) (n : Nat) : ∀ (m k : Nat), k + m = n →
    deal (q - dealt q n k) m = (List.range m).map (fun i : Nat => share q n (k + i))
  | 0, _, _ => rfl
  | m + 1, k, h => by
    have hm : ((m : Int) + 1) = n - k := by omega
    have hstep := tdiv_left hq (Int.natCast_nonneg k) (show (k : Int) < n by omega)
    have hrest : q - dealt q n k - share q n k = q - dealt q n (k + 1 : Nat) := by
      rw [Nat.cast_add, Nat.cast_one, dealt_succ]
      omega
    rw [deal, hm, hstep, hrest, deal_left hq n m (k + 1) (by omega), List.range_succ_eq_map]
    simp only [List.map_cons, List.map_map, Nat.cast_zero, Int.add_zero, List.cons.injEq, true_and]
    apply List.map_congr_left
    intro i _
    simp only [Function.comp, Nat.cast_add, Nat.cast_one, Nat.succ_eq_add_one]
    congr 1
    omega

/-- **Where the remainder goes**: the shares in closed form. -/
theorem deal_eq_share (hq : 0 ≤ q) (n : Nat) : deal q n = (List.range n).map (fun i : Nat => share q n i) := by
  cases n with
  | zero => rfl
  | succ n =>
    have h := deal_left hq (n + 1) (n + 1) 0 (by omega)
    have hz : dealt q ((n + 1 : Nat) : Int) 0 = 0 := dealt_zero (by omega)
    simpa [hz] using h

/-! ## Fair shares -/

theorem deal_sum : ∀ (q : Int) {n : Nat}, 0 < n → (deal q n).sum = q
  | q, 1, _ => by simp [deal]
  | q, n + 2, _ => by
    rw [deal, List.sum_cons, deal_sum _ (Nat.succ_pos n)]
    omega

/-- A negative amount is dealt as its opposite is. -/
theorem deal_neg : ∀ (q : Int) (n : Nat), deal (-q) n = (deal q n).map Neg.neg
  | _, 0 => rfl
  | q, n + 1 => by
    have hrest : -q - -q.tdiv (n + 1) = -(q - q.tdiv (n + 1)) := by omega
    rw [deal, Int.neg_tdiv, hrest, deal_neg, deal, List.map_cons]

theorem mem_deal (hq : 0 ≤ q) {n : Nat} {x : Int} (h : x ∈ deal q n) : q / n ≤ x ∧ x ≤ q / n + 1 := by
  rw [deal_eq_share hq] at h
  obtain ⟨i, -, rfl⟩ := List.mem_map.mp h
  exact ⟨share_lower q n i, share_upper q n i⟩

/-- **Fairness**: any two shares differ by one at most. -/
theorem deal_fair (q : Int) {n : Nat} {x y : Int} (hx : x ∈ deal q n) (hy : y ∈ deal q n) : |x - y| ≤ 1 := by
  rcases Int.le_total 0 q with hq | hq
  · have hx' := mem_deal hq hx
    have hy' := mem_deal hq hy
    exact abs_le.mpr ⟨by omega, by omega⟩
  · rw [← Int.neg_neg q, deal_neg] at hx hy
    obtain ⟨x', hmx, rfl⟩ := List.mem_map.mp hx
    obtain ⟨y', hmy, rfl⟩ := List.mem_map.mp hy
    have hx' := mem_deal (Int.neg_nonneg_of_nonpos hq) hmx
    have hy' := mem_deal (Int.neg_nonneg_of_nonpos hq) hmy
    exact abs_le.mpr ⟨by omega, by omega⟩

/-- No share has the sign opposite to the amount. -/
theorem deal_sign (q : Int) {n : Nat} {x : Int} (h : x ∈ deal q n) : (0 ≤ q → 0 ≤ x) ∧ (q ≤ 0 → x ≤ 0) := by
  have hpos : ∀ {q x : Int}, 0 ≤ q → x ∈ deal q n → 0 ≤ x := by
    intro q x hq hx
    exact Int.le_trans (Int.ediv_nonneg hq (Int.natCast_nonneg n)) (mem_deal hq hx).1
  refine ⟨fun hq => hpos hq h, fun hq => ?_⟩
  rw [← Int.neg_neg q, deal_neg] at h
  obtain ⟨y, hmy, rfl⟩ := List.mem_map.mp h
  exact Int.neg_nonpos_of_nonneg (hpos (Int.neg_nonneg_of_nonpos hq) hmy)

/-! ## Against the proportional share -/

/-- How far the first `k` takers are behind `k * q / n`, in units of `1 / n`. -/
theorem dealt_gap (q : Int) (hn : 0 < n) (k : Int) :
    k * q - dealt q n k * n = if n - q % n ≤ k then (n - q % n) * (n - k) else k * (q % n) := by
  have hq : q = n * (q / n) + q % n := (Int.mul_ediv_add_emod q n).symm
  have hleft := left_eq q hn k
  have hdealt : dealt q n k = q - (q - dealt q n k) := by omega
  rw [hdealt, hleft]
  generalize q / n = a at hq ⊢
  generalize q % n = b at hq ⊢
  subst hq
  split <;> ring

/-- The first takers are never ahead of their proportional share. -/
theorem dealt_behind (q : Int) (hn : 0 < n) (h0 : 0 ≤ k) (hk : k ≤ n) : dealt q n k * n ≤ k * q := by
  have hb := Int.emod_nonneg q (Int.ne_of_gt hn)
  have hb' := Int.emod_lt_of_pos q hn
  have hgap := dealt_gap q hn k
  have hpos : 0 ≤ k * q - dealt q n k * n := by
    rw [hgap]
    split
    · exact Int.mul_nonneg (by omega) (by omega)
    · exact Int.mul_nonneg h0 hb
  omega

/-- **When greedy dealing is even**: the first `k` takers are always less than one
    unit behind exactly when the division leaves `0`, `1` or `n - 1`. -/
theorem even_iff (q : Int) (hn : 0 < n) :
    (∀ k, 0 ≤ k → k ≤ n → |dealt q n k * n - k * q| < n) ↔
      q % n = 0 ∨ q % n = 1 ∨ q % n = n - 1 := by
  have hb := Int.emod_nonneg q (Int.ne_of_gt hn)
  have hb' := Int.emod_lt_of_pos q hn
  have habs : ∀ k, 0 ≤ k → k ≤ n →
      |dealt q n k * n - k * q| = k * q - dealt q n k * n := by
    intro k h0 hk
    have hle := dealt_behind q hn h0 hk
    rw [abs_of_nonpos (by omega)]
    omega
  refine ⟨?_, ?_⟩
  · intro h
    -- The gap is largest where the remainder starts to be handed out.
    have hmax := h (n - q % n) (by omega) (by omega)
    rw [habs _ (by omega) (by omega), dealt_gap q hn _, if_pos (le_refl _)] at hmax
    by_contra hne
    have h2 : 2 ≤ q % n := by omega
    have h3 : q % n ≤ n - 2 := by omega
    have hprod : 0 ≤ (q % n - 2) * (n - 2 - q % n) := Int.mul_nonneg (by omega) (by omega)
    nlinarith
  · intro h k h0 hk
    rw [habs k h0 hk, dealt_gap q hn k]
    rcases h with h | h | h
    · rw [h]
      split
      · simp_all; omega
      · simp_all
    · rw [h]
      split
      · have : n - k ≤ 1 := by omega
        nlinarith
      · omega
    · rw [h]
      split
      · nlinarith
      · have : k = 0 := by omega
        simp [this]
        omega

end

end Greedy
