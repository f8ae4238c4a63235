import UdpPingPong.Lib.Decimal

/- Sums of floating point numbers.

   An operation gives the exact result, rounded to a number of the format. `round` is that
   rounding; where it is the identity the operations are exact.

   1. `sum`: the members of a list are added up from the front, starting at 0;
   2. `InAnyOrder`: what a list gives does not depend on its order;
   3. `sum_eq_of_exact`, `sum_inAnyOrder`: where the sums of members are numbers of the
      format nothing is rounded, and the order does not matter;
   4. `nearestDouble`: the rounding of `double`. -/
namespace Rounding

/-- The value of `f` is the same for every order of the list `l`. -/
def InAnyOrder {α β : Type} (f : List α → β) (l : List α) : Prop := ∀ l' : List α, l'.Perm l → f l' = f l

section
variable {K : Type} [AddCommMonoid K] {round : K → K} {xs : List K}

/-- `s += x` for every `x` of a list, from `s = 0`. -/
def sum (round : K → K) (xs : List K) : K := xs.foldl (fun s x => round (s + x)) 0

theorem sum_snoc (xs : List K) (x : K) : sum round (xs ++ [x]) = round (sum round xs + x) := by
  rw [sum, List.foldl_append]
  rfl

/-- Where no sum of members is rounded the result is exact. -/
theorem sum_eq_of_exact (h : ∀ ys : List K, ys.Subperm xs → round ys.sum = ys.sum) : sum round xs = xs.sum := by
  induction xs using List.reverseRecOn with
  | nil => rfl
  | append_singleton xs x ih =>
    have hfront : ∀ ys : List K, ys.Subperm xs → round ys.sum = ys.sum :=
      fun ys hys => h ys (hys.trans (List.sublist_append_left xs [x]).subperm)
    have hall := h (xs ++ [x]) (List.Subperm.refl _)
    rw [sum_snoc, ih hfront]
    simpa using hall

/-- Then the order of the members does not matter. -/
theorem sum_inAnyOrder (h : ∀ ys : List K, ys.Subperm xs → round ys.sum = ys.sum) : InAnyOrder (sum round) xs := by
  intro xs' hp
  rw [sum_eq_of_exact h, sum_eq_of_exact fun ys hys => h ys (hys.trans hp.subperm), hp.sum_eq]

end

/-- The distance of the doubles around a number: 53 bits are kept, down to 2^-1074. -/
def spacing (x : ℚ) : ℚ := 2 ^ max (Int.log 2 |x| - 52) (-1074)

/-- The nearest `double`, a tie going to the even one; the largest exponent is left out. -/
def nearestDouble (x : ℚ) : ℚ := Decimal.roundHalfEven (x / spacing x) * spacing x

end Rounding
