import UdpPingPong.Lib.Running
import UdpPingPong.Stat.NetDev

/- The differences between two samples of the network counters.

   The counters of the kernel are 64-bit words that wrap around. `getDelta` subtracts
   them, with arithmetic of its own for a counter that has become smaller.

   1. `deltaWithOverflow_eq_iff`: it finds the increment of one counter exactly when
      the counter does not wrap; else it is one short (`deltaWithOverflow_wrapped`);
   2. `sampleAt`: the samples of counters that are incremented again and again;
   3. `deltas_tell_iff`: the differences are the increments exactly when no counter
      wraps from the first sample to the last. -/
namespace UdpPingPong

open Running

/-- `delta_with_overflow`; the constant is `ULONG_MAX`. -/
def deltaWithOverflow (sample1 sample2 : UInt64) : UInt64 :=
  if sample1 ≤ sample2 then sample2 - sample1 else 0xFFFFFFFFFFFFFFFF - sample1 + sample2

namespace Network

def getDelta (sample1 sample2 : Network) : Network :=
  { bytes := deltaWithOverflow sample1.bytes sample2.bytes
    packets := deltaWithOverflow sample1.packets sample2.packets
    errs := deltaWithOverflow sample1.errs sample2.errs
    drop := deltaWithOverflow sample1.drop sample2.drop }

/-- The four counters. -/
def fields : List (Network → UInt64) := [bytes, packets, errs, drop]

end Network

/-! ## One counter -/

section
variable (a d : UInt64)

/-- The counter does not wrap. -/
theorem le_add_iff : a ≤ a + d ↔ a.toNat + d.toNat < 2 ^ 64 := by
  have ha := a.toNat_lt
  have hd := d.toNat_lt
  rw [UInt64.le_iff_toNat_le, UInt64.toNat_add]
  omega

/-- A counter that wraps is told one short. -/
theorem deltaWithOverflow_wrapped (h : ¬ a ≤ a + d) : deltaWithOverflow a (a + d) = d - 1 := by
  rw [deltaWithOverflow, if_neg h]
  grind

theorem deltaWithOverflow_eq_iff : deltaWithOverflow a (a + d) = d ↔ a.toNat + d.toNat < 2 ^ 64 := by
  rw [← le_add_iff]
  refine ⟨?_, ?_⟩
  · intro h
    by_contra hwrap
    rw [deltaWithOverflow_wrapped a d hwrap] at h
    grind
  · intro h
    rw [deltaWithOverflow, if_pos h]
    grind

end

/-- **One counter over all its samples.** -/
theorem steps_delta_iff (start : UInt64) (incs : List UInt64) :
    steps deltaWithOverflow start incs = incs ↔ start.toNat + (incs.map UInt64.toNat).sum < 2 ^ 64 := by
  induction incs generalizing start with
  | nil => simpa [steps] using start.toNat_lt
  | cons d incs ih =>
    rw [steps_cons, List.cons.injEq, deltaWithOverflow_eq_iff, ih, UInt64.toNat_add, List.map_cons, List.sum_cons]
    refine ⟨?_, ?_⟩
    · intro h
      obtain ⟨hd, hrest⟩ := h
      rw [Nat.mod_eq_of_lt hd] at hrest
      omega
    · intro h
      have hd : start.toNat + d.toNat < 2 ^ 64 := by omega
      rw [Nat.mod_eq_of_lt hd]
      exact ⟨hd, by omega⟩

/-- Without a wrap the counter is the sum of numbers. -/
theorem running_toNat {start : UInt64} {incs : List UInt64}
    (h : start.toNat + (incs.map UInt64.toNat).sum < 2 ^ 64) (n : Nat) :
    (running start incs n).toNat = start.toNat + ((incs.take n).map UInt64.toNat).sum := by
  induction incs generalizing start n with
  | nil => simp [running]
  | cons d incs ih =>
    cases n with
    | zero => simp
    | succ n =>
      rw [List.map_cons, List.sum_cons] at h
      have hd : (start + d).toNat = start.toNat + d.toNat := by
        rw [UInt64.toNat_add]
        omega
      calc (running start (d :: incs) (n + 1)).toNat
          = (start + d).toNat + ((incs.take n).map UInt64.toNat).sum := by rw [running_cons_succ, ih (by omega)]
        _ = start.toNat + (d.toNat + ((incs.take n).map UInt64.toNat).sum) := by rw [hd, Nat.add_assoc]
        _ = start.toNat + (((d :: incs).take (n + 1)).map UInt64.toNat).sum := by
            rw [List.take_succ_cons, List.map_cons, List.sum_cons]

/-- From the smallest of three samples to the largest. -/
theorem deltaWithOverflow_add {a b c : UInt64} (hab : a ≤ b) (hbc : b ≤ c) :
    deltaWithOverflow a b + deltaWithOverflow b c = deltaWithOverflow a c := by
  rw [deltaWithOverflow, if_pos hab, deltaWithOverflow, if_pos hbc, deltaWithOverflow,
    if_pos (UInt64.le_trans hab hbc)]
  grind

/-! ## All counters -/

/-- The sample after `n` increments. -/
def sampleAt (start : Network) (incs : List Network) (n : Nat) : Network := (incs.take n).foldl Network.add start

/-- The difference of every sample and the next one. -/
def deltas (start : Network) (incs : List Network) : List Network :=
  (List.range incs.length).map fun n => (sampleAt start incs n).getDelta (sampleAt start incs (n + 1))

/-- **The differences tell the increments** of the counters `start`, in arithmetic modulo 2^64. -/
structure DeltasTell (start : Network) (incs : List Network) : Prop where
  step : deltas start incs = incs
  /-- Over some samples in a row they sum up to the increments. -/
  total : ∀ c ∈ Network.fields, ∀ i m,
    ((((deltas start incs).drop i).take m).map c).sum = (((incs.drop i).take m).map c).sum
  /-- Two differences make up the one over both. -/
  chain : ∀ c ∈ Network.fields, ∀ i j k, i ≤ j → j ≤ k →
    c ((sampleAt start incs i).getDelta (sampleAt start incs j)) +
        c ((sampleAt start incs j).getDelta (sampleAt start incs k)) =
      c ((sampleAt start incs i).getDelta (sampleAt start incs k))

/-- No counter wraps between the first sample and the last. -/
def NoWrap (start : Network) (incs : List Network) : Prop :=
  ∀ c ∈ Network.fields, (c start).toNat + (incs.map fun d => (c d).toNat).sum < 2 ^ 64

instance (start : Network) (incs : List Network) : Decidable (NoWrap start incs) :=
  inferInstanceAs (Decidable (∀ c ∈ Network.fields, _))

theorem Network.ext_fields {n k : Network} : n = k ↔ ∀ c ∈ Network.fields, c n = c k := by
  cases n
  cases k
  simp [Network.fields]

section
variable {c : Network → UInt64} (hc : c ∈ Network.fields)
include hc

theorem field_add (n k : Network) : c (n.add k) = c n + c k := by
  simp only [Network.fields, List.mem_cons, List.not_mem_nil, or_false] at hc
  rcases hc with rfl | rfl | rfl | rfl
  all_goals rfl

theorem field_getDelta (n k : Network) : c (n.getDelta k) = deltaWithOverflow (c n) (c k) := by
  simp only [Network.fields, List.mem_cons, List.not_mem_nil, or_false] at hc
  rcases hc with rfl | rfl | rfl | rfl
  all_goals rfl

theorem field_sampleAt (start : Network) (incs : List Network) (n : Nat) :
    c (sampleAt start incs n) = running (c start) (incs.map c) n :=
  running_fold (field_add hc) start incs n

theorem field_deltas (start : Network) (incs : List Network) :
    (deltas start incs).map c = steps deltaWithOverflow (c start) (incs.map c) := by
  rw [deltas, steps, List.map_map, List.length_map]
  apply List.map_congr_left
  intro n _
  simp only [Function.comp, field_getDelta hc, field_sampleAt hc]

end

/-- Two sequences of samples are the same if they are in each counter. -/
theorem networks_eq_iff {l l' : List Network} : l = l' ↔ ∀ c ∈ Network.fields, l.map c = l'.map c := by
  refine ⟨?_, ?_⟩
  · intro h c _
    rw [h]
  · intro h
    have hlen : l.length = l'.length := by
      simpa using congrArg List.length (h Network.bytes List.mem_cons_self)
    apply List.ext_getElem hlen
    intro n hn hn'
    apply Network.ext_fields.mpr
    intro c hc
    have hget := List.getElem_of_eq (h c hc) (by simpa using hn)
    rwa [List.getElem_map, List.getElem_map] at hget

theorem deltas_eq_iff (start : Network) (incs : List Network) : deltas start incs = incs ↔ NoWrap start incs := by
  rw [networks_eq_iff]
  apply forall₂_congr
  intro c hc
  rw [field_deltas hc, steps_delta_iff, List.map_map]
  rfl

/-- Without a wrap no sample is smaller than an earlier one. -/
theorem sampleAt_le {start : Network} {incs : List Network} (h : NoWrap start incs) {c : Network → UInt64}
    (hc : c ∈ Network.fields) {i j : Nat} (hij : i ≤ j) : c (sampleAt start incs i) ≤ c (sampleAt start incs j) := by
  have hsum := h c hc
  rw [← Function.comp_def, ← List.map_map] at hsum
  rw [field_sampleAt hc, field_sampleAt hc, UInt64.le_iff_toNat_le, running_toNat hsum, running_toNat hsum]
  apply Nat.add_le_add_left
  exact ((List.take_sublist_take_left hij).map _).sum_le_sum (fun _ _ => Nat.zero_le _)

/-- **When the differences tell the increments**: no counter wraps between the first sample and the last. -/
theorem deltas_tell_iff (start : Network) (incs : List Network) : DeltasTell start incs ↔ NoWrap start incs := by
  refine ⟨?_, ?_⟩
  · intro h
    exact (deltas_eq_iff start incs).mp h.step
  · intro h
    have hstep := (deltas_eq_iff start incs).mpr h
    refine ⟨hstep, ?_, ?_⟩
    · intro c _ i m
      rw [hstep]
    · intro c hc i j k hij hjk
      rw [field_getDelta hc, field_getDelta hc, field_getDelta hc]
      exact deltaWithOverflow_add (sampleAt_le h hc hij) (sampleAt_le h hc hjk)

/-- A byte counter at its largest value. -/
def fullBytes : Network := { bytes := 0xFFFFFFFFFFFFFFFF }

/-- One more byte, and the difference is 0. -/
theorem wrapped_delta_short : (fullBytes.getDelta (sampleAt fullBytes [{ bytes := 1 }] 1)).bytes = 0 ∧
    ¬ DeltasTell fullBytes [{ bytes := 1 }] := by
  refine ⟨by decide, ?_⟩
  intro h
  exact absurd h.step (by decide)

end UdpPingPong
