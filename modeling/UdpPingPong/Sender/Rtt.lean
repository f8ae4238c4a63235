import UdpPingPong.Lib.Rounding
import UdpPingPong.Lib.Sentinel
import UdpPingPong.Sender.System
import Mathlib.Tactic.NormNum

/- Round trip times: what a receiver makes of its samples, and `getResults` of its threads.

   Both keep a minimum that takes 0 for "nothing seen yet" and a maximum that starts
   at 0, `Sentinel.lower` and `Sentinel.raise`. A sample is 0 when clock and packet
   agree, and negative when the clock was set back; the minimum of a thread is 0 when it
   received nothing.

   1. `Receiver.run_counted`: the counters of a receiver, from its samples;
   2. `rtt_summary_iff`: minimum and maximum are those of the samples, in whatever order
      they come, exactly when one is not negative, and a 0 comes with a negative one or
      with nothing else;
   3. `merge_iff`: the merged minimum and maximum are those of the threads that received
      something, and the order of the pool does not matter, exactly when all threads did
      and the rounding of the sums does not depend on the order. -/
namespace UdpPingPong

open Exec Wire Sentinel Rounding

/-! ## The samples of a receiver -/

namespace Receiver

section
variable (value : UInt64 → ℚ)

/-- The round trip time counted in one step. -/
def sample (r : Receiver) (e : ReceiverEv) : List ℚ :=
  match e with
  | .round (some d) microtime _ _ => [(r.recv d).rtt value microtime]
  | .round none _ _ _ => []
  | .run _ => []

/-- The round trip times counted in a run. -/
def samples (r : Receiver) (es : List ReceiverEv) : List ℚ := emitted (step value) (sample value) r es

end

variable {value : UInt64 → ℚ} {r r' : Receiver} {e : ReceiverEv} {es : List ReceiverEv}

/-- The counters of a receiver that has counted the samples `rtts`. -/
structure Counted (rtts : List ℚ) (r : Receiver) : Prop where
  counterReceived : r.counterReceived = rtts.length
  rttTotal : r.rttTotal = rtts.sum
  rttMin : r.rttMin = lowest rtts
  rttMax : r.rttMax = highest rtts

theorem Counted.check {rtts : List ℚ} (h : Counted rtts r) (time : Int) (stop : Bool) :
    Counted rtts (r.check time stop) := by
  obtain ⟨hc, ht, hl, hh⟩ := h
  unfold Receiver.check
  split <;> exact ⟨hc, ht, hl, hh⟩

theorem check_pc_ne {time : Int} {stop : Bool} (h : r.pc = .running) : (r.check time stop).pc ≠ .starting := by
  unfold Receiver.check
  split
  · cases stop <;> simp
  · simp [h]

theorem Counted.countPacket {rtts : List ℚ} (h : Counted rtts r) (bytes : Nat) (microtime : ℚ) :
    Counted (rtts ++ [r.rtt value microtime]) (countPacket value r bytes microtime) := by
  obtain ⟨hc, ht, hl, hh⟩ := h
  refine ⟨?_, ?_, ?_, ?_⟩
  · simp [Receiver.countPacket, hc]
  · simp [Receiver.countPacket, ht]
  · rw [lowest_snoc, ← hl]
    rfl
  · rw [highest_snoc, ← raise_eq_max, ← hh]
    rfl

/-- A run from the creation of the thread counts the samples of the run. -/
theorem run_counted (hpc : r.pc = .starting) (h : Runs (step value) r es r') :
    es = [] ∨ r'.pc ≠ .starting ∧ Counted (samples value r es) r' := by
  refine Runs.trace_induct (P := fun es t =>
    es = [] ∧ t = r ∨ t.pc ≠ .starting ∧ Counted (samples value r es) t) (.inl ⟨rfl, rfl⟩) ?_ h |>.imp And.left id
  intro es t e u hr ih hs
  right
  rw [samples, emitted_snoc hr]
  unfold step at hs
  split at hs
  · next time hpc' =>
    -- only the first step enters `run`
    obtain rfl := Option.some.inj hs
    obtain ⟨rfl, rfl⟩ | ⟨hne, -⟩ := ih
    · exact ⟨by simp, rfl, rfl, rfl, rfl⟩
    · exact absurd hpc' hne
  · next d microtime time stop hpc' =>
    obtain rfl := Option.some.inj hs
    obtain ⟨-, rfl⟩ | ⟨-, hc⟩ := ih
    · exact absurd (hpc.symm.trans hpc') (by decide)
    · have hcount : Counted _ (countPacket value (t.recv d) (Buffer.received 4096 d) microtime) :=
        Counted.countPacket (r := t.recv d) ⟨hc.counterReceived, hc.rttTotal, hc.rttMin, hc.rttMax⟩ _ _
      exact ⟨check_pc_ne hpc', hcount.check time stop⟩
  · next time stop hpc' =>
    obtain rfl := Option.some.inj hs
    obtain ⟨-, rfl⟩ | ⟨-, hc⟩ := ih
    · exact absurd (hpc.symm.trans hpc') (by decide)
    · rw [sample, List.append_nil]
      exact ⟨check_pc_ne hpc', hc.check time stop⟩
  · cases hs

/-- A round that reads an empty datagram, when the clock is `x` later than the time of the packet
    that stays in the buffer. -/
def emptyRound (value : UInt64 → ℚ) (r : Receiver) (x : ℚ) : ReceiverEv :=
  .round (some []) (x + value r.packetTime) 0 false

theorem emptyRound_step (value : UInt64 → ℚ) (hpc : r.pc = .running) (x : ℚ) :
    ∃ r', step value r (emptyRound value r x) = some r' ∧ r'.pc = .running ∧
      sample value r (emptyRound value r x) = [x] := by
  have hrecv : (r.recv []).packetTime = r.packetTime := by
    simp [packetTime, recv, Buffer.receive_bytes]
  refine ⟨_, by rw [step.eq_def, hpc]; rfl, ?_, ?_⟩
  · unfold Receiver.check
    split
    · rfl
    · exact hpc
  · simp [sample, emptyRound, rtt, hrecv]

theorem running_samples (value : UInt64 → ℚ) (rtts : List ℚ) : ∀ {r : Receiver}, r.pc = .running →
    ∃ es r', Runs (step value) r es r' ∧ samples value r es = rtts := by
  induction rtts with
  | nil =>
    intro r _
    exact ⟨[], r, runs_nil.mpr rfl, rfl⟩
  | cons x rtts ih =>
    intro r hpc
    obtain ⟨u, hs, hpc', hsample⟩ := emptyRound_step value hpc x
    obtain ⟨es, r', hr, hsamples⟩ := ih hpc'
    refine ⟨emptyRound value r x :: es, r', runs_cons.mpr ⟨u, hs, hr⟩, ?_⟩
    simp only [samples, emitted, hs, hsample, List.singleton_append] at hsamples ⊢
    rw [hsamples]

/-- Every sequence of samples is counted in some run: the datagrams are empty, so a packet stays in
    the buffer, and the clock shows what is wanted. -/
theorem reach_samples (value : UInt64 → ℚ) (hpc : r.pc = .starting) (rtts : List ℚ) :
    ∃ es r', Runs (step value) r es r' ∧ samples value r es = rtts := by
  have hs : step value r (.run 0) = some { r.resetCounter with pc := .running, nextCheck := 0 + 1 } := by
    rw [step.eq_def, hpc]
  obtain ⟨es, r', hr, hsamples⟩ := running_samples value rtts
    (r := { r.resetCounter with pc := .running, nextCheck := 0 + 1 }) rfl
  refine ⟨.run 0 :: es, r', runs_cons.mpr ⟨_, hs, hr⟩, ?_⟩
  simp only [samples, emitted, hs, sample, List.nil_append] at hsamples ⊢
  exact hsamples

end Receiver

/-- **The summary of the samples `rtts` is right**: in every run that counts them, in whatever order,
    the receiver has their number and their sum, their smallest and their largest. -/
def SummaryRight (value : UInt64 → ℚ) (r : Receiver) (rtts : List ℚ) : Prop :=
  ∀ es r', Runs (Receiver.step value) r es r' → (Receiver.samples value r es).Perm rtts →
    r'.counterReceived = rtts.length ∧ r'.rttTotal = rtts.sum ∧
      IsLeast {x | x ∈ rtts} r'.rttMin ∧ IsGreatest {x | x ∈ rtts} r'.rttMax

/-- **When the summary is right**: a sample is not negative, and there is a negative one, or none is
    0, or all are. -/
theorem rtt_summary_iff (value : UInt64 → ℚ) (r : Receiver) (hpc : r.pc = .starting) (rtts : List ℚ)
    (hne : rtts ≠ []) : SummaryRight value r rtts ↔
      (∃ x ∈ rtts, 0 ≤ x) ∧ ((∃ x ∈ rtts, x < 0) ∨ 0 ∉ rtts ∨ ∀ x ∈ rtts, x = 0) := by
  have hmem : ∀ {l : List ℚ}, l.Perm rtts → {x | x ∈ l} = {x | x ∈ rtts} := fun hp => Set.ext fun _ => hp.mem_iff
  have hcounted : ∀ es r', Runs (Receiver.step value) r es r' → (Receiver.samples value r es).Perm rtts →
      Receiver.Counted (Receiver.samples value r es) r' := by
    intro es r' hr hp
    rcases Receiver.run_counted hpc hr with rfl | ⟨-, hc⟩
    · exact absurd (List.nil_perm.mp hp) hne
    · exact hc
  rw [← lowest_perm_iff hne, ← highest_isGreatest_iff]
  refine ⟨?_, ?_⟩
  · intro h
    have hrun : ∀ l : List ℚ, l.Perm rtts →
        IsLeast {x | x ∈ rtts} (lowest l) ∧ IsGreatest {x | x ∈ rtts} (highest l) := by
      intro l hp
      obtain ⟨es, r', hr, hsamples⟩ := Receiver.reach_samples value hpc l
      have hp' : (Receiver.samples value r es).Perm rtts := hsamples ▸ hp
      obtain ⟨-, -, hleast, hgreatest⟩ := h es r' hr hp'
      have hc := hcounted es r' hr hp'
      rw [hc.rttMin, hsamples] at hleast
      rw [hc.rttMax, hsamples] at hgreatest
      exact ⟨hleast, hgreatest⟩
    exact ⟨(hrun rtts (List.Perm.refl _)).2, fun l hp => (hrun l hp).1⟩
  · intro h es r' hr hp
    obtain ⟨hgreatest, hleast⟩ := h
    have hc := hcounted es r' hr hp
    refine ⟨?_, ?_, ?_, ?_⟩
    · rw [hc.counterReceived, hp.length_eq]
    · rw [hc.rttTotal, hp.sum_eq]
    · rw [hc.rttMin]
      exact hleast _ hp
    · rw [hc.rttMax, ← hmem hp, highest_isGreatest_iff]
      obtain ⟨x, hx, h0⟩ := highest_isGreatest_iff.mp hgreatest
      exact ⟨x, hp.mem_iff.mpr hx, h0⟩

/-- A receiver whose thread is created. -/
def startedReceiver : Receiver := { Receiver.new (Buffer.filled 4096 0) with pc := .starting }

theorem rtt_summary_iff_two_samples : SummaryRight (fun _ => 0) startedReceiver [1, 2] ↔
    (∃ x ∈ [(1 : ℚ), 2], 0 ≤ x) ∧ ((∃ x ∈ [(1 : ℚ), 2], x < 0) ∨ 0 ∉ [(1 : ℚ), 2] ∨ ∀ x ∈ [(1 : ℚ), 2], x = 0) :=
  rtt_summary_iff (fun _ => 0) startedReceiver rfl [1, 2] (by simp)

/-- The clock was set back by two seconds: the largest sample is said to be 0. -/
theorem negative_sample_maximum : ¬ SummaryRight (fun _ => 0) startedReceiver [-1] := by
  intro h
  obtain ⟨es, r', hr, hsamples⟩ := Receiver.reach_samples (fun _ => 0) (r := startedReceiver) rfl [-1]
  obtain ⟨-, -, -, hgreatest⟩ := h es r' hr (by rw [hsamples])
  rcases Receiver.run_counted rfl hr with rfl | ⟨-, hc⟩
  · cases hsamples
  · rw [hc.rttMax, hsamples, highest_isGreatest_iff] at hgreatest
    norm_num at hgreatest

/-! ## The merge of the threads -/

variable {c : Config}

section
variable (round : ℚ → ℚ)

theorem foldl_add_rtt : ∀ (peers : List (Peer c)) (res : Results),
    (peers.foldl (Results.addRounded round) res).rttMin =
        (peers.map fun p => p.receiver.rttMin).foldl lower res.rttMin ∧
      (peers.foldl (Results.addRounded round) res).rttMax =
        (peers.map fun p => p.receiver.rttMax).foldl raise res.rttMax
  | [], _ => ⟨rfl, rfl⟩
  | p :: peers, res => foldl_add_rtt peers (res.addRounded round p)

theorem getResults_rtt (peers : List (Peer c)) :
    (getResultsRounded round peers).rttMin = lowest (peers.map fun p => p.receiver.rttMin) ∧
      (getResultsRounded round peers).rttMax = highest (peers.map fun p => p.receiver.rttMax) :=
  foldl_add_rtt round peers Results.zero

/-- The average of a thread that received something, in doubles. -/
def Peer.averageRounded (p : Peer c) : ℚ := round (p.receiver.rttTotal / round p.receiver.counterReceived)

/-- The averages of the threads, added up in doubles. -/
def sumOfAverages (peers : List (Peer c)) : ℚ := Rounding.sum round (peers.map (Peer.averageRounded round))

/-- The mean of their durations in doubles. -/
def meanDuration (peers : List (Peer c)) : ℚ :=
  round (Rounding.sum round (peers.map fun p => p.thread.duration) / peers.length)

theorem foldl_add_duration_rounded : ∀ (peers : List (Peer c)) (res : Results),
    (peers.foldl (Results.addRounded round) res).duration =
      (peers.map fun p => p.thread.duration).foldl (fun s x => round (s + x)) res.duration
  | [], _ => rfl
  | p :: peers, res => foldl_add_duration_rounded peers (res.addRounded round p)

theorem getResultsRounded_duration (peers : List (Peer c)) :
    (getResultsRounded round peers).duration = meanDuration round peers := by
  show round ((peers.foldl (Results.addRounded round) Results.zero).duration / peers.length) = _
  rw [foldl_add_duration_rounded]
  rfl

theorem foldl_add_average_rounded : ∀ (peers : List (Peer c)) (res : Results) (x : ℚ), res.rttTotal = some x →
    (∀ p ∈ peers, p.receiver.counterReceived ≠ 0) →
    (peers.foldl (Results.addRounded round) res).rttTotal =
      some ((peers.map (Peer.averageRounded round)).foldl (fun s x => round (s + x)) x)
  | [], _, _, hx, _ => hx
  | p :: peers, res, x, hx, hall => by
    rw [List.forall_mem_cons] at hall
    have hp : p.receiver.rttAverageRounded round = some (p.averageRounded round) := if_neg hall.1
    apply foldl_add_average_rounded peers (res.addRounded round p) _ _ hall.2
    simp [Results.addRounded, hx, hp]

theorem getResultsRounded_rttTotal {peers : List (Peer c)} (hall : ∀ p ∈ peers, p.receiver.counterReceived ≠ 0) :
    (getResultsRounded round peers).rttTotal = some (sumOfAverages round peers) :=
  foldl_add_average_rounded round peers Results.zero 0 rfl hall

end

/-- Two threads with a positive minimum are merged in either order, in exact arithmetic. -/
theorem Results.add_swap (res : Results) {p q : Peer c} (hp : 0 < p.receiver.rttMin)
    (hq : 0 < q.receiver.rttMin) : (res.add p).add q = (res.add q).add p := by
  simp only [Results.add, Results.addRounded, Results.mk.injEq, id_eq]
  refine ⟨add_right_comm _ _ _, add_right_comm _ _ _, add_right_comm _ _ _, add_right_comm _ _ _,
    add_right_comm _ _ _, trivial, add_right_comm _ _ _, ?_, lower_right_comm res.rttMin hp hq,
    raise_right_comm res.rttMax _ _, ?_⟩
  · cases res.rttTotal <;> cases p.receiver.rttAverageRounded id <;> cases q.receiver.rttAverageRounded id <;>
      simp [add_right_comm]
  · ext i hi
    simp [add_right_comm]

theorem getResults_perm {peers peers' : List (Peer c)} (hpos : ∀ p ∈ peers, 0 < p.receiver.rttMin)
    (hp : peers'.Perm peers) : getResults peers' = getResults peers := by
  have hfold : peers'.foldl Results.add Results.zero = peers.foldl Results.add Results.zero := by
    refine hp.foldl_eq' ?_ Results.zero
    intro p hp' q hq' res
    exact res.add_swap (hpos p (hp.mem_iff.mp hp')) (hpos q (hp.mem_iff.mp hq'))
  simp only [getResults_eq, hfold, hp.length_eq]

/-- **The merge of a pool is right**: minimum and maximum are those of the threads that received
    something, and no field depends on the order of the threads. -/
structure MergeRight (round : ℚ → ℚ) (peers : List (Peer c)) : Prop where
  least : IsLeast {x | ∃ p ∈ peers, 0 < p.receiver.counterReceived ∧ p.receiver.rttMin = x}
    (getResultsRounded round peers).rttMin
  greatest : IsGreatest {x | ∃ p ∈ peers, 0 < p.receiver.counterReceived ∧ p.receiver.rttMax = x}
    (getResultsRounded round peers).rttMax
  order : InAnyOrder (getResultsRounded round) peers

/-- What a thread brings to the merge: nothing, or a number of packets with their smallest and their
    largest round trip time. -/
def Mergeable (p : Peer c) : Prop :=
  p.receiver.counterReceived = 0 ∧ p.receiver.rttMin = 0 ∧ p.receiver.rttMax = 0 ∨
    0 < p.receiver.counterReceived ∧ 0 < p.receiver.rttMin ∧ 0 < p.receiver.rttMax

section
variable {round : ℚ → ℚ} {peers : List (Peer c)}

theorem Mergeable.pos {p : Peer c} (h : Mergeable p) (hall : 0 < p.receiver.counterReceived) :
    0 < p.receiver.rttMin ∧ 0 < p.receiver.rttMax := by
  rcases h with ⟨h0, -, -⟩ | ⟨-, hmin, hmax⟩
  · exact absurd h0 (ne_of_gt hall)
  · exact ⟨hmin, hmax⟩

/-- The rounding is all that can make the order of threads matter that received something. -/
theorem order_iff (hpool : ∀ p ∈ peers, Mergeable p) (hall : ∀ p ∈ peers, 0 < p.receiver.counterReceived) :
    InAnyOrder (getResultsRounded round) peers ↔
      InAnyOrder (meanDuration round) peers ∧ InAnyOrder (sumOfAverages round) peers := by
  have hsum : ∀ {peers' : List (Peer c)}, peers'.Perm peers →
      (getResultsRounded round peers').rttTotal = some (sumOfAverages round peers') :=
    fun hp => getResultsRounded_rttTotal round fun p hp' => ne_of_gt (hall p (hp.mem_iff.mp hp'))
  refine ⟨?_, ?_⟩
  · intro h
    refine ⟨fun peers' hp => ?_, fun peers' hp => ?_⟩
    · rw [← getResultsRounded_duration, ← getResultsRounded_duration, h peers' hp]
    · apply Option.some.inj
      rw [← hsum hp, ← hsum (List.Perm.refl peers), h peers' hp]
  · intro h peers' hp
    obtain ⟨hduration, haverage⟩ := h
    obtain ⟨d, a, heq⟩ := getResultsRounded_eq round peers
    obtain ⟨d', a', heq'⟩ := getResultsRounded_eq round peers'
    have hd : d' = d := by
      have h := hduration peers' hp
      rwa [← getResultsRounded_duration, ← getResultsRounded_duration, heq, heq'] at h
    have ha : a' = a := by
      have h := congrArg some (haverage peers' hp)
      rwa [← hsum hp, ← hsum (List.Perm.refl peers), heq, heq'] at h
    rw [heq, heq', hd, ha, getResults_perm (fun p hp' => ((hpool p hp').pos (hall p hp')).1) hp]

theorem mergeRight_of_all (hpool : ∀ p ∈ peers, Mergeable p) (hall : ∀ p ∈ peers, 0 < p.receiver.counterReceived)
    (hne : peers ≠ []) (horder : InAnyOrder (getResultsRounded round) peers) : MergeRight round peers := by
  have hpos : ∀ p ∈ peers, 0 < p.receiver.rttMin ∧ 0 < p.receiver.rttMax :=
    fun p hp => (hpool p hp).pos (hall p hp)
  have hset : ∀ f : Peer c → ℚ, {x | ∃ p ∈ peers, 0 < p.receiver.counterReceived ∧ f p = x} =
      {x | x ∈ peers.map f} := by
    intro f
    ext x
    simp only [Set.mem_ofPred_eq, List.mem_map]
    exact exists_congr fun p => and_congr_right fun hp => and_iff_right (hall p hp)
  refine ⟨?_, ?_, horder⟩
  · rw [hset, (getResults_rtt round peers).1]
    apply lowest_isLeast_of_ne (by simpa using hne)
    intro h0
    obtain ⟨p, hp, hmin⟩ := List.mem_map.mp h0
    exact absurd hmin (ne_of_gt (hpos p hp).1)
  · rw [hset, (getResults_rtt round peers).2, highest_isGreatest_iff]
    obtain ⟨p, hp⟩ := List.exists_mem_of_ne_nil peers hne
    exact ⟨p.receiver.rttMax, List.mem_map_of_mem hp, (hpos p hp).2.le⟩

/-- Threads that received something, and whose numbers add up without rounding, are merged right. -/
theorem mergeRight_of_exact (hpool : ∀ p ∈ peers, Mergeable p) (hall : ∀ p ∈ peers, 0 < p.receiver.counterReceived)
    (hne : peers ≠ [])
    (hdurations : ∀ xs : List ℚ, xs.Subperm (peers.map fun p => p.thread.duration) → round xs.sum = xs.sum)
    (haverages : ∀ xs : List ℚ, xs.Subperm (peers.map (Peer.averageRounded round)) → round xs.sum = xs.sum) :
    MergeRight round peers := by
  apply mergeRight_of_all hpool hall hne
  rw [order_iff hpool hall]
  refine ⟨fun peers' hp => ?_, fun peers' hp => ?_⟩
  · simp only [meanDuration, sum_inAnyOrder hdurations _ (hp.map fun p => p.thread.duration), hp.length_eq]
  · exact sum_inAnyOrder haverages _ (hp.map (Peer.averageRounded round))

/-- A thread that received nothing, moved behind the others, makes the minimum 0. -/
theorem not_mergeRight (hpool : ∀ p ∈ peers, Mergeable p) {q : Peer c}
    (hq : q ∈ peers) (h0 : q.receiver.counterReceived = 0) : ¬ MergeRight round peers := by
  intro h
  obtain ⟨hleast, -, horder⟩ := h
  obtain ⟨s, t, rfl⟩ := List.append_of_mem hq
  have hp : (s ++ t ++ [q]).Perm (s ++ q :: t) := by
    rw [List.append_assoc]
    exact (List.perm_append_singleton q t).append_left s
  have hmin0 : q.receiver.rttMin = 0 := by
    rcases hpool q hq with ⟨-, hmin, -⟩ | ⟨hpos, -, -⟩
    · exact hmin
    · exact absurd h0 (ne_of_gt hpos)
  have hlowest : (getResultsRounded round (s ++ t ++ [q])).rttMin = 0 := by
    rw [(getResults_rtt round _).1, lowest_eq_zero_iff (by simp)]
    · rw [List.map_append, List.map_singleton, List.getLast?_concat, hmin0]
    · intro x hx
      obtain ⟨p, hp', rfl⟩ := List.mem_map.mp hx
      rcases hpool p (hp.mem_iff.mp hp') with ⟨-, hmin, -⟩ | ⟨-, hmin, -⟩
      · exact hmin.ge
      · exact hmin.le
  obtain ⟨p, hp', hreceived, hmin⟩ := hleast.1
  rw [← horder _ hp, hlowest] at hmin
  rcases hpool p hp' with ⟨hnone, -, -⟩ | ⟨-, hpos, -⟩
  · exact absurd hnone (ne_of_gt hreceived)
  · exact absurd hmin (ne_of_gt hpos)

end

/-- **When the merge is right**, with any rounding: every thread received something, and the mean of
    the durations and the sum of the averages are the same in every order of the threads. -/
theorem merge_iff (round : ℚ → ℚ) (peers : List (Peer c)) (hpool : ∀ p ∈ peers, Mergeable p)
    (hsome : ∃ p ∈ peers, 0 < p.receiver.counterReceived) :
    MergeRight round peers ↔ (∀ p ∈ peers, 0 < p.receiver.counterReceived) ∧
      InAnyOrder (meanDuration round) peers ∧ InAnyOrder (sumOfAverages round) peers := by
  refine ⟨?_, ?_⟩
  · intro h
    have hall : ∀ p ∈ peers, 0 < p.receiver.counterReceived := by
      intro p hp
      rcases hpool p hp with ⟨h0, -, -⟩ | ⟨hpos, -, -⟩
      · exact absurd h (not_mergeRight hpool hp h0)
      · exact hpos
    exact ⟨hall, (order_iff hpool hall).mp h.order⟩
  · intro h
    obtain ⟨hall, horder⟩ := h
    obtain ⟨p, hp, -⟩ := hsome
    exact mergeRight_of_all hpool hall (List.ne_nil_of_mem hp) ((order_iff hpool hall).mpr horder)

/-- A thread that received `n` packets, each after `rtt` seconds. -/
def peerWith (n : Int) (rtt : ℚ) : Peer Config.default :=
  let p := Peer.new Config.default (Buffer.filled 4096 0)
  { p with receiver := { p.receiver with counterReceived := n, rttTotal := n * rtt, rttMin := rtt, rttMax := rtt } }

theorem mergeable_received {n : Int} {rtt : ℚ} (hn : 0 < n) (hrtt : 0 < rtt) : Mergeable (peerWith n rtt) :=
  .inr ⟨hn, hrtt, hrtt⟩

theorem merge_iff_two_threads : MergeRight nearestDouble [peerWith 3 1, peerWith 5 2] ↔
    (∀ p ∈ [peerWith 3 1, peerWith 5 2], 0 < p.receiver.counterReceived) ∧
      InAnyOrder (meanDuration nearestDouble) [peerWith 3 1, peerWith 5 2] ∧
      InAnyOrder (sumOfAverages nearestDouble) [peerWith 3 1, peerWith 5 2] :=
  merge_iff nearestDouble [peerWith 3 1, peerWith 5 2]
    (by
      intro p hp
      rcases List.mem_pair.mp hp with rfl | rfl
      · exact mergeable_received (by decide) (by norm_num)
      · exact mergeable_received (by decide) (by norm_num))
    ⟨peerWith 3 1, by simp, by decide⟩

/-- Three threads that received a packet each, after 0.1, 0.2 and 0.3 seconds. -/
def tenths : List (Peer Config.default) :=
  [peerWith 1 (nearestDouble (1 / 10)), peerWith 1 (nearestDouble (2 / 10)), peerWith 1 (nearestDouble (3 / 10))]

/-- A second thread received nothing: it takes the minimum back to 0. And of three threads that all
    received something the averages add up to another double in another order. -/
theorem silent_thread_clears_minimum : ((∀ p ∈ [peerWith 3 1, peerWith 0 0], Mergeable p) ∧
      (getResultsRounded nearestDouble [peerWith 3 1, peerWith 0 0]).rttMin = 0 ∧
      ¬ MergeRight nearestDouble [peerWith 3 1, peerWith 0 0]) ∧
    (∀ p ∈ tenths, Mergeable p ∧ 0 < p.receiver.counterReceived) ∧ ¬ MergeRight nearestDouble tenths := by
  have hpool : ∀ p ∈ [peerWith 3 1, peerWith 0 0], Mergeable p := by
    intro p hp
    rcases List.mem_pair.mp hp with rfl | rfl
    · exact mergeable_received (by decide) (by norm_num)
    · exact .inl ⟨rfl, rfl, rfl⟩
  have htenths : ∀ p ∈ tenths, 0 < p.receiver.counterReceived ∧ 0 < p.receiver.rttMin ∧ 0 < p.receiver.rttMax := by
    decide +kernel
  refine ⟨⟨hpool, by decide +kernel, not_mergeRight hpool (q := peerWith 0 0) (by simp) rfl⟩, ?_, ?_⟩
  · exact fun p hp => ⟨.inr (htenths p hp), (htenths p hp).1⟩
  · intro h
    have hsum := ((order_iff (fun p hp => .inr (htenths p hp)) fun p hp => (htenths p hp).1).mp h.order).2
    exact absurd (hsum tenths.reverse (List.reverse_perm _)) (by decide +kernel)

end UdpPingPong
