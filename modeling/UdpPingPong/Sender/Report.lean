import UdpPingPong.Lib.Mean
import UdpPingPong.Sender.Rtt
import UdpPingPong.Sender.Slices

/- The report of a load step: `presentResults` and `saveResultsToCsv`.

   Both get the numbers of `getResults` and print quotients of them. A quotient is
   exact, and there is none of a zero divisor; the texts around the numbers are left
   out. The round trip time they show is the sum of the averages of the threads over
   the number of threads.

   1. `getResults_rttTotal`: the sum of the averages, and there is none when a thread
      received nothing;
   2. `average_right_iff`: it is the average over all replies exactly when every thread
      received something, and the numbers of replies of the threads do not vary
      together with their averages. -/
namespace UdpPingPong

open Mean

/-- `a / b` on exact numbers. -/
def quotient (a b : ℚ) : Option ℚ := if b = 0 then none else some (a / b)

/-- `(int64_t)((double)n/duration)`. -/
def perSecond (n : Int) (duration : ℚ) : Option Int := do asInt64 (trunc (← quotient n duration))

/-- `x*8/(1024*1024)` on `int64_t`. -/
def megabits (x : Int) : Option Int := do return (← asInt64 (x * 8)).tdiv (1024 * 1024)

/-- A line of the CSV file. -/
structure CsvLine where
  qpsSend : Option Int
  qpsReceived : Option Int
  qpsErrors : Option Int
  lost : Option ℚ
  rttAverage : Option ℚ
  rttMin : ℚ
  rttMax : ℚ

/-- `saveResultsToCsv`: the lines it adds to the file. -/
def saveResultsToCsv (csvFileIsOpen : Bool) (threadCount : Nat) (res : Results) : List CsvLine :=
  if csvFileIsOpen then
    [{ qpsSend := perSecond res.counterSend res.duration
       qpsReceived := perSecond res.counterReceived res.duration
       qpsErrors := perSecond res.counterErrors res.duration
       lost := quotient (res.packagesLost * 100) res.counterSend
       rttAverage := do quotient ((← res.rttTotal) * 1000) threadCount
       rttMin := res.rttMin * 1000
       rttMax := res.rttMax * 1000 }]
  else []

/-- The numbers on the console. -/
structure Report where
  counterSend : Int
  qpsSend : Option Int
  throughputSend : Option Int
  counterReceived : Int
  qpsReceived : Option Int
  throughputReceived : Option Int
  packagesLost : Int
  lost : Option ℚ
  counterErrors : Int
  qpsErrors : Option Int
  counter0Bytes : Int
  qps0Bytes : Option Int
  /-- The error codes that occurred, with their counters and rates. -/
  errorcodes : List (Nat × Int × Option Int)
  rttAverage : Option ℚ
  rttMin : ℚ
  rttMax : ℚ

def presentResults (packetsize threadCount : Nat) (res : Results) : Report :=
  let qpsSend := perSecond res.counterSend res.duration
  let bytesReceived := perSecond res.bytesReceived res.duration
  { counterSend := res.counterSend
    qpsSend
    throughputSend := do megabits (← asInt64 ((← qpsSend) * packetsize))
    counterReceived := res.counterReceived
    qpsReceived := perSecond res.counterReceived res.duration
    throughputReceived := do megabits (← bytesReceived)
    packagesLost := res.packagesLost
    lost := quotient (res.packagesLost * 100) res.counterSend
    counterErrors := res.counterErrors
    qpsErrors := perSecond res.counterErrors res.duration
    counter0Bytes := res.counter0Bytes
    qps0Bytes := perSecond res.counter0Bytes res.duration
    errorcodes := res.counterErrorcodes.toList.zipIdx.filterMap fun x =>
      if 0 < x.1 then some (x.2, x.1, perSecond x.1 res.duration) else none
    rttAverage := do quotient ((← res.rttTotal) * 1000) threadCount
    rttMin := res.rttMin * 1000
    rttMax := res.rttMax * 1000 }

variable {c : Config}

/-- The number of replies a thread received. -/
def Peer.counted (p : Peer c) : ℚ := p.receiver.counterReceived

/-- The average of their round trip times. -/
def Peer.rttMean (p : Peer c) : ℚ := p.receiver.rttTotal / p.counted

/-! ## The sum of the averages -/

/-- No sum comes after a thread that received nothing. -/
theorem foldl_add_none : ∀ (peers : List (Peer c)) (res : Results),
    res.rttTotal = none ∨ (∃ p ∈ peers, p.receiver.counterReceived = 0) →
    (peers.foldl Results.add res).rttTotal = none
  | [], res, h => by simpa using h
  | p :: peers, res, h => by
    apply foldl_add_none peers (res.add p)
    rcases h with h | ⟨q, hq, h0⟩
    · left
      simp [h]
    · rcases List.mem_cons.mp hq with rfl | hq
      · left
        simp [Receiver.rttAverage_eq, h0]
      · exact .inr ⟨q, hq, h0⟩

/-- `rtt_total`: the averages of the threads, added up. -/
theorem getResults_rttTotal (peers : List (Peer c)) : (getResults peers).rttTotal =
    if ∀ p ∈ peers, p.receiver.counterReceived ≠ 0 then some (peers.map Peer.rttMean).sum else none := by
  split
  · next hne =>
    have hexact : sumOfAverages id peers = (peers.map Peer.rttMean).sum := Rounding.sum_eq_of_exact fun _ _ => rfl
    rw [← hexact]
    exact getResultsRounded_rttTotal id hne
  · next hne =>
    apply foldl_add_none
    push Not at hne
    exact .inr hne

/-! ## The average that is shown -/

/-- The average round trip time over all replies. -/
def averageOfReplies (peers : List (Peer c)) : ℚ :=
  (peers.map fun p => p.receiver.rttTotal).sum / (peers.map Peer.counted).sum

/-- **The average is right**: console and CSV file show the one over all replies, in milliseconds. -/
def AverageRight (peers : List (Peer c)) : Prop :=
  (presentResults c.packetsize peers.length (getResults peers)).rttAverage =
      some (averageOfReplies peers * 1000) ∧
    ∀ line ∈ saveResultsToCsv true peers.length (getResults peers),
      line.rttAverage = some (averageOfReplies peers * 1000)

/-- Both show the same average. -/
theorem averageRight_iff_shown (peers : List (Peer c)) : AverageRight peers ↔
    (do quotient ((← (getResults peers).rttTotal) * 1000) peers.length) = some (averageOfReplies peers * 1000) := by
  simp [AverageRight, presentResults, saveResultsToCsv]

/-- The replies of a pool in which a thread received something. -/
theorem sum_counted_pos {peers : List (Peer c)} (hcount : ∀ p ∈ peers, 0 ≤ p.receiver.counterReceived)
    (hsome : ∃ p ∈ peers, 0 < p.receiver.counterReceived) : 0 < (peers.map Peer.counted).sum := by
  obtain ⟨p, hp, hpos⟩ := hsome
  calc (0 : ℚ) < p.counted := Int.cast_pos.mpr hpos
    _ ≤ (peers.map Peer.counted).sum := by
      apply List.single_le_sum _ _ (List.mem_map_of_mem hp)
      intro x hx
      obtain ⟨q, hq, rfl⟩ := List.mem_map.mp hx
      exact Int.cast_nonneg (hcount q hq)

/-- A pool in which every thread received something. -/
theorem averageRight_iff_covariation {peers : List (Peer c)} (hne : peers ≠ [])
    (hall : ∀ p ∈ peers, 1 ≤ p.receiver.counterReceived) :
    AverageRight peers ↔ covariation Peer.counted Peer.rttMean peers = 0 := by
  have hlen : (peers.length : ℚ) ≠ 0 := by
    rw [Nat.cast_ne_zero]
    exact fun h => hne (List.eq_nil_of_length_eq_zero h)
  have hzero : ∀ p ∈ peers, p.receiver.counterReceived ≠ 0 := fun p hp => ne_of_gt (hall p hp)
  obtain ⟨p, hp⟩ := List.exists_mem_of_ne_nil peers hne
  have hsum := sum_counted_pos (fun p hp => Int.le_of_lt (hall p hp)) ⟨p, hp, hall p hp⟩
  have hmean := mean_quotient_iff (v := fun p : Peer c => p.receiver.rttTotal) hne
    (fun p hp => Int.cast_ne_zero.mpr (hzero p hp)) (ne_of_gt hsum)
  rw [averageRight_iff_shown, getResults_rttTotal, if_pos hzero]
  simp only [Option.bind_eq_bind, Option.bind_some]
  rw [quotient, if_neg hlen, Option.some.injEq, mul_div_right_comm, mul_left_inj' (by norm_num)]
  exact hmean

/-- Threads that all received as many replies, or all took as long on average, show the right
    average. -/
theorem averageRight_of_even {peers : List (Peer c)} (hne : peers ≠ [])
    (hall : ∀ p ∈ peers, 1 ≤ p.receiver.counterReceived)
    (heven : (∀ p ∈ peers, ∀ q ∈ peers, p.counted = q.counted) ∨
      ∀ p ∈ peers, ∀ q ∈ peers, p.rttMean = q.rttMean) : AverageRight peers := by
  rw [averageRight_iff_covariation hne hall]
  rcases heven with h | h
  · exact covariation_of_const h
  · rw [covariation_comm]
    exact covariation_of_const h

/-- **When the average is right**: every thread received something, and over all pairs of threads the
    differences of their numbers of replies, times those of their averages, cancel out. -/
theorem average_right_iff (peers : List (Peer c)) (hcount : ∀ p ∈ peers, 0 ≤ p.receiver.counterReceived)
    (hsome : ∃ p ∈ peers, 0 < p.receiver.counterReceived) : AverageRight peers ↔
      (∀ p ∈ peers, 1 ≤ p.receiver.counterReceived) ∧ covariation Peer.counted Peer.rttMean peers = 0 := by
  obtain ⟨p, hp, -⟩ := hsome
  have hne : peers ≠ [] := List.ne_nil_of_mem hp
  refine ⟨?_, ?_⟩
  · intro h
    have hall : ∀ q ∈ peers, q.receiver.counterReceived ≠ 0 := by
      by_contra hzero
      rw [averageRight_iff_shown, getResults_rttTotal, if_neg hzero] at h
      cases h
    have hpos : ∀ q ∈ peers, 1 ≤ q.receiver.counterReceived :=
      fun q hq => lt_of_le_of_ne (hcount q hq) (hall q hq).symm
    exact ⟨hpos, (averageRight_iff_covariation hne hpos).mp h⟩
  · intro h
    obtain ⟨hpos, hcov⟩ := h
    exact (averageRight_iff_covariation hne hpos).mpr hcov

theorem average_right_iff_two_threads : AverageRight [peerWith 3 1, peerWith 3 2] ↔
    (∀ p ∈ [peerWith 3 1, peerWith 3 2], 1 ≤ p.receiver.counterReceived) ∧
      covariation Peer.counted Peer.rttMean [peerWith 3 1, peerWith 3 2] = 0 :=
  average_right_iff [peerWith 3 1, peerWith 3 2] (by decide) ⟨peerWith 3 1, by simp, by decide⟩

/-- One reply after one second and three replies after two: the average shown is 1500 milliseconds
    where it is 1750, and next to a thread that received nothing there is none. -/
theorem unequal_threads_average :
    (presentResults Config.default.packetsize 2 (getResults [peerWith 1 1, peerWith 3 2])).rttAverage = some 1500 ∧
      averageOfReplies [peerWith 1 1, peerWith 3 2] * 1000 = 1750 ∧ ¬ AverageRight [peerWith 1 1, peerWith 3 2] ∧
      (presentResults Config.default.packetsize 2 (getResults [peerWith 3 1, peerWith 0 0])).rttAverage = none := by
  have hshown : (presentResults Config.default.packetsize 2 (getResults [peerWith 1 1, peerWith 3 2])).rttAverage =
      some 1500 := by decide +kernel
  have htrue : averageOfReplies [peerWith 1 1, peerWith 3 2] * 1000 = 1750 := by decide +kernel
  refine ⟨hshown, htrue, ?_, by decide +kernel⟩
  intro h
  have hright := h.1
  rw [htrue] at hright
  exact absurd (Option.some.inj (hshown.symm.trans hright)) (by norm_num)

end UdpPingPong
