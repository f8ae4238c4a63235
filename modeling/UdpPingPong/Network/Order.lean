import UdpPingPong.Network.Samples

/- What the results say about round trip times when the clock does not go back.

   The minimum of a thread is 0 until it has received something, and the evaluation of a
   load step adds up the averages of the threads, whatever they have received.

   1. `Receiver.step_ordered`: a round trip time that is not negative leaves minimum,
      maximum and sum in order;
   2. `getResults_ordered`: the evaluation keeps the order;
   3. `results_ordered`: so do all runs of the two programs. -/
namespace UdpPingPong

open Exec Wire

variable {c : Config}

/-- The counters of a receiver that has counted no negative round trip time. -/
structure Receiver.Ordered (r : Receiver) : Prop where
  received : 0 ≤ r.counterReceived
  min : 0 ≤ r.rttMin
  max : r.rttMin ≤ r.rttMax
  total : 0 ≤ r.rttTotal
  average : r.rttTotal ≤ r.counterReceived * r.rttMax

/-- The results of `n` such receivers; the average that is printed is `rttTotal` over `n`. -/
structure Results.Ordered (n : Nat) (res : Results) : Prop where
  min : 0 ≤ res.rttMin
  max : res.rttMin ≤ res.rttMax
  average : ∀ total ∈ res.rttTotal, 0 ≤ total ∧ total ≤ n * res.rttMax

/-- One number more is at most as many times the maximum. -/
theorem add_le_raise {n a b m x : ℚ} (hn : 0 ≤ n) (ha : a ≤ n * m) (hb : b ≤ x) :
    a + b ≤ (n + 1) * Sentinel.raise m x := by
  rw [Sentinel.raise_eq_max]
  calc a + b
      ≤ n * m + x := add_le_add ha hb
    _ ≤ n * max m x + max m x := add_le_add (mul_le_mul_of_nonneg_left (le_max_left m x) hn) (le_max_right m x)
    _ = (n + 1) * max m x := by ring

namespace Receiver

variable {value : UInt64 → ℚ} {r r' : Receiver}

theorem resetCounter_ordered (r : Receiver) : r.resetCounter.Ordered :=
  ⟨le_refl _, le_refl _, le_refl _, le_refl _, by simp [resetCounter]⟩

/-- The counters say nothing about the rest of a receiver. -/
theorem Ordered.of_eq (h : r.Ordered) (hc : r'.counterReceived = r.counterReceived) (hmin : r'.rttMin = r.rttMin)
    (hmax : r'.rttMax = r.rttMax) (ht : r'.rttTotal = r.rttTotal) : r'.Ordered := by
  obtain ⟨h1, h2, h3, h4, h5⟩ := h
  rw [← hc] at h1 h5
  rw [← hmin] at h2 h3
  rw [← hmax] at h3 h5
  rw [← ht] at h4 h5
  exact ⟨h1, h2, h3, h4, h5⟩

theorem Ordered.check (h : r.Ordered) (time : Int) (stop : Bool) : (r.check time stop).Ordered := by
  unfold Receiver.check
  split
  · exact h.of_eq rfl rfl rfl rfl
  · exact h

theorem Ordered.countPacket (h : r.Ordered) {microtime : ℚ} (hrtt : 0 ≤ r.rtt value microtime) (bytes : Nat) :
    (countPacket value r bytes microtime).Ordered := by
  obtain ⟨hreceived, hmin, hmax, htotal, haverage⟩ := h
  simp only [Receiver.countPacket]
  generalize r.rtt value microtime = rtt at hrtt ⊢
  have hcount : (0 : ℚ) ≤ r.counterReceived := by exact_mod_cast hreceived
  constructor
  case received => simp only; omega
  case min => simp only; split <;> [skip; split] <;> assumption
  case max => simp only; split <;> [skip; split] <;> split <;> linarith
  case total => exact add_nonneg htotal hrtt
  case average =>
    push_cast
    exact add_le_raise hcount haverage (le_refl rtt)

/-- A step that counts no negative round trip time. -/
theorem step_ordered {e : ReceiverEv} (h : step value r e = some r') (hsample : ∀ x ∈ sample value r e, 0 ≤ x)
    (ho : r.Ordered) : r'.Ordered := by
  unfold step at h
  split at h
  · obtain rfl := Option.some.inj h
    exact (resetCounter_ordered r).of_eq rfl rfl rfl rfl
  · next d microtime time stop hpc =>
    obtain rfl := Option.some.inj h
    apply Ordered.check
    apply Ordered.countPacket
    · exact ho.of_eq rfl rfl rfl rfl
    · exact hsample _ (List.mem_singleton_self _)
  · obtain rfl := Option.some.inj h
    exact ho.check _ _
  · cases h

/-- The average of a receiver lies between 0 and its maximum. -/
theorem Ordered.rttAverage (h : r.Ordered) : ∀ x ∈ r.rttAverage, 0 ≤ x ∧ x ≤ r.rttMax := by
  intro x hx
  rw [Receiver.rttAverage_eq] at hx
  split at hx
  · cases hx
  · next hne =>
    obtain rfl := Option.some.inj hx
    have hpos : (0 : ℚ) < r.counterReceived := by
      have := h.received
      exact_mod_cast (by omega : 0 < r.counterReceived)
    refine ⟨div_nonneg h.total hpos.le, ?_⟩
    rw [div_le_iff₀ hpos, mul_comm]
    exact h.average

end Receiver

namespace Results

/-- One thread more. -/
theorem Ordered.add {n : Nat} {res : Results} (h : res.Ordered n) {p : Peer c} (hp : p.receiver.Ordered) :
    (res.add p).Ordered (n + 1) := by
  obtain ⟨hmin, hmax, haverage⟩ := h
  have hpmin := hp.min
  have hpmax := hp.max
  constructor
  case min => simp only [Results.add, Results.addRounded]; split <;> [skip; split] <;> assumption
  case max => simp only [Results.add, Results.addRounded]; split <;> [skip; split] <;> split <;> linarith
  case average =>
    intro total htotal
    obtain ⟨a, ha, b, hb, rfl⟩ : ∃ a, res.rttTotal = some a ∧ ∃ b, p.receiver.rttAverage = some b ∧ a + b = total := by
      simpa [Option.bind_eq_some_iff] using htotal
    obtain ⟨ha0, hale⟩ := haverage a ha
    obtain ⟨hb0, hble⟩ := hp.rttAverage b hb
    refine ⟨add_nonneg ha0 hb0, ?_⟩
    push_cast
    exact add_le_raise (Nat.cast_nonneg n) hale hble

theorem foldl_add_ordered : ∀ (peers : List (Peer c)) {n : Nat} {res : Results}, res.Ordered n →
    (∀ p ∈ peers, p.receiver.Ordered) → (peers.foldl Results.add res).Ordered (n + peers.length)
  | [], _, _, h, _ => h
  | p :: peers, n, res, h, hp => by
    rw [List.forall_mem_cons] at hp
    have hrest := foldl_add_ordered peers (h.add hp.1) hp.2
    rwa [Nat.add_assoc, Nat.add_comm 1] at hrest

end Results

/-- The evaluation of a load step. -/
theorem getResults_ordered {peers : List (Peer c)} (h : ∀ p ∈ peers, p.receiver.Ordered) :
    (getResults peers).Ordered peers.length := by
  have hzero : Results.zero.Ordered 0 := by
    refine ⟨le_refl _, le_refl _, fun total htotal => ?_⟩
    obtain rfl := Option.some.inj htotal
    simp
  obtain ⟨hmin, hmax, haverage⟩ := Results.foldl_add_ordered peers hzero h
  rw [Nat.zero_add] at haverage
  exact ⟨hmin, hmax, haverage⟩

namespace Peer

variable {value : UInt64 → ℚ} {k : Nat} {p p' : Peer c}

theorem step_ordered {e : PeerEv c.packetsize} (h : p.step value k e = some p')
    (hrtts : ∀ x ∈ p.rtts value e, 0 ≤ x) (ho : p.receiver.Ordered) : p'.receiver.Ordered := by
  cases step_cases h with
  | thread e p' h =>
    cases stepThread_cases h with
    | run fill t ht => exact Receiver.resetCounter_ordered _
    | startReceiver t ht => exact ho.of_eq rfl rfl rfl rfl
    | stopReceiver t ht | sendPacket x t ht | env e t ht => exact ho
  | receiverRun time r hr | recvFails microtime time stop r hr =>
    apply Receiver.step_ordered hr _ ho
    intro x hx
    cases hx
  | recv microtime time stop m rest r hsock hr =>
    apply Receiver.step_ordered hr _ ho
    intro x hx
    exact hrtts x (by simpa [rtts, hsock] using hx)
  | answer i bytes m hm | deliver i m hm => exact ho
  | loseRequest i | loseReply i => exact ho

end Peer

namespace System

variable {value : UInt64 → ℚ} {s s' : System c}

/-- No receiver and no result shows a negative round trip time, or an average above the maximum. -/
structure Ordered (n : Nat) (s : System c) : Prop where
  length : s.peers.length = n
  peers : ∀ p ∈ s.peers, p.receiver.Ordered
  results : ∀ res ∈ s.results, res.Ordered n

theorem step_ordered {n : Nat} {e : SystemEv c.packetsize} (h : step value s e = some s')
    (hrtts : ∀ x ∈ s.rtts value e, 0 ≤ x.2) (ho : s.Ordered n) : s'.Ordered n := by
  obtain ⟨hlength, hpeers, hresults⟩ := ho
  cases step_cases h with
  | run rate rates threads hrates hidle hstart =>
    refine ⟨?_, fun p' hp' => ?_, hresults⟩
    · have hsame := congrArg List.length (map_withThreads (f := fun p => p.receiver) (fun _ _ => rfl) hstart)
      rw [List.length_map, List.length_map] at hsame
      exact hsame.trans hlength
    · obtain ⟨p, hp, q, rfl⟩ := mem_withThreads hstart hp'
      exact hpeers p hp
  | getResults hover =>
    refine ⟨hlength, hpeers, fun res hres => ?_⟩
    rcases List.mem_append.mp hres with hres | hres
    · exact hresults res hres
    · obtain rfl := List.mem_singleton.mp hres
      rw [← hlength]
      exact getResults_ordered hpeers
  | peer i e p p' hp hp' =>
    refine ⟨by rw [List.length_set, hlength], fun q hq => ?_, hresults⟩
    rcases List.mem_or_eq_of_mem_set hq with hq | rfl
    · exact hpeers q hq
    · apply Peer.step_ordered hp' _ (hpeers p (List.mem_of_getElem? hp))
      intro x hx
      exact hrtts (i, x) (by simpa [rtts, hp] using hx)

end System

/-- One step of the two programs that counts no negative round trip time. -/
theorem Net.step_ordered {value : UInt64 → ℚ} {n : Nat} {s s' : Net c} {e : NetEv c.packetsize}
    (h : step value s e = some s') (hrtts : ∀ x ∈ s.rtts value e, 0 ≤ x.2) (ho : s.sender.Ordered n) :
    s'.sender.Ordered n := by
  cases step_cases h with
  | sender e sender he hs => exact System.step_ordered hs hrtts ho
  | start buffer noEcho packetSize time => exact ho
  | bounce j i n time stop w w' p m sender hworker hp hm hr hs =>
    apply System.step_ordered hs _ ho
    rw [(bounce_silent w i n m).2.2]
    intro x hx
    cases hx
  | bounceFails j time stop w w' hworker hr => exact ho
  | readCounter j left w hworker hleft => exact ho

/-- **The results are in order** under a clock that does not go back: in every run of the two programs
    the results of a load step never show a negative minimum, or one above the maximum, and the average
    over the `n` threads, if there is one, lies between 0 and the maximum. -/
theorem results_ordered {value : UInt64 → ℚ} {rates : List Int} {recbuffers : List (Buffer 4096)}
    {es : List (NetEv c.packetsize)} {s : Net c} (h : Runs (Net.step value) (Net.new c rates recbuffers) es s)
    (hclock : (es.flatMap (NetEv.readings value)).Pairwise (· ≤ ·)) :
    ∀ res ∈ s.sender.results, res.Ordered recbuffers.length := by
  have hordered : s.sender.Ordered recbuffers.length := by
    apply Runs.trace_induct (P := fun es (s : Net c) => (es.flatMap (NetEv.readings value)).Pairwise (· ≤ ·) →
      s.sender.Ordered recbuffers.length) _ _ h hclock
    · intro _
      refine ⟨List.length_map _, fun p hp => ?_, fun res hres => by cases hres⟩
      obtain ⟨b, -, rfl⟩ := List.mem_map.mp hp
      exact (Receiver.resetCounter_ordered (Receiver.new b)).of_eq rfl rfl rfl rfl
    · intro es s e s' hr ih hs hclock
      have hbefore : (es.flatMap (NetEv.readings value)).Pairwise (· ≤ ·) := by
        rw [List.flatMap_append] at hclock
        exact (List.pairwise_append.mp hclock).1
      apply Net.step_ordered hs _ (ih hbefore)
      intro x hx
      apply samples_nonneg (hr.snoc hs) hclock
      rw [emitted_snoc hr]
      exact List.mem_append_right _ hx
  exact hordered.results

theorem results_ordered_echoed_step : ∃ s,
    Runs (Net.step fun w => w.toNat) (Net.new oneSlice [1] [Buffer.filled _ 0]) echoedStep s ∧
      ∀ res ∈ s.sender.results, res.Ordered 1 :=
  have ⟨s, hrun⟩ := echoedStep_runs
  ⟨s, hrun, results_ordered hrun (by decide +kernel)⟩

end UdpPingPong
