import UdpPingPong.Sender.Duration
import UdpPingPong.Sender.Report
import UdpPingPong.Sender.Session

/- The query rate that is shown, and the one that was asked for.

   `presentResults` and `saveResultsToCsv` show the packets of a load step over its
   duration. The packets are those of all threads, the duration is the average over them,
   and each thread measures its own. A step that nobody stops is shown with no more than
   its rate, if the slices make up the run time.

   1. `SenderThread.Paced`: a thread with a positive rate in a load step: what it has sent
      and how long it took;
   2. `getResults_paced`: the results of a pool of such threads that have come to rest;
   3. `System.step_paced`: what every step of the program keeps;
   4. `reported_rate`: the query rate that is shown, for every load step of every run. -/
namespace UdpPingPong

open Exec Greedy Wire

variable {c : Config}

/-! ## One thread -/

namespace SenderThread

variable {s t : SenderThread c} {e : ThreadEv c.packetsize} {ε : ℚ} {rs : List Ev}

/-- A thread with a positive rate in a load step, against the readings `rs`: it counts no more packets
    than the `n` it has tried to send. -/
structure Paced (ε : ℚ) (rs : List Ev) (s : SenderThread c) : Prop where
  timed : s.Timed ε rs
  positive : 0 < s.queryrate
  sent : ∃ n : Int, Limited s.queryrate n s ∧
    (s.pc ∉ [ThreadPc.starting, .startReceiver] → s.counter.counterSend ≤ n)

theorem start_paced {q : Int} (hq : 0 < q) (s : SenderThread c) : (s.setQueryRate q).threadStart.Paced ε rs :=
  ⟨threadStart_timed _, hq, 0, ⟨rfl, .inl ⟨rfl, rfl, .inl rfl⟩⟩, fun hpc => absurd hpc (by simp [threadStart])⟩

/-- Before its counters are cleared a thread has sent nothing. -/
theorem Limited.fresh {rate n : Int} (h : Limited rate n s) (hpc : s.pc = .starting ∨ s.pc = .startReceiver) :
    n = 0 := by
  obtain ⟨-, ⟨-, hn, -⟩ | ⟨p, -, -, h₁, h₂, -⟩⟩ := h
  · exact hn
  · rcases hpc with hpc | hpc
    · exact absurd hpc h₁
    · exact absurd hpc h₂

/-- A packet that is counted was tried. -/
theorem step_counted (h : step s e = some t) {rate n : Int} (hl : Limited rate n s)
    (hsent : s.pc ∉ [ThreadPc.starting, .startReceiver] → s.counter.counterSend ≤ n)
    (hpc : t.pc ∉ [ThreadPc.starting, .startReceiver]) :
    t.counter.counterSend ≤ n + if e.isSend then 1 else 0 := by
  have hcount := step_counter h
  have hstarted := step_pc_started h
  cases e with
  | run fill =>
    obtain ⟨hs, ⟨ht, -⟩ | ⟨-, hzero⟩⟩ := hcount
    · simp [ht] at hpc
    · rw [hzero, hl.fresh (.inl hs)]
      exact le_refl (0 : Int)
  | startReceiver =>
    obtain ⟨hs, -, hzero⟩ := hcount
    rw [hzero, hl.fresh (.inr hs)]
    exact le_refl (0 : Int)
  | sendPacket x =>
    have hsize : 0 < c.packetsize := Nat.lt_of_lt_of_le (by decide) c.packetsize_ok
    have hle := hsent (by simpa using hstarted)
    rw [hcount.2.2.2, SendCounter.count_counterSend _ hsize]
    simp only [ThreadEv.isSend, if_true]
    split <;> omega
  | env x =>
    rw [hcount.2.2]
    simpa [ThreadEv.isSend] using hsent (by simpa using hstarted)
  | stopReceiver =>
    rw [hcount.2.2]
    simpa [ThreadEv.isSend] using hsent (by simpa using hstarted)

theorem step_paced (h : step s e = some t) (hs : s.Paced ε rs) (hR : 1 ≤ c.runtime) (hT : 1 ≤ c.slices)
    (hZ : 0 ≤ c.zeitscheibe)
    (hclock : ∀ x ∈ e.touches, x ≠ .threadShouldStop true ∧ ∀ a ∈ rs, a.InOrder ε x) :
    t.Paced ε (rs ++ e.touches) ∧ t.queryrate = s.queryrate := by
  obtain ⟨htimed, hpos, n, hlimited, hsent⟩ := hs
  have hQ : 0 ≤ (plan c s.queryrate).queries :=
    Int.mul_nonneg (show 0 ≤ c.runtime by omega) (Int.le_of_lt hpos)
  have hlimited' := step_limited hpos hQ hT h hlimited
  have hrate : t.queryrate = s.queryrate := hlimited'.1
  refine ⟨⟨step_timed h htimed hZ hclock, ?_, _, ?_, step_counted h hlimited hsent⟩, hrate⟩
  · rw [hrate]
    exact hpos
  · rw [hrate]
    exact hlimited'

/-- A thread that has come to rest. -/
theorem Paced.rest (h : s.Paced ε rs) (hpc : s.pc = .idle) (hR : 1 ≤ c.runtime) (hT : 1 ≤ c.slices) :
    s.counter.counterSend ≤ c.runtime * s.queryrate ∧ c.pacedDuration ε ≤ s.duration := by
  obtain ⟨htimed, hpos, n, hlimited, hsent⟩ := h
  have hQ : 0 ≤ (plan c s.queryrate).queries :=
    Int.mul_nonneg (show 0 ≤ c.runtime by omega) (Int.le_of_lt hpos)
  have hcovered := htimed.covered (by simp [hpc])
  rw [Config.leastDuration, if_pos hpos] at hcovered
  exact ⟨Int.le_trans (hsent (by simp [hpc])) (hlimited.sent_le hQ hT), hcovered⟩

end SenderThread

/-! ## The pool -/

theorem foldl_add_duration : ∀ (peers : List (Peer c)) (res : Results),
    (peers.foldl Results.add res).duration = res.duration + (peers.map fun p => p.thread.duration).sum
  | [], res => by simp
  | p :: peers, res => by
    rw [List.foldl_cons, foldl_add_duration peers, List.map_cons, List.sum_cons, ← add_assoc]
    rfl

/-- The rates of all threads. -/
def totalRate (peers : List (Peer c)) : Int := (peers.map fun p => p.thread.queryrate).sum

/-- **The results of a pool** that has come to rest. -/
theorem getResults_paced {peers : List (Peer c)} {ε : ℚ} (hne : peers ≠ [])
    (hpeers : ∀ p ∈ peers, p.thread.pc = .idle ∧ ∃ rs, p.thread.Paced ε rs) (hR : 1 ≤ c.runtime) (hT : 1 ≤ c.slices) :
    (getResults peers).counterSend ≤ c.runtime * totalRate peers ∧ c.pacedDuration ε ≤ (getResults peers).duration := by
  have hrest : ∀ p ∈ peers, p.thread.counter.counterSend ≤ c.runtime * p.thread.queryrate ∧
      c.pacedDuration ε ≤ p.thread.duration := by
    intro p hp
    obtain ⟨hpc, rs, hpaced⟩ := hpeers p hp
    exact hpaced.rest hpc hR hT
  refine ⟨?_, ?_⟩
  · calc (getResults peers).counterSend
        = (peers.map fun p => p.thread.counter.counterSend).sum := by
          rw [getResults_eq, (foldl_add_counters peers Results.zero).1]
          exact Int.zero_add _
      _ ≤ (peers.map fun p => c.runtime * p.thread.queryrate).sum :=
          List.sum_le_sum fun p hp => (hrest p hp).1
      _ = c.runtime * totalRate peers := List.sum_map_mul_left _ _ _
  · have hlen : (0 : ℚ) < peers.length := Nat.cast_pos.mpr (List.length_pos_iff.mpr hne)
    have hsum : peers.length • c.pacedDuration ε ≤ (peers.map fun p => p.thread.duration).sum := by
      have h := List.card_nsmul_le_sum (peers.map fun p => p.thread.duration) (c.pacedDuration ε) (by
        intro x hx
        obtain ⟨p, hp, rfl⟩ := List.mem_map.mp hx
        exact (hrest p hp).2)
      rwa [List.length_map] at h
    rw [nsmul_eq_mul, mul_comm] at hsum
    have hdur : (getResults peers).duration = (peers.map fun p => p.thread.duration).sum / peers.length := by
      simp only [getResults_eq, foldl_add_duration]
      rw [show Results.zero.duration = 0 from rfl, zero_add]
    rw [hdur, le_div_iff₀ hlen]
    exact hsum

/-- A number of packets over a duration, as it is shown. -/
theorem perSecond_le {n q : Int} {duration m d : ℚ} (h : perSecond n duration = some q) (hd : 0 < d)
    (hle : d ≤ duration) (hm : 0 ≤ m) (hn : n ≤ m) : q * d ≤ m := by
  have hpos : 0 < duration := lt_of_lt_of_le hd hle
  rw [perSecond, quotient, if_neg (ne_of_gt hpos)] at h
  obtain ⟨rfl, -⟩ := asInt64_eq_some h
  by_cases h0 : (0 : ℚ) ≤ n / duration
  · rw [trunc_of_nonneg h0]
    calc (⌊(n : ℚ) / duration⌋ : ℚ) * d
        ≤ n / duration * duration := mul_le_mul (Int.floor_le _) hle (le_of_lt hd) h0
      _ = n := div_mul_cancel₀ _ (ne_of_gt hpos)
      _ ≤ m := hn
  · have htrunc : (trunc (n / duration) : ℚ) ≤ 0 := by
      rw [trunc, if_neg h0]
      exact_mod_cast Int.ceil_le.mpr (by exact_mod_cast le_of_lt (not_le.mp h0))
    exact le_trans (mul_nonpos_of_nonpos_of_nonneg htrunc (le_of_lt hd)) hm

/-! ## The program -/

def PeerEv.touches {size : Nat} : PeerEv size → List Ev
  | .thread e => e.touches
  | _ => []

/-- The touches of the loops, with the number of the thread. -/
def SystemEv.touches {size : Nat} : SystemEv size → List (Nat × Ev)
  | .peer i e => e.touches.map fun x => (i, x)
  | _ => []

namespace Peer

variable {value : UInt64 → ℚ} {k : Nat} {p p' : Peer c} {e : PeerEv c.packetsize} {ε : ℚ} {rs : List Ev}

theorem step_paced (h : p.step value k e = some p') (hp : p.thread.Paced ε rs) (hR : 1 ≤ c.runtime)
    (hT : 1 ≤ c.slices) (hZ : 0 ≤ c.zeitscheibe)
    (hclock : ∀ x ∈ e.touches, x ≠ .threadShouldStop true ∧ ∀ a ∈ rs, a.InOrder ε x) :
    p'.thread.Paced ε (rs ++ e.touches) ∧ p'.thread.queryrate = p.thread.queryrate := by
  by_cases hthread : ∃ e', e = .thread e'
  · obtain ⟨e', rfl⟩ := hthread
    exact SenderThread.step_paced (stepThread_thread h) hp hR hT hZ hclock
  · obtain ⟨hsame, -⟩ := step_around h (not_exists.mp hthread)
    have htouches : e.touches = [] := by
      cases e with
      | thread e' => exact absurd ⟨e', rfl⟩ hthread
      | _ => rfl
    rw [htouches, List.append_nil, hsame]
    exact ⟨hp, rfl⟩

/-- A thread that is not running stays as it is. -/
theorem step_idle (h : p.step value k e = some p') (hp : p.thread.pc = .idle) : p'.thread = p.thread := by
  by_cases hthread : ∃ e', e = .thread e'
  · obtain ⟨e', rfl⟩ := hthread
    exact absurd hp (SenderThread.step_pc_ne_idle (stepThread_thread h))
  · exact (step_around h (not_exists.mp hthread)).1

end Peer

namespace System

variable {value : UInt64 → ℚ} {s s' : System c} {e : SystemEv c.packetsize} {ε : ℚ} {rates : List Int}
  {touches : List (Nat × Ev)}

/-- What a load step with rate `R` came to. -/
def Kept (c : Config) (ε : ℚ) (R : Int) (res : Results) : Prop :=
  res.counterSend ≤ c.runtime * R ∧ c.pacedDuration ε ≤ res.duration

/-- The program over the rates `rates`, against the touches of its threads. -/
structure Paced (ε : ℚ) (rates : List Int) (touches : List (Nat × Ev)) (s : System c) : Prop where
  pool : s.peers ≠ []
  toCome : s.rates = rates.drop (s.results.length + if s.running then 1 else 0)
  idle : s.running = false → s.AllIdle
  running : s.running = true → rates[s.results.length]? = some (totalRate s.peers) ∧
    ∀ i (p : Peer c), s.peers[i]? = some p → p.thread.Paced ε (eventsOf i touches)
  results : ∀ (k : Nat) res, s.results[k]? = some res → ∃ R : Int, rates[k]? = some R ∧ Kept c ε R res

/-- A run that starts deals its rate to the threads. -/
theorem rates_withThreads {peers : List (Peer c)} {rate : Int} {threads : List (SenderThread c)}
    (h : startRun (peers.map Peer.thread) rate = some threads) :
    (withThreads peers threads).map (fun p => p.thread.queryrate) = deal rate peers.length := by
  rw [startRun, assignRates_eq, Option.map_some, List.length_map] at h
  have hlen := deal_length rate peers.length
  generalize deal rate peers.length = rates at h hlen ⊢
  obtain rfl := Option.some.inj h
  apply List.ext_getElem
  · simp [withThreads, hlen]
  · intro i hi hi'
    simp [withThreads, SenderThread.setQueryRate, SenderThread.threadStart]

/-- A run with a query for every thread starts threads with positive rates. -/
theorem start_paced (ε : ℚ) {peers : List (Peer c)} (hne : peers ≠ []) {rate : Int} (hrate : (peers.length : Int) ≤ rate)
    {threads : List (SenderThread c)} (h : startRun (peers.map Peer.thread) rate = some threads) :
    totalRate (withThreads peers threads) = rate ∧
      ∀ rs, ∀ p ∈ withThreads peers threads, p.thread.Paced ε rs := by
  have hlen := List.length_pos_iff.mpr hne
  have hrates := rates_withThreads h
  refine ⟨?_, fun rs p' hp' => ?_⟩
  · rw [totalRate, hrates, deal_sum rate hlen]
  · have hq : p'.thread.queryrate ∈ deal rate peers.length := by
      rw [← hrates]
      exact List.mem_map_of_mem hp'
    have hdiv : 1 ≤ rate / peers.length := by
      rw [Int.le_ediv_iff_mul_le (by omega)]
      omega
    have hpos := (mem_deal (by omega) hq).1
    obtain ⟨p, -, q, rfl⟩ := mem_withThreads h hp'
    exact SenderThread.start_paced (Int.lt_of_lt_of_le hdiv hpos) p.thread

/-- **One step of the program**, as long as nobody asks a thread to stop. -/
theorem step_paced (h : step value s e = some s') (hs : s.Paced ε rates touches) (hR : 1 ≤ c.runtime)
    (hT : 1 ≤ c.slices) (hZ : 0 ≤ c.zeitscheibe) (hrates : ∀ R ∈ rates, (s.peers.length : Int) ≤ R)
    (hclock : ∀ x ∈ e.touches, x.2 ≠ .threadShouldStop true ∧ ∀ a ∈ eventsOf x.1 touches, a.InOrder ε x.2) :
    s'.Paced ε rates (touches ++ e.touches) ∧ s'.peers.length = s.peers.length := by
  obtain ⟨hne, hrest, hidle, hrunning, hresults⟩ := hs
  cases step_cases h with
  | run rate more threads hmore hnot hstart =>
    rw [hmore, hnot.1] at hrest
    have hget : rates[s.results.length]? = some rate := by
      rw [← List.head?_drop, ← show rate :: more = rates.drop s.results.length from hrest]
      rfl
    obtain ⟨htotal, hpaced⟩ := start_paced ε hne (hrates rate (List.mem_of_getElem? hget)) hstart
    have hlen : (withThreads s.peers threads).length = s.peers.length := by
      have h := congrArg List.length (rates_withThreads hstart)
      rwa [List.length_map, deal_length] at h
    refine ⟨⟨?_, ?_, by simp, fun _ => ⟨?_, ?_⟩, hresults⟩, hlen⟩
    · intro hnil
      rw [show withThreads s.peers threads = [] from hnil] at hlen
      exact hne (List.eq_nil_of_length_eq_zero hlen.symm)
    · show more = rates.drop (s.results.length + 1)
      rw [← List.tail_drop, ← show rate :: more = rates.drop s.results.length from hrest]
      rfl
    · rw [htotal]
      exact hget
    · intro i p hp
      exact hpaced _ p (List.mem_of_getElem? hp)
  | getResults hover =>
    obtain ⟨hget, hpaced⟩ := hrunning hover.1
    have hkept : Kept c ε (totalRate s.peers) (UdpPingPong.getResults s.peers) := by
      apply getResults_paced hne _ hR hT
      intro p hp
      obtain ⟨i, hi⟩ := List.mem_iff_getElem?.mp hp
      exact ⟨hover.2 p hp, _, hpaced i p hi⟩
    refine ⟨⟨hne, ?_, fun _ => hover.2, by simp, ?_⟩, rfl⟩
    · rw [hrest, hover.1, List.length_append]
      rfl
    · intro k res hk
      rw [List.getElem?_append] at hk
      split at hk
      · exact hresults k res hk
      · next hlt =>
        have hk0 : k - s.results.length = 0 := by
          by_contra hne
          rw [List.getElem?_eq_none (by simp only [List.length_singleton]; omega)] at hk
          cases hk
        rw [hk0] at hk
        obtain rfl := Option.some.inj hk
        have hkeq : k = s.results.length := by omega
        subst hkeq
        exact ⟨_, hget, hkept⟩
  | peer j e p p' hp hp' =>
    have hj := (List.getElem?_eq_some_iff.mp hp).1
    refine ⟨⟨?_, hrest, fun hrun => ?_, fun hrun => ?_, hresults⟩, List.length_set⟩
    · simpa using hne
    · intro q hq
      rcases List.mem_or_eq_of_mem_set hq with hq | rfl
      · exact hidle hrun q hq
      · have hpc := hidle hrun p (List.mem_of_getElem? hp)
        rw [Peer.step_idle hp' hpc]
        exact hpc
    · obtain ⟨hget, hpaced⟩ := hrunning hrun
      have htouches : ∀ x ∈ e.touches, x ≠ .threadShouldStop true ∧ ∀ a ∈ eventsOf j touches, a.InOrder ε x :=
        fun x hx => hclock (j, x) (List.mem_map_of_mem hx)
      obtain ⟨hpaced', hrate⟩ := Peer.step_paced hp' (hpaced j p hp) hR hT hZ htouches
      refine ⟨?_, fun i q hq => ?_⟩
      · rw [hget, totalRate, totalRate, sum_map_set _ hp, hrate, Int.sub_add_cancel]
      · simp only [SystemEv.touches, eventsOf_append]
        by_cases hij : j = i
        · subst hij
          rw [List.getElem?_set_self hj] at hq
          obtain rfl := Option.some.inj hq
          rw [eventsOf_map_self]
          exact hpaced'
        · rw [List.getElem?_set_ne hij] at hq
          rw [eventsOf_map_other hij, List.append_nil]
          exact hpaced i q hq

theorem new_paced (c : Config) (rates : List Int) {recbuffers : List (Buffer 4096)} (hne : recbuffers ≠ []) :
    (new c rates recbuffers).Paced ε rates [] := by
  refine ⟨by simpa [new] using hne, rfl, fun _ p hp => ?_, by simp [new], fun k res hk => by simp [new] at hk⟩
  obtain ⟨b, -, rfl⟩ := List.mem_map.mp hp
  rfl

end System

/-- **The query rate that is shown.** In every run of the program over rates with a query for every
    thread, in which nobody asks a thread to stop, the results of a load step show a duration not
    less than that of the slices or the run time, and a query rate that is not more than the packets
    asked for over this duration. -/
theorem reported_rate {value : UInt64 → ℚ} {rates : List Int} {recbuffers : List (Buffer 4096)}
    {es : List (SystemEv c.packetsize)} {s : System c} {ε : ℚ}
    (h : Runs (System.step value) (System.new c rates recbuffers) es s) (hne : recbuffers ≠ [])
    (hrates : ∀ R ∈ rates, (recbuffers.length : Int) ≤ R) (hR : 1 ≤ c.runtime) (hT : 1 ≤ c.slices)
    (hZ : 0 ≤ c.zeitscheibe) (hpaced : 0 < c.pacedDuration ε)
    (hclock : ∀ i, (eventsOf i (es.flatMap SystemEv.touches)).Pairwise (Ev.InOrder ε))
    (hstop : ∀ x ∈ es.flatMap SystemEv.touches, x.2 ≠ .threadShouldStop true) :
    ∀ (k : Nat) res, s.results[k]? = some res → ∃ R : Int, rates[k]? = some R ∧ c.pacedDuration ε ≤ res.duration ∧
      ∀ q : Int, ((presentResults c.packetsize recbuffers.length res).qpsSend = some q ∨
        ∃ line ∈ saveResultsToCsv true recbuffers.length res, line.qpsSend = some q) →
          q * c.pacedDuration ε ≤ c.runtime * R := by
  have hkept : s.Paced ε rates (es.flatMap SystemEv.touches) ∧ s.peers.length = recbuffers.length := by
    apply Runs.trace_induct (P := fun es (s : System c) =>
      (∀ i, (eventsOf i (es.flatMap SystemEv.touches)).Pairwise (Ev.InOrder ε)) →
      (∀ x ∈ es.flatMap SystemEv.touches, x.2 ≠ .threadShouldStop true) →
      s.Paced ε rates (es.flatMap SystemEv.touches) ∧ s.peers.length = recbuffers.length) _ _ h hclock hstop
    · intro _ _
      exact ⟨System.new_paced c rates hne, List.length_map _⟩
    · intro es s e t _ ih hs hclock hstop
      simp only [List.flatMap_append, List.flatMap_singleton, eventsOf_append, List.pairwise_append,
        List.forall_mem_append] at hclock hstop ⊢
      obtain ⟨hpaced, hlen⟩ := ih (fun i => (hclock i).1) hstop.1
      rw [← hlen] at hrates ⊢
      apply System.step_paced hs hpaced hR hT hZ hrates
      intro x hx
      refine ⟨hstop.2 x hx, fun a ha => ?_⟩
      exact (hclock x.1).2.2 a ha x.2 (mem_eventsOf hx)
  intro k res hk
  obtain ⟨R, hget, hsent, hduration⟩ := hkept.1.results k res hk
  have hpos : 0 ≤ c.runtime * R := by
    have hle := hrates R (List.mem_of_getElem? hget)
    exact Int.mul_nonneg (by omega) (by omega)
  refine ⟨R, hget, hduration, fun q hq => ?_⟩
  have hshown : perSecond res.counterSend res.duration = some q := by
    rcases hq with hq | ⟨line, hline, hq⟩
    · exact hq
    · obtain rfl := List.mem_singleton.mp hline
      exact hq
  exact perSecond_le hshown hpaced hduration (by exact_mod_cast hpos) (by exact_mod_cast hsent)

theorem reported_rate_replied_step : ∃ s : System oneSlice,
    Runs (System.step fun w => w.toNat) (System.new oneSlice [1] [Buffer.filled _ 0]) repliedStep s ∧
      ∀ (k : Nat) res, s.results[k]? = some res → ∃ R : Int, [(1 : Int)][k]? = some R ∧
        oneSlice.pacedDuration 0 ≤ res.duration ∧
        ∀ q : Int, ((presentResults oneSlice.packetsize 1 res).qpsSend = some q ∨
          ∃ line ∈ saveResultsToCsv true 1 res, line.qpsSend = some q) →
            q * oneSlice.pacedDuration 0 ≤ oneSlice.runtime * R := by
  obtain ⟨s, hrun⟩ := Option.isSome_iff_exists.mp (show ((repliedStep).foldlM
    (System.step fun w => w.toNat) (System.new oneSlice [1] [Buffer.filled _ 0])).isSome by decide +kernel)
  -- there is one thread, and its clocks agree
  have hone : repliedStep.flatMap SystemEv.touches =
      ((repliedStep.flatMap SystemEv.touches).map Prod.snd).map fun x => (0, x) := by decide +kernel
  have hclock : ∀ i, (eventsOf i (repliedStep.flatMap SystemEv.touches)).Pairwise (Ev.InOrder 0) := by
    intro i
    rw [hone]
    by_cases hi : 0 = i
    · subst hi
      rw [eventsOf_map_self]
      decide +kernel
    · rw [eventsOf_map_other hi]
      exact List.Pairwise.nil
  exact ⟨s, hrun, reported_rate hrun (by simp) (by simp) (by decide) (by decide +kernel) (by decide +kernel)
    (by decide +kernel) hclock (by decide +kernel)⟩

end UdpPingPong
