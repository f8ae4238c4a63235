import Mathlib.Algebra.BigOperators.Ring.Finset
import Mathlib.Algebra.Order.BigOperators.Group.Finset
import UdpPingPong.Sender.Thread

/- The load of a run: `UDPSender::run` splits the query rate over its threads, each
   thread splits its share over its slices.

   The pool is a list of thread objects, in the order the source iterates over it,
   and a run of the pool is any interleaving of the steps of its threads.

   1. `handedRates_eq`: the first division deals the rate greedily, `Greedy.deal`;
   2. `fair_split`: it makes up the rate, whatever its sign, and is as even as it can be;
   3. `load_kept_iff`: the configured load is never exceeded, and met by threads that
      finish, exactly when there are no more threads than queries per second. A thread
      that gets rate 0 takes the unlimited loop. -/
namespace UdpPingPong

open Exec Greedy

variable {c : Config}

/-- The number of slices, the same for all threads. -/
def Config.slices (c : Config) : Int := (SenderThread.plan c 0).totalZeitscheiben

/-- The loop of `UDPSender::run` over the thread pool: `setQueryRate` for every thread. There is
    no result where it divides by zero. -/
def assignRates : List (SenderThread c) → Int → Int → Option (List (SenderThread c))
  | [], _, _ => some []
  | thread :: pool, queriesRest, threadsRest => do
    let queriesThread ← cdiv queriesRest threadsRest
    let rest ← assignRates pool (queriesRest - queriesThread) (threadsRest - 1)
    return thread.setQueryRate queriesThread :: rest

/-- The arguments of `setQueryRate` in this loop. -/
def handedRates : List (SenderThread c) → Int → Int → Option (List Int)
  | [], _, _ => some []
  | _ :: pool, queriesRest, threadsRest => do
    let queriesThread ← cdiv queriesRest threadsRest
    let rest ← handedRates pool (queriesRest - queriesThread) (threadsRest - 1)
    return queriesThread :: rest

/-- `UDPSender::run` up to `threadpool.startThreads()`. -/
def startRun (pool : List (SenderThread c)) (queryrate : Int) : Option (List (SenderThread c)) :=
  (assignRates pool queryrate pool.length).map fun pool => pool.map SenderThread.threadStart

/-- One step of one thread of the pool. -/
abbrev poolStep (pool : List (SenderThread c)) (p : Nat × ThreadEv c.packetsize) :
    Option (List (SenderThread c)) :=
  stepAt SenderThread.step pool p

/-- The `sendPacket` calls of all threads. -/
def packets (es : List (Nat × ThreadEv c.packetsize)) : Nat := es.countP fun x => x.2.isSend

/-- Each thread gets the rate that was handed to it. -/
theorem assignRates_handed : ∀ (pool : List (SenderThread c)) (q n : Int),
    assignRates pool q n = (handedRates pool q n).map (List.zipWith SenderThread.setQueryRate pool)
  | [], _, _ => rfl
  | thread :: pool, q, n => by
    rw [assignRates, handedRates]
    cases cdiv q n with
    | none => rfl
    | some x =>
      simp only [Option.bind_eq_bind, Option.bind_some, assignRates_handed pool]
      cases handedRates pool (q - x) (n - 1) <;> rfl

/-- The rates are dealt greedily. -/
theorem handedRates_eq : ∀ (pool : List (SenderThread c)) (q : Int),
    handedRates pool q pool.length = some (deal q pool.length)
  | [], _ => rfl
  | thread :: pool, q => by
    have hlen : ((thread :: pool).length : Int) = pool.length + 1 := by simp
    have hdiv : cdiv q (pool.length + 1) = some (q.tdiv (pool.length + 1)) := by
      rw [cdiv, if_neg (by omega)]
    have hrest : ((pool.length : Int) + 1) - 1 = pool.length := by omega
    rw [handedRates, hlen, hdiv]
    simp only [Option.bind_eq_bind, Option.bind_some, hrest, handedRates_eq pool]
    rfl

theorem assignRates_eq (pool : List (SenderThread c)) (q : Int) :
    assignRates pool q pool.length = some (List.zipWith SenderThread.setQueryRate pool (deal q pool.length)) := by
  rw [assignRates_handed, handedRates_eq, Option.map_some]

/-- **A fair split**: for every rate and every pool that is not empty no division is by zero,
    the rates handed to the threads make up the rate of the run, differ by one at most, and have no
    sign opposite to it; and each thread stores its own. -/
theorem fair_split (pool : List (SenderThread c)) (q : Int) (hn : 1 ≤ pool.length) :
    ∃ rates, handedRates pool q pool.length = some rates ∧
      assignRates pool q pool.length = some (List.zipWith SenderThread.setQueryRate pool rates) ∧
      rates.length = pool.length ∧ rates.sum = q ∧ (∀ x ∈ rates, ∀ y ∈ rates, |x - y| ≤ 1) ∧
      ∀ x ∈ rates, (0 ≤ q → 0 ≤ x) ∧ (q ≤ 0 → x ≤ 0) := by
  refine ⟨deal q pool.length, handedRates_eq pool q, assignRates_eq pool q, deal_length q _, deal_sum q hn, ?_, ?_⟩
  · intro x hx y hy
    exact deal_fair q hx hy
  · intro x hx
    exact deal_sign q hx

theorem fair_split_three_threads : ∃ rates,
    handedRates (List.replicate 3 (SenderThread.new Config.default)) (-5) 3 = some rates ∧
    assignRates (List.replicate 3 (SenderThread.new Config.default)) (-5) 3 = some (List.zipWith
      SenderThread.setQueryRate (List.replicate 3 (SenderThread.new Config.default)) rates) ∧
      rates.length = 3 ∧ rates.sum = -5 ∧ (∀ x ∈ rates, ∀ y ∈ rates, |x - y| ≤ 1) ∧
      ∀ x ∈ rates, ((0 : Int) ≤ -5 → 0 ≤ x) ∧ ((-5 : Int) ≤ 0 → x ≤ 0) :=
  fair_split (List.replicate 3 (SenderThread.new Config.default)) (-5) (by decide)

/-- What thread number `i` starts the run with. -/
theorem startRun_get (pool : List (SenderThread c)) {q : Int} (hq : 0 ≤ q) :
    ∃ pool', startRun pool q = some pool' ∧ pool'.length = pool.length ∧
      ∀ (i : Nat) (s : SenderThread c), pool[i]? = some s →
        pool'[i]? = some (s.setQueryRate (share q pool.length i)).threadStart := by
  refine ⟨_, by rw [startRun, assignRates_eq, Option.map_some], ?_, ?_⟩
  · simp [deal_length]
  · intro i s hs
    obtain ⟨hlt, -⟩ := List.getElem?_eq_some_iff.mp hs
    simp [List.getElem?_zipWith, deal_eq_share hq, hs, List.getElem?_range hlt]

/-- **The configured load is kept**: in every run of the pool at rate `q`, whatever its threads
    are told and whatever their clocks show, no thread enters the unlimited loop, at most
    `runtime * q` packets are sent, and exactly that many once every thread has finished. -/
def LoadKept (pool : List (SenderThread c)) (q : Int) : Prop :=
  ∃ pool', startRun pool q = some pool' ∧ ∀ es pool'', Runs poolStep pool' es pool'' →
    (∀ s ∈ pool'', ¬ s.InFlood) ∧ packets es ≤ c.runtime * q ∧
      ((∀ s ∈ pool'', s.Finished) → packets es = c.runtime * q)

/-- The rates of the threads make up the rate of the run. -/
theorem sum_rates (r q : Int) {n : Nat} (hn : 0 < n) :
    ∑ i ∈ Finset.range n, r * share q n i = r * q := by
  rw [← Finset.mul_sum, sum_share q (by omega) n, dealt_self (by omega)]

theorem loadKept_of_le {pool : List (SenderThread c)} {q : Int} (hn : 1 ≤ pool.length) (hR : 1 ≤ c.runtime)
    (hT : 1 ≤ c.slices) (hq : 0 < q) (hle : (pool.length : Int) ≤ q) : LoadKept pool q := by
  obtain ⟨pool', hstart, hlen, hget⟩ := startRun_get pool (Int.le_of_lt hq)
  refine ⟨pool', hstart, fun es pool'' hr => ?_⟩
  obtain ⟨hlen', hproj⟩ := hr.proj
  have hpos : ∀ i : Nat, 0 < share q pool.length i := fun i => share_pos (by omega) hle i
  have hQ : ∀ i : Nat, 0 ≤ (SenderThread.plan c (share q pool.length i)).queries := by
    intro i
    show 0 ≤ c.runtime * share q pool.length i
    exact Int.mul_nonneg (by omega) (Int.le_of_lt (hpos i))
  -- Thread `i` has sent what its pacing loop says.
  have hthread : ∀ (i : Nat) (s : SenderThread c), pool''[i]? = some s →
      SenderThread.Limited (share q pool.length i) ((eventsOf i es).countP ThreadEv.isSend) s := by
    intro i s hs
    have hi : i < pool.length := by
      rw [← hlen, ← hlen']
      exact (List.getElem?_eq_some_iff.mp hs).1
    obtain ⟨t, ht, hrun⟩ := hproj i _ (hget i _ (List.getElem?_eq_getElem hi))
    obtain rfl : s = t := Option.some.inj (hs.symm.trans ht)
    exact SenderThread.run_limited (hpos i) (hQ i) hT rfl hrun
  have hat : ∀ i ∈ Finset.range pool.length, ∃ s ∈ pool'',
      SenderThread.Limited (share q pool.length i) ((eventsOf i es).countP ThreadEv.isSend) s := by
    intro i hi
    have hlt : i < pool''.length := by
      rw [hlen', hlen]
      exact Finset.mem_range.mp hi
    exact ⟨pool''[i], List.getElem_mem hlt, hthread i _ (List.getElem?_eq_getElem hlt)⟩
  have hsum : (packets es : Int) =
      ∑ i ∈ Finset.range pool.length, ((eventsOf i es).countP ThreadEv.isSend : Int) := by
    rw [packets, ← sum_eventsOf _ pool.length es fun x hx => hlen ▸ hr.party_lt x hx, Nat.cast_sum]
  refine ⟨fun s hs => ?_, ?_, fun hfin => ?_⟩
  · obtain ⟨i, hs⟩ := List.mem_iff_getElem?.mp hs
    exact (hthread i s hs).not_inFlood
  · calc (packets es : Int)
        ≤ ∑ i ∈ Finset.range pool.length, c.runtime * share q pool.length i := by
          rw [hsum]
          apply Finset.sum_le_sum
          intro i hi
          obtain ⟨s, -, hl⟩ := hat i hi
          exact hl.sent_le (hQ i) hT
      _ = c.runtime * q := sum_rates c.runtime q hn
  · calc (packets es : Int)
        = ∑ i ∈ Finset.range pool.length, c.runtime * share q pool.length i := by
          rw [hsum]
          apply Finset.sum_congr rfl
          intro i hi
          obtain ⟨s, hs, hl⟩ := hat i hi
          exact hl.all_sent hT (hfin s hs)
      _ = c.runtime * q := sum_rates c.runtime q hn

/-- With more threads than queries per second the thread served first gets rate 0. -/
theorem not_loadKept {pool : List (SenderThread c)} {q : Int} (hq : 0 ≤ q) (hlt : q < pool.length) :
    ¬ LoadKept pool q := by
  intro h
  obtain ⟨pool', hstart, hkept⟩ := h
  obtain ⟨_, hstart', -, hget⟩ := startRun_get pool hq
  obtain rfl : pool' = _ := Option.some.inj (hstart.symm.trans hstart')
  have hn : 0 < pool.length := by omega
  have hfirst := hget 0 pool[0] (List.getElem?_eq_getElem hn)
  have hrate : share q pool.length (0 : Nat) = 0 := by
    rw [Nat.cast_zero, share_first q (by omega), Int.ediv_eq_zero_of_lt hq hlt]
  rw [hrate] at hfirst
  have hzero : (pool[0].setQueryRate 0).queryrate ≤ 0 := le_refl _
  obtain ⟨es, s, hr, hflood⟩ := SenderThread.reach_flood hzero
  have hpool := hkept _ _ (hr.lift hfirst)
  exact hpool.1 s (List.mem_set (List.getElem?_eq_some_iff.mp hfirst).1 s) hflood

/-- **When the configured load is kept**, over both levels of splitting: there are at most as
    many threads as queries per second. -/
theorem load_kept_iff (pool : List (SenderThread c)) (q : Int) (hn : 1 ≤ pool.length)
    (hR : 1 ≤ c.runtime) (hT : 1 ≤ c.slices) (hq : 0 < q) :
    LoadKept pool q ↔ (pool.length : Int) ≤ q := by
  refine ⟨?_, ?_⟩
  · intro h
    by_contra hlt
    exact not_loadKept (Int.le_of_lt hq) (by omega) h
  · exact loadKept_of_le hn hR hT hq

theorem load_kept_iff_two_threads :
    LoadKept [SenderThread.new Config.default, SenderThread.new Config.default] 3 ↔ (2 : Int) ≤ 3 :=
  load_kept_iff [SenderThread.new Config.default, SenderThread.new Config.default] 3 (by decide) (by decide)
    (by decide +kernel) (by decide)

/-- One query per second over two threads: the first of them floods. -/
theorem one_query_two_threads_floods :
    ¬ LoadKept [SenderThread.new Config.default, SenderThread.new Config.default] 1 :=
  not_loadKept (by decide) (by decide)

end UdpPingPong
