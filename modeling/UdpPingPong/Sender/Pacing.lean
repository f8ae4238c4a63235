import Mathlib.Algebra.Order.Floor.Ring
import Mathlib.Data.Rat.Floor
import Mathlib.Tactic.Linarith
import UdpPingPong.Lib.Exec
import UdpPingPong.Lib.Greedy

/- The pacing loop of a sender thread, `UDPEchoSenderThread::runWithRateLimit`.

   The loop is a state machine: `Pacer` holds its local variables and `Pacer.pc`
   the place where it next touches its environment. An event `Ev` is one such
   touch: a clock reading, a `sendPacket` call, a `nanosleep`, the answer of
   `threadShouldStop`. `Pacer.step` runs the code from one touch to the next, so
   a list of events is one execution under one clock, one sleep behaviour and one
   pattern of stop requests, and every execution is such a list.

   Clock readings and everything computed from them are exact (`ℚ`), as the
   source's `double` values are not. The 64-bit products of the source are `Int`:
   `runtime` and the rates of `UDPSender::run` are C `int`s, whose product fits.

   What is proved:
   1. `Pacer.run_inv`: after every execution the packets sent, the packets left and
      the quota of the slice in progress are what `Greedy.dealt` and `Greedy.share`
      say, and the division by the slices left is never by zero;
   2. `even_pacing_iff`: after every whole number of slices the packets sent are
      within one of the proportional share exactly when `runtime * queryrate`
      leaves 0, 1 or `T - 1` modulo the number of slices `T`. -/
namespace UdpPingPong

open Exec Greedy

/-- One touch of a sender thread on its environment, with what it reads. -/
inductive Ev where
  | getNsec (t : ℚ)
  | getMicrotime (t : ℚ)
  | sendPacket
  | nanosleep
  | mSleep
  | threadShouldStop (stop : Bool)
  | socketReady (ready : Bool)
  deriving DecidableEq, Repr

/-- `a / b` on C++ integers: rounded toward zero, and no value for a zero divisor. -/
def cdiv (a b : Int) : Option Int := if b = 0 then none else some (a.tdiv b)

/-- Conversion of an exact number to an integer type: the fraction is cut off. -/
def trunc (x : ℚ) : Int := if 0 ≤ x then ⌊x⌋ else ⌈x⌉

/-- An `int` product, on 32 bits. -/
def mulInt (a b : Int) : Int := (a * b).bmod (2 ^ 32)

/-- What `runWithRateLimit` works with: the fields of the thread object it reads and
    the slice count it computes from them. -/
structure Plan where
  runtime : Int
  queryrate : Int
  zeitscheibe : ℚ
  totalZeitscheiben : Int
  verbose : Bool := false

/-- The plan of a thread object: `runtime*1000/(Zeitscheibe*1000.0)` slices. -/
def Plan.ofThread (runtime queryrate : Int) (zeitscheibe : ℚ) (verbose : Bool) : Plan :=
  { runtime, queryrate, zeitscheibe, verbose
    totalZeitscheiben := trunc (mulInt runtime 1000 / (zeitscheibe * 1000)) }

/-- The packets of the whole run. -/
def Plan.queries (c : Plan) : Int := c.runtime * c.queryrate

/-- Where the loop next touches its environment. `left` is a `break`, `done` the end of
    the `for` loop, `fault` a division by zero. -/
inductive Pc where
  | readNow | readStart | sending | waiting | sleeping | checkStop | checkEnd
  | left | done | fault
  deriving DecidableEq, Repr

/-- The local variables of `runWithRateLimit`. -/
structure Pacer where
  pc : Pc
  z : Int
  queriesRest : Int
  queriesProZeitscheibe : Int
  i : Int
  now : ℚ
  naechsteZeitscheibe : ℚ
  nextChecktime : ℚ
  endTime : ℚ
  totalIdle : ℚ
  tvNsec : Int
  deriving DecidableEq, Repr

namespace Pacer

/-- Up to the first clock reading. The verbose output divides by the slice count. -/
def init (c : Plan) : Pacer :=
  { pc := if c.verbose ∧ cdiv c.queries c.totalZeitscheiben = none then .fault else .readNow
    z := 0, queriesRest := c.queries, queriesProZeitscheibe := 0, i := 0, now := 0
    naechsteZeitscheibe := 0, nextChecktime := 0, endTime := 0, totalIdle := 0, tvNsec := 0 }

/-- The test of the packet loop: one more `sendPacket`, or on to the wait loop. -/
def sendLoop (s : Pacer) : Pacer :=
  if s.i < s.queriesProZeitscheibe then { s with pc := .sending }
  else { s with pc := .waiting, queriesRest := s.queriesRest - s.queriesProZeitscheibe }

/-- The test of the slice loop and the head of its body. -/
def sliceLoop (c : Plan) (s : Pacer) : Pacer :=
  if s.z < c.totalZeitscheiben then
    let restscheiben := c.totalZeitscheiben - s.z
    match cdiv s.queriesRest restscheiben with
    | none => { s with pc := .fault }
    | some q => sendLoop { s with
        naechsteZeitscheibe := s.naechsteZeitscheibe + c.zeitscheibe
        queriesProZeitscheibe := if restscheiben = 1 then s.queriesRest else q
        i := 0 }
  else { s with pc := .done }

/-- The next slice. -/
def nextSlice (c : Plan) (s : Pacer) : Pacer := sliceLoop c { s with z := s.z + 1 }

/-- The wait loop has read `t`: sleep on, or leave it for the stop check. -/
def waitLoop (c : Plan) (s : Pacer) (t : ℚ) : Pacer :=
  if t < s.naechsteZeitscheibe then
    { s with pc := .sleeping, now := t
             totalIdle := s.totalIdle + (s.naechsteZeitscheibe - t)
             tvNsec := trunc ((s.naechsteZeitscheibe - t) * 1000000000) }
  else if s.nextChecktime < t then { s with pc := .checkStop, now := t, nextChecktime := t + 1 / 10 }
  else nextSlice c { s with now := t }

/-- From one touch of the environment to the next. -/
def step (c : Plan) (s : Pacer) (e : Ev) : Option Pacer :=
  match s.pc, e with
  | .readNow, .getNsec t =>
    some { s with pc := .readStart, now := t, naechsteZeitscheibe := t, nextChecktime := t + 1 / 10 }
  | .readStart, .getMicrotime t => some (sliceLoop c { s with endTime := t + c.runtime })
  | .sending, .sendPacket => some (sendLoop { s with i := s.i + 1 })
  | .waiting, .getNsec t => some (waitLoop c s t)
  | .sleeping, .nanosleep => some { s with pc := .waiting }
  | .checkStop, .threadShouldStop b => some { s with pc := if b then .left else .checkEnd }
  | .checkEnd, .getMicrotime t => some (if s.endTime ≤ t then { s with pc := .left } else nextSlice c s)
  | _, _ => none

/-- How many slices are over: all their packets are handed to `sendPacket`. -/
def slicesOver (s : Pacer) : Int :=
  match s.pc with
  | .waiting | .sleeping | .checkStop | .checkEnd | .left => s.z + 1
  | _ => s.z

/-- Between two slices: a whole number of slices is over, and the loop was not left. -/
def AtBoundary (s : Pacer) : Prop := s.pc ≠ .sending ∧ s.pc ≠ .left ∧ s.pc ≠ .fault

end Pacer

/-- The `sendPacket` calls among the events. -/
def sends (es : List Ev) : Nat := es.count .sendPacket

theorem sends_snoc (es : List Ev) (e : Ev) :
    sends (es ++ [e]) = sends es + if e = .sendPacket then 1 else 0 := by
  simp [sends, List.count_singleton]

namespace Pacer

variable {c : Plan} {s s' : Pacer} {e : Ev}

/-- Everything one step can do, by where the loop stands. -/
inductive StepCase (c : Plan) (s : Pacer) : Ev → Pacer → Prop
  | readNow (t : ℚ) (hpc : s.pc = .readNow) : StepCase c s (.getNsec t)
      { s with pc := .readStart, now := t, naechsteZeitscheibe := t, nextChecktime := t + 1 / 10 }
  | readStart (t : ℚ) (hpc : s.pc = .readStart) :
      StepCase c s (.getMicrotime t) (sliceLoop c { s with endTime := t + c.runtime })
  | sending (hpc : s.pc = .sending) : StepCase c s .sendPacket (sendLoop { s with i := s.i + 1 })
  | waiting (t : ℚ) (hpc : s.pc = .waiting) : StepCase c s (.getNsec t) (waitLoop c s t)
  | sleeping (hpc : s.pc = .sleeping) : StepCase c s .nanosleep { s with pc := .waiting }
  | checkStop (b : Bool) (hpc : s.pc = .checkStop) :
      StepCase c s (.threadShouldStop b) { s with pc := if b then .left else .checkEnd }
  | checkEnd (t : ℚ) (hpc : s.pc = .checkEnd) : StepCase c s (.getMicrotime t)
      (if s.endTime ≤ t then { s with pc := .left } else nextSlice c s)

theorem step_cases (h : step c s e = some s') : StepCase c s e s' := by
  unfold step at h
  split at h <;> cases h
  · next t hpc => exact .readNow t hpc
  · next t hpc => exact .readStart t hpc
  · next hpc => exact .sending hpc
  · next t hpc => exact .waiting t hpc
  · next hpc => exact .sleeping hpc
  · next b hpc => exact .checkStop b hpc
  · next t hpc => exact .checkEnd t hpc

/-! ## What is sent, and what is left -/

/-- What `n` sent packets mean for the variables of the loop: the slices that are over got
    their `Greedy.dealt`, the slice in progress has its `Greedy.share` as quota. -/
structure Inv (c : Plan) (n : Int) (s : Pacer) : Prop where
  over_nonneg : 0 ≤ s.slicesOver
  over_le : s.slicesOver ≤ c.totalZeitscheiben
  rest : s.queriesRest = c.queries - dealt c.queries c.totalZeitscheiben s.slicesOver
  sent : n = dealt c.queries c.totalZeitscheiben s.slicesOver + if s.pc = .sending then s.i else 0
  quota : s.pc = .sending → s.z < c.totalZeitscheiben ∧ 0 ≤ s.i ∧ s.i < s.queriesProZeitscheibe ∧
    s.queriesProZeitscheibe = share c.queries c.totalZeitscheiben s.z
  end_of_loop : s.pc = .done → s.z = c.totalZeitscheiben
  no_fault : s.pc ≠ .fault

theorem sendLoop_inv (h0 : 0 ≤ s.z) (hz : s.z < c.totalZeitscheiben)
    (hrest : s.queriesRest = c.queries - dealt c.queries c.totalZeitscheiben s.z)
    (hq : s.queriesProZeitscheibe = share c.queries c.totalZeitscheiben s.z)
    (hi : 0 ≤ s.i) (hle : s.i ≤ s.queriesProZeitscheibe) :
    Inv c (dealt c.queries c.totalZeitscheiben s.z + s.i) (sendLoop s) := by
  unfold sendLoop
  split
  · next hlt =>
    exact ⟨h0, Int.le_of_lt hz, hrest, by simp [slicesOver], fun _ => ⟨hz, hi, hlt, hq⟩,
      by simp, by simp⟩
  · next hlt =>
    have hend : s.i = share c.queries c.totalZeitscheiben s.z := by omega
    have hsucc := dealt_succ c.queries c.totalZeitscheiben s.z
    refine ⟨?_, ?_, ?_, ?_, by simp, by simp, by simp⟩
    · simp only [slicesOver]; omega
    · simp only [slicesOver]; omega
    · simp only [slicesOver]; omega
    · simp only [slicesOver, reduceCtorEq, if_false]; omega

theorem sliceLoop_inv (hQ : 0 ≤ c.queries) (hT : 0 < c.totalZeitscheiben)
    (h0 : 0 ≤ s.z) (hz : s.z ≤ c.totalZeitscheiben)
    (hrest : s.queriesRest = c.queries - dealt c.queries c.totalZeitscheiben s.z) :
    Inv c (dealt c.queries c.totalZeitscheiben s.z) (sliceLoop c s) := by
  unfold sliceLoop
  split
  · next hlt =>
    have hstep := tdiv_left hQ h0 hlt
    have hdiv : cdiv s.queriesRest (c.totalZeitscheiben - s.z) =
        some (share c.queries c.totalZeitscheiben s.z) := by
      rw [cdiv, if_neg (by omega), hrest, hstep]
    simp only [hdiv]
    have hlast : c.totalZeitscheiben - s.z = 1 →
        s.queriesRest = share c.queries c.totalZeitscheiben s.z := by
      intro h1
      rw [← hstep, ← hrest, h1, Int.tdiv_one]
    have hquota : (if c.totalZeitscheiben - s.z = 1 then s.queriesRest
        else share c.queries c.totalZeitscheiben s.z) = share c.queries c.totalZeitscheiben s.z := by
      split
      · next h1 => exact hlast h1
      · rfl
    rw [hquota]
    have hshare := share_nonneg hQ hT s.z
    have h := sendLoop_inv (c := c) (s := { s with
        naechsteZeitscheibe := s.naechsteZeitscheibe + c.zeitscheibe
        queriesProZeitscheibe := share c.queries c.totalZeitscheiben s.z
        i := 0 }) h0 hlt hrest rfl (le_refl _) hshare
    simpa using h
  · next hlt =>
    exact ⟨h0, hz, hrest, by simp [slicesOver], by simp, fun _ => by simp only; omega, by simp⟩

theorem nextSlice_inv (hQ : 0 ≤ c.queries) (hT : 0 < c.totalZeitscheiben)
    (h0 : 0 ≤ s.z + 1) (hz : s.z + 1 ≤ c.totalZeitscheiben)
    (hrest : s.queriesRest = c.queries - dealt c.queries c.totalZeitscheiben (s.z + 1)) :
    Inv c (dealt c.queries c.totalZeitscheiben (s.z + 1)) (nextSlice c s) :=
  sliceLoop_inv (s := { s with z := s.z + 1 }) hQ hT h0 hz hrest

/-- One step: `sendPacket` counts one packet, nothing else does. -/
theorem step_inv {n : Int} (hQ : 0 ≤ c.queries) (hT : 0 < c.totalZeitscheiben)
    (h : step c s e = some s') (hi : Inv c n s) :
    Inv c (n + if e = .sendPacket then 1 else 0) s' := by
  obtain ⟨h0, hle, hrest, hsent, hquota, -, -⟩ := hi
  cases step_cases h with
  | readNow t hpc =>
    simp only [slicesOver, hpc, reduceCtorEq, if_false, Int.add_zero] at h0 hle hrest hsent ⊢
    exact ⟨h0, hle, hrest, by simpa [slicesOver] using hsent, by simp, by simp, by simp⟩
  | readStart t hpc =>
    simp only [slicesOver, hpc, reduceCtorEq, if_false, Int.add_zero] at h0 hle hrest hsent ⊢
    rw [hsent]
    exact sliceLoop_inv (s := { s with pc := .readStart, endTime := t + c.runtime }) hQ hT h0 hle hrest
  | sending hpc =>
    simp only [slicesOver, hpc, if_true] at h0 hle hrest hsent ⊢
    obtain ⟨hz, hi0, hlt, hq⟩ := hquota hpc
    rw [hsent, Int.add_assoc]
    apply sendLoop_inv (s := { s with i := s.i + 1 }) h0 hz hrest hq
    · show 0 ≤ s.i + 1
      omega
    · show s.i + 1 ≤ s.queriesProZeitscheibe
      omega
  | waiting t hpc =>
    simp only [slicesOver, hpc, reduceCtorEq, if_false, Int.add_zero] at h0 hle hrest hsent ⊢
    rw [hsent]
    unfold waitLoop
    split
    · exact ⟨h0, hle, hrest, by simp [slicesOver], by simp, by simp, by simp⟩
    · split
      · exact ⟨h0, hle, hrest, by simp [slicesOver], by simp, by simp, by simp⟩
      · exact nextSlice_inv (s := { s with now := t }) hQ hT h0 hle hrest
  | sleeping hpc =>
    simp only [slicesOver, hpc, reduceCtorEq, if_false, Int.add_zero] at h0 hle hrest hsent ⊢
    exact ⟨h0, hle, hrest, by simpa [slicesOver] using hsent, by simp, by simp, by simp⟩
  | checkStop b hpc =>
    simp only [slicesOver, hpc, reduceCtorEq, if_false, Int.add_zero] at h0 hle hrest hsent ⊢
    cases b <;> exact ⟨h0, hle, hrest, by simpa [slicesOver] using hsent, by simp, by simp, by simp⟩
  | checkEnd t hpc =>
    simp only [slicesOver, hpc, reduceCtorEq, if_false, Int.add_zero] at h0 hle hrest hsent ⊢
    rw [hsent]
    split
    · exact ⟨h0, hle, hrest, by simp [slicesOver], by simp, by simp, by simp⟩
    · exact nextSlice_inv hQ hT h0 hle hrest

theorem init_inv (hT : 0 < c.totalZeitscheiben) : Inv c 0 (init c) := by
  have hpc : (init c).pc = .readNow := by
    simp only [init, cdiv, if_neg (Int.ne_of_gt hT), reduceCtorEq, and_false, if_false]
  refine ⟨?_, ?_, ?_, ?_, ?_, ?_, ?_⟩ <;> simp [slicesOver, hpc] <;> simp [init, hT, Int.le_of_lt hT]

/-- **The loop over a whole run**, for every clock and every pattern of stop requests. -/
theorem run_inv (hQ : 0 ≤ c.queries) (hT : 0 < c.totalZeitscheiben) {es : List Ev}
    (h : Runs (step c) (init c) es s) : Inv c (sends es) s := by
  apply Runs.trace_induct (P := fun es s => Inv c (sends es) s) (init_inv hT) _ h
  intro es s e s' _ hi hs
  rw [sends_snoc]
  have := step_inv hQ hT hs hi
  split at this <;> simp_all

/-- Never more than the plan's packets are sent. -/
theorem Inv.sent_le {n : Int} (hQ : 0 ≤ c.queries) (hT : 0 < c.totalZeitscheiben) (h : Inv c n s) :
    n ≤ c.queries := by
  have hsent := h.sent
  by_cases hs : s.pc = .sending
  · obtain ⟨hz, -, hlt, hq⟩ := h.quota hs
    have hsucc := dealt_succ c.queries c.totalZeitscheiben s.z
    have hleft := left_nonneg hQ hT (show s.z + 1 ≤ c.totalZeitscheiben by omega)
    simp only [slicesOver, hs, if_true] at hsent
    omega
  · have hleft := left_nonneg hQ hT h.over_le
    rw [if_neg hs] at hsent
    omega

/-- When all slices are over, all packets are sent. -/
theorem Inv.all_sent {n : Int} (hT : 0 < c.totalZeitscheiben) (h : Inv c n s)
    (hover : s.slicesOver = c.totalZeitscheiben) : n = c.queries := by
  have hs : s.pc ≠ .sending := by
    intro hs
    have hz := (h.quota hs).1
    simp only [slicesOver, hs] at hover
    omega
  have hsent := h.sent
  rw [hover, dealt_self hT, if_neg hs] at hsent
  omega

/-! ## Even pacing -/

/-- From inside a packet loop some events lead to its end. -/
theorem drain (hpc : s.pc = .sending ∨ s.pc = .waiting) :
    ∃ es s', Runs (step c) s es s' ∧ s'.pc = .waiting ∧ s'.z = s.z := by
  induction hm : (s.queriesProZeitscheibe - s.i).toNat using Nat.strong_induction_on generalizing s with
  | _ m ih =>
    rcases hpc with hsending | hwaiting
    · have hs : step c s .sendPacket = some (sendLoop { s with i := s.i + 1 }) := by simp [step, hsending]
      by_cases hlt : s.i + 1 < s.queriesProZeitscheibe
      · have hmore : sendLoop { s with i := s.i + 1 } = { s with i := s.i + 1, pc := .sending } := by
          rw [sendLoop, if_pos hlt]
        have hless : (s.queriesProZeitscheibe - (s.i + 1)).toNat < m := by omega
        obtain ⟨es, s', hr, hpc', hz⟩ := ih _ hless (s := { s with i := s.i + 1, pc := .sending }) (.inl rfl) rfl
        exact ⟨.sendPacket :: es, s', runs_cons.mpr ⟨_, hs, hmore ▸ hr⟩, hpc', hz⟩
      · refine ⟨_, _, Runs.single hs, ?_, ?_⟩ <;> rw [sendLoop, if_neg hlt]
    · exact ⟨[], s, runs_nil.mpr rfl, hwaiting, rfl⟩

theorem sendLoop_pc (s : Pacer) :
    ((sendLoop s).pc = .sending ∨ (sendLoop s).pc = .waiting) ∧ (sendLoop s).z = s.z := by
  unfold sendLoop
  split <;> simp

/-- From the head of a slice some events lead past its packets. -/
theorem slice_runs (hz : s.z < c.totalZeitscheiben) :
    ∃ es s', Runs (step c) (sliceLoop c s) es s' ∧ s'.pc = .waiting ∧ s'.z = s.z := by
  have hne : c.totalZeitscheiben - s.z ≠ 0 := by omega
  rw [sliceLoop, if_pos hz]
  simp only [cdiv, if_neg hne]
  generalize hu : Pacer.mk _ _ _ _ _ _ _ _ _ _ _ = u
  have huz : u.z = s.z := by rw [← hu]
  obtain ⟨hpc, hsz⟩ := sendLoop_pc u
  obtain ⟨es, s', hr, hpc', hz'⟩ := drain (c := c) hpc
  exact ⟨es, s', hr, hpc', by rw [hz', hsz, huz]⟩

/-- From the stop check some events lead to the head of the next slice: nobody asks to stop,
    and the run time is not over. -/
theorem check_runs (hpc : s.pc = .checkStop) :
    ∃ es u, Runs (step c) s es (sliceLoop c u) ∧ u.z = s.z + 1 := by
  refine ⟨[.threadShouldStop false, .getMicrotime (s.endTime - 1)],
    { s with pc := .checkEnd, z := s.z + 1 }, runs_cons.mpr ⟨{ s with pc := .checkEnd }, ?_, Runs.single ?_⟩, rfl⟩
  · simp [step, hpc]
  · simp only [step]
    rw [if_neg (by linarith), nextSlice]

/-- From the wait loop of a slice some events lead to the head of the next one: the clock
    reads the deadline, and the stop check lets the loop go on. -/
theorem wait_runs (hpc : s.pc = .waiting) :
    ∃ es u, Runs (step c) s es (sliceLoop c u) ∧ u.z = s.z + 1 := by
  have hs : step c s (.getNsec s.naechsteZeitscheibe) = some (waitLoop c s s.naechsteZeitscheibe) := by
    simp [step, hpc]
  rw [waitLoop, if_neg (lt_irrefl _)] at hs
  split at hs
  · obtain ⟨es, u, hr, hz⟩ := check_runs (c := c) (s := { s with
      pc := .checkStop, now := s.naechsteZeitscheibe, nextChecktime := s.naechsteZeitscheibe + 1 / 10 }) rfl
    exact ⟨_, u, runs_cons.mpr ⟨_, hs, hr⟩, hz⟩
  · exact ⟨_, _, Runs.single hs, rfl⟩

theorem init_pc (hT : 0 < c.totalZeitscheiben) : (init c).pc = .readNow := by
  simp only [init, cdiv, if_neg (Int.ne_of_gt hT), reduceCtorEq, and_false, if_false]

/-- Every slice can be reached. -/
theorem reach_slice (hT : 0 < c.totalZeitscheiben) : ∀ m : Nat, (m : Int) < c.totalZeitscheiben →
    ∃ es s, Runs (step c) (init c) es s ∧ s.pc = .waiting ∧ s.z = m := by
  intro m
  induction m with
  | zero =>
    intro hm
    have h1 : step c (init c) (.getNsec 0) = some { init c with
        pc := .readStart, now := 0, naechsteZeitscheibe := 0, nextChecktime := 0 + 1 / 10 } := by
      simp [step, init_pc hT]
    obtain ⟨es, s, hr, hpc, hz⟩ := slice_runs (c := c) (s := { init c with
      pc := .readStart, now := 0, naechsteZeitscheibe := 0, nextChecktime := 0 + 1 / 10
      endTime := 0 + c.runtime }) hm
    exact ⟨.getNsec 0 :: .getMicrotime 0 :: es, s, runs_cons.mpr ⟨_, h1, runs_cons.mpr ⟨_, rfl, hr⟩⟩, hpc, hz⟩
  | succ m ih =>
    intro hm
    obtain ⟨es, s, hr, hpc, hz⟩ := ih (by omega)
    obtain ⟨fs, u, hr', hu⟩ := wait_runs (c := c) hpc
    obtain ⟨gs, v, hr'', hpc', hz'⟩ := slice_runs (c := c) (s := u) (by omega)
    exact ⟨_, v, (hr.append hr').append hr'', hpc', by push_cast; omega⟩

theorem reach_boundary (hT : 0 < c.totalZeitscheiben) {k : Int} (h0 : 0 ≤ k)
    (hk : k ≤ c.totalZeitscheiben) :
    ∃ es s, Runs (step c) (init c) es s ∧ s.AtBoundary ∧ s.slicesOver = k := by
  by_cases hz : k = 0
  · refine ⟨[], init c, runs_nil.mpr rfl, ?_, ?_⟩
    · simp [AtBoundary, init_pc hT]
    · simp only [slicesOver, init_pc hT]
      exact hz.symm
  · obtain ⟨es, s, hr, hpc, hs⟩ := reach_slice hT (k - 1).toNat (by omega)
    refine ⟨es, s, hr, by simp [AtBoundary, hpc], ?_⟩
    simp only [slicesOver, hpc]
    omega

/-- At a boundary exactly the dealt packets are sent. -/
theorem sends_at_boundary (hQ : 0 ≤ c.queries) (hT : 0 < c.totalZeitscheiben) {es : List Ev}
    (h : Runs (step c) (init c) es s) (hb : s.AtBoundary) :
    (sends es : Int) = dealt c.queries c.totalZeitscheiben s.slicesOver := by
  have hi := run_inv hQ hT h
  rw [hi.sent, if_neg hb.1, Int.add_zero]

end Pacer

/-- **Even pacing**, with `T` slices and `Q = runtime * queryrate` packets: in every run that
    is not left early, after every whole number `k` of slices the packets `S` handed to
    `sendPacket` are within one of the proportional share, `|S * T - k * Q| < T`, exactly
    when `Q` leaves 0, 1 or `T - 1` modulo `T`. Otherwise the greedy quotas put off the
    remainder until the last `Q % T` slices. -/
theorem even_pacing_iff (c : Plan) (hR : 1 ≤ c.runtime) (hq : 0 < c.queryrate)
    (hT : 1 ≤ c.totalZeitscheiben) :
    (∀ es s, Runs (Pacer.step c) (Pacer.init c) es s → s.AtBoundary →
      |sends es * c.totalZeitscheiben - s.slicesOver * c.queries| < c.totalZeitscheiben) ↔
    c.queries % c.totalZeitscheiben = 0 ∨ c.queries % c.totalZeitscheiben = 1 ∨
      c.queries % c.totalZeitscheiben = c.totalZeitscheiben - 1 := by
  have hQ : 0 ≤ c.queries := Int.mul_nonneg (by omega) (Int.le_of_lt hq)
  rw [← even_iff c.queries hT]
  refine ⟨?_, ?_⟩
  · intro h k h0 hk
    obtain ⟨es, s, hr, hb, rfl⟩ := Pacer.reach_boundary hT h0 hk
    have := h es s hr hb
    rwa [Pacer.sends_at_boundary hQ hT hr hb] at this
  · intro h es s hr hb
    have hi := Pacer.run_inv hQ hT hr
    rw [Pacer.sends_at_boundary hQ hT hr hb]
    exact h s.slicesOver hi.over_nonneg hi.over_le

theorem even_pacing_iff_three_slices :
    (∀ es s, Runs (Pacer.step ⟨1, 4, 1 / 3, 3, false⟩) (Pacer.init ⟨1, 4, 1 / 3, 3, false⟩) es s →
      s.AtBoundary → |(sends es : Int) * 3 - s.slicesOver * 4| < 3) ↔
    (4 : Int) % 3 = 0 ∨ (4 : Int) % 3 = 1 ∨ (4 : Int) % 3 = 3 - 1 :=
  even_pacing_iff ⟨1, 4, 1 / 3, 3, false⟩ (by decide) (by decide) (by decide)

/-- The plan of `-l 10 -i 1 -r 500`: ten seconds in slices of one millisecond. -/
def slowPlan : Plan := Plan.ofThread 10 500 (1 / 1000) false

/-- At 500 queries per second nothing is sent in the first five of the ten seconds. -/
theorem slow_plan_uneven :
    ¬ ∀ es s, Runs (Pacer.step slowPlan) (Pacer.init slowPlan) es s → s.AtBoundary →
      |sends es * slowPlan.totalZeitscheiben - s.slicesOver * slowPlan.queries| <
        slowPlan.totalZeitscheiben := by
  have hT : slowPlan.totalZeitscheiben = 10000 := by decide +kernel
  have hQ : slowPlan.queries = 5000 := by decide +kernel
  intro h
  obtain ⟨es, s, hr, hb, hk⟩ := Pacer.reach_boundary (c := slowPlan) (k := 5000) (by omega) (by omega)
    (by omega)
  have hs := Pacer.sends_at_boundary (by omega) (by omega) hr hb
  have hlt := h es s hr hb
  rw [hs, hk, hT, hQ] at hlt
  exact absurd hlt (by decide)

end UdpPingPong
