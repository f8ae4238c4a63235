import UdpPingPong.Bouncer.Start

/- Calls of `UDPEchoBouncer::start` and `stop`, one after the other.

   A call is an event; what the operating system answers during a `start` is part of
   the event.

   1. `Bouncer`: the bouncer over the settings of its workers;
   2. `failed_start_stops_iff`: after every call of a history the bouncer is running
      with the requested workers, or stopped, exactly when no `start` fails behind
      `createSocket`. -/
namespace UdpPingPong

open Exec Wire

/-- A worker as the bouncer holds it; it counts as started when `threadStart` has returned. -/
structure PoolWorker where
  noEcho : Bool
  packetSize : ResponseSize
  sockfd : Int
  started : Bool
  deriving DecidableEq

/-- A `UDPEchoBouncer` over the settings of its workers. -/
abbrev Bouncer := BouncerOf PoolWorker ResponseSize

/-- The calls of a history. -/
inductive Call where
  | stop
  | start (numThreads : Nat) (answer : StartAnswer)

namespace Bouncer

/-- A bouncer as its constructor and its setters leave it. -/
def new (packetSize : ResponseSize) (noEcho : Bool) : Bouncer :=
  { pool := [], poolLocked := false, sockfd := 0, packetSize, noEcho, running := false }

/-- A bound worker with the bouncer's settings. -/
def newWorker (b : Bouncer) (sockfd : Int) : PoolWorker :=
  { noEcho := b.noEcho, packetSize := b.packetSize, sockfd, started := false }

/-- `start`, and what it throws. -/
def start (b : Bouncer) (numThreads : Nat) (answer : StartAnswer) : Bouncer × Option Failure :=
  b.startWith (fun b _ sockfd => newWorker b sockfd) (fun w => { w with started := true }) numThreads answer

def call (b : Bouncer) : Call → Bouncer × Option Failure
  | .stop => b.stop
  | .start numThreads answer => start b numThreads answer

/-- A call always comes back. -/
def step (b : Bouncer) (c : Call) : Option Bouncer := some (b.call c).1

/-- The state `stop` establishes. -/
def Stopped (b : Bouncer) : Prop := b.running = false ∧ b.pool = [] ∧ b.sockfd = 0

/-- The pool holds the workers the call asked for, all of them started. -/
def HoldsRequested : Call → List PoolWorker → Prop
  | .stop, _ => False
  | .start numThreads _, pool => pool.length = requested numThreads ∧ ∀ w ∈ pool, w.started = true

/-- What should hold after the call `c` in state `b`: if it threw, the bouncer is stopped; it is
    running exactly with the requested workers, and else its pool is empty. -/
def Consistent (b : Bouncer) (c : Call) : Prop :=
  ((b.call c).2 ≠ none → Stopped (b.call c).1) ∧
    ((b.call c).1.running = true ↔ HoldsRequested c (b.call c).1.pool) ∧
    ((b.call c).1.running = false → (b.call c).1.pool = [])

/-- A `start` that gets its control socket, and then fails: one of its workers cannot be bound, or
    one of its threads cannot be created. -/
def FailsLate : Call → Prop
  | .stop => False
  | .start numThreads answer => answer.socket ≠ 0 ∧
      ∃ i < requested numThreads, ¬ Bound (answer.bind i) ∨ answer.threadCreated i = false

variable {b : Bouncer}

theorem start_cases (hb : b.poolLocked = false) (n : Nat) (a : StartAnswer) :
    BouncerOf.StartCase (fun b _ sockfd => newWorker b sockfd) (fun w => { w with started := true }) b n a
      (start b n a) :=
  BouncerOf.startWith_cases hb n a

/-- One call from a bouncer whose pool is not locked. -/
theorem consistent_iff (hb : b.poolLocked = false) (c : Call) : Consistent b c ↔ ¬ FailsLate c := by
  cases c with
  | stop =>
    simp only [Consistent, call, BouncerOf.stop_unlocked hb, FailsLate, HoldsRequested]
    simp
  | start n a =>
    have hpos : 0 < requested n := by
      unfold requested
      split <;> omega
    have hstart := start_cases hb n a
    simp only [Consistent, call]
    generalize start b n a = r at hstart ⊢
    cases hstart with
    | noSocket hs =>
      simp only [FailsLate, HoldsRequested, Stopped, hs]
      simp
      omega
    | bindFails ws e hs i hi hbind hmade =>
      have hlate : FailsLate (.start n a) := ⟨hs, i, hi, .inl hbind⟩
      simp [Stopped, hs, hlate]
    | threadFails ws hs i hi hcreated hmade =>
      have hlate : FailsLate (.start n a) := ⟨hs, i, hi, .inr hcreated⟩
      simp [Stopped, hs, hlate]
    | started ws hs hlen hall hmade =>
      have hstarted : ∀ w ∈ ws, w.started = true := by
        intro w hw
        obtain ⟨v, -, rfl⟩ := hmade w hw
        rfl
      have hnot : ¬ FailsLate (.start n a) := by
        intro h
        obtain ⟨-, i, hi, hf⟩ := h
        obtain ⟨hbound, hcreated⟩ := hall i hi
        rcases hf with hf | hf
        · exact hf hbound
        · rw [hcreated] at hf
          cases hf
      simp only [HoldsRequested, hlen]
      simpa [hnot] using hstarted

/-- A call that does not fail late leaves the pool's mutex free. -/
theorem call_unlocked (hb : b.poolLocked = false) {c : Call} (hc : ¬ FailsLate c) :
    (b.call c).1.poolLocked = false := by
  cases c with
  | stop =>
    rw [call, BouncerOf.stop_unlocked hb]
    exact hb
  | start n a =>
    have hstart := start_cases hb n a
    rw [call]
    generalize start b n a = r at hstart ⊢
    cases hstart with
    | noSocket hs => exact hb
    | bindFails ws e hs i hi hbind hmade => exact hb
    | threadFails ws hs i hi hcreated hmade => exact absurd ⟨hs, i, hi, .inr hcreated⟩ hc
    | started ws hs hlen hall hmade => exact hb

end Bouncer

/-- **When every failed start leaves the bouncer stopped**: for every history of `start` and `stop`
    calls, each call leaves the bouncer running with the requested workers or stopped, exactly when
    no `start` of the history fails after it got its control socket. -/
theorem failed_start_stops_iff (packetSize : ResponseSize) (noEcho : Bool) (cs : List Call) :
    Along Bouncer.step Bouncer.Consistent (Bouncer.new packetSize noEcho) cs ↔
      ∀ c ∈ cs, ¬ Bouncer.FailsLate c := by
  have hfree : ∀ (cs : List Call) (b : Bouncer), b.poolLocked = false →
      (Along Bouncer.step Bouncer.Consistent b cs ↔ ∀ c ∈ cs, ¬ Bouncer.FailsLate c) := by
    intro cs
    induction cs with
    | nil => simp [Along]
    | cons c cs ih =>
      intro b hb
      simp only [Along, Bouncer.step, Option.some.injEq, forall_eq', List.mem_cons, forall_eq_or_imp]
      rw [Bouncer.consistent_iff hb c]
      refine ⟨?_, ?_⟩
      · intro h
        obtain ⟨hc, hcs⟩ := h
        exact ⟨hc, (ih _ (Bouncer.call_unlocked hb hc)).mp hcs⟩
      · intro h
        obtain ⟨hc, hcs⟩ := h
        exact ⟨hc, (ih _ (Bouncer.call_unlocked hb hc)).mpr hcs⟩
  exact hfree cs _ rfl

/-- Two workers are asked for, the second one finds the address in use. -/
def secondBindFails : StartAnswer :=
  { socket := 3, bind := fun i => if i = 0 then ⟨4, 0, 0⟩ else ⟨5, -1, 0⟩, threadCreated := fun _ => true }

/-- The failed start leaves one worker in the pool, and the control socket open. -/
theorem second_bind_fails_leaves_worker :
    ¬ ∀ cs, Along Bouncer.step Bouncer.Consistent (Bouncer.new ⟨0, .inl rfl⟩ false) cs := by
  intro h
  obtain ⟨⟨hfail, -, -⟩, -⟩ := h [.start 2 secondBindFails]
  exact absurd (hfail (by decide)).2.1 (by decide)

end UdpPingPong
