import UdpPingPong.Bouncer.Worker

/- The counters of a bouncer worker, read while it counts: `getAndClearCounter`
   against the assignments behind a reply in `UDPEchoBouncerThread::run`.

   Every assignment is one step. The reader holds the mutex from its copy to its
   last clear; the worker's `mutex.lock()` and `mutex.unlock()` are commented out, so
   its assignments can fall anywhere. Calls of `getAndClearCounter` exclude each
   other, so one reader that calls it again and again stands for all of them.

   1. `worker_alone`: undisturbed, the four assignments are `Worker.count`;
   2. `packets_balance`, `bytes_balance`: what is missing from the snapshots and the
      counter is what was added between the reader's copy and its clear of that field;
   3. `counts_conserved_iff`: nothing is lost exactly when no such addition happens. -/
namespace UdpPingPong

open Exec

/-- The worker's next assignment; `n` bytes of the datagram were read. -/
inductive WorkerPc where
  | recv
  | bytesSend (n : Nat)
  | packetsSend (n : Nat)
  | bytesReceived (n : Nat)
  | packetsReceived (n : Nat)
  deriving DecidableEq, Repr

/-- The reader's next action; from its copy on it holds the copied counter `ret`. -/
inductive ReaderPc where
  | lock
  | copy
  | packetsReceived (ret : EchoCounter)
  | packetsSend (ret : EchoCounter)
  | bytesReceived (ret : EchoCounter)
  | bytesSend (ret : EchoCounter)
  | unlock (ret : EchoCounter)
  deriving DecidableEq, Repr

/-- A worker and a reader at its counter. `snapshots` is what the calls have returned, `completed`
    the sizes of the datagrams whose assignments are all done. -/
structure Counting where
  counter : EchoCounter
  worker : WorkerPc
  reader : ReaderPc
  snapshots : List EchoCounter
  completed : List Nat
  deriving DecidableEq, Repr

/-- A datagram of which `n` bytes are read, the worker's next assignment, or the reader's next
    action. -/
inductive CountEv where
  | recv (n : Nat)
  | worker
  | reader
  deriving DecidableEq, Repr

namespace Counting

def init : Counting :=
  { counter := EchoCounter.zero, worker := .recv, reader := .lock, snapshots := [], completed := [] }

/-- The next assignment of `UDPEchoBouncerThread::run`. -/
def workerStep (noEcho : Bool) (s : Counting) : Option Counting :=
  match s.worker with
  | .recv => none
  | .bytesSend n => some { s with
      worker := .packetsSend n, counter := { s.counter with bytesSend := s.counter.bytesSend + n } }
  | .packetsSend n => some { s with
      worker := .bytesReceived n
      counter := if noEcho then s.counter else { s.counter with packetsSend := s.counter.packetsSend + 1 } }
  | .bytesReceived n => some { s with
      worker := .packetsReceived n
      counter := { s.counter with bytesReceived := s.counter.bytesReceived + n } }
  | .packetsReceived n => some { s with
      worker := .recv
      counter := { s.counter with packetsReceived := s.counter.packetsReceived + 1 }
      completed := s.completed ++ [n] }

/-- The next action of `getAndClearCounter`. -/
def readerStep (s : Counting) : Counting :=
  match s.reader with
  | .lock => { s with reader := .copy }
  | .copy => { s with reader := .packetsReceived s.counter }
  | .packetsReceived ret => { s with
      reader := .packetsSend ret, counter := { s.counter with packetsReceived := 0 } }
  | .packetsSend ret => { s with
      reader := .bytesReceived ret, counter := { s.counter with packetsSend := 0 } }
  | .bytesReceived ret => { s with
      reader := .bytesSend ret, counter := { s.counter with bytesReceived := 0 } }
  | .bytesSend ret => { s with reader := .unlock ret, counter := { s.counter with bytesSend := 0 } }
  | .unlock ret => { s with reader := .lock, snapshots := s.snapshots ++ [ret] }

def step (noEcho : Bool) (s : Counting) (e : CountEv) : Option Counting :=
  match e with
  | .recv n => if s.worker = .recv then some { s with worker := .bytesSend n } else none
  | .worker => s.workerStep noEcho
  | .reader => some s.readerStep

variable {noEcho : Bool} {s s' : Counting} {e : CountEv}

/-- Undisturbed, the worker's assignments count the datagram. -/
theorem worker_alone (hs : s.worker = .recv) (n : Nat) :
    Runs (step noEcho) s [.recv n, .worker, .worker, .worker, .worker]
      { s with counter := Worker.count noEcho n s.counter, completed := s.completed ++ [n] } := by
  cases s
  obtain rfl := hs
  cases noEcho <;> rfl

/-! ## Bookkeeping -/

/-- What the copy in the reader's hands holds. -/
def pending (f : EchoCounter → Int) : ReaderPc → Int
  | .lock | .copy => 0
  | .packetsReceived ret | .packetsSend ret | .bytesReceived ret | .bytesSend ret | .unlock ret => f ret

/-- Between the copy and the clear of `packets_received` the field is still to be thrown away. -/
def packetsDoomed : ReaderPc → Prop
  | .packetsReceived _ => True
  | _ => False

/-- The same for `bytes_received`, which is cleared two assignments later. -/
def bytesDoomed : ReaderPc → Prop
  | .packetsReceived _ | .packetsSend _ | .bytesReceived _ => True
  | _ => False

instance : ∀ r, Decidable (packetsDoomed r)
  | .packetsReceived _ => .isTrue trivial
  | .lock | .copy | .packetsSend _ | .bytesReceived _ | .bytesSend _ | .unlock _ => .isFalse id

instance : ∀ r, Decidable (bytesDoomed r)
  | .packetsReceived _ | .packetsSend _ | .bytesReceived _ => .isTrue trivial
  | .lock | .copy | .bytesSend _ | .unlock _ => .isFalse id

/-- The packets one step loses. -/
def lostPackets (s : Counting) (e : CountEv) : Nat :=
  match e, s.worker with
  | .worker, .packetsReceived _ => if packetsDoomed s.reader then 1 else 0
  | _, _ => 0

/-- The bytes one step loses. -/
def lostBytes (s : Counting) (e : CountEv) : Nat :=
  match e, s.worker with
  | .worker, .bytesReceived n => if bytesDoomed s.reader then n else 0
  | _, _ => 0

/-- The packets that the snapshots, the reader's copy and the counter account for. -/
def accountedPackets (s : Counting) : Int :=
  (s.snapshots.map EchoCounter.packetsReceived).sum + pending EchoCounter.packetsReceived s.reader +
    if packetsDoomed s.reader then 0 else s.counter.packetsReceived

/-- The same for bytes. -/
def accountedBytes (s : Counting) : Int :=
  (s.snapshots.map EchoCounter.bytesReceived).sum + pending EchoCounter.bytesReceived s.reader +
    if bytesDoomed s.reader then 0 else s.counter.bytesReceived

/-- The bytes of a datagram that is counted except for the last assignment. -/
def inBlock : WorkerPc → Nat
  | .packetsReceived n => n
  | _ => 0

/-- The reader moves what it finds, and the worker stays where it is. -/
theorem readerStep_accounted (s : Counting) :
    accountedPackets s.readerStep = accountedPackets s ∧ accountedBytes s.readerStep = accountedBytes s ∧
      s.readerStep.completed = s.completed ∧ s.readerStep.worker = s.worker := by
  cases hr : s.reader <;>
    simp [readerStep, hr, accountedPackets, accountedBytes, pending, packetsDoomed, bytesDoomed]

/-- Completed datagrams minus accounted ones. -/
def missingPackets (s : Counting) : Int := s.completed.length - s.accountedPackets

def missingBytes (s : Counting) : Int := (s.completed.sum : Nat) + inBlock s.worker - s.accountedBytes

theorem step_missingPackets (h : step noEcho s e = some s') :
    s'.missingPackets = s.missingPackets + lostPackets s e := by
  cases e with
  | recv n =>
    simp only [step] at h
    split at h
    · obtain rfl := Option.some.inj h
      simp [missingPackets, accountedPackets, lostPackets]
    · cases h
  | worker =>
    cases hw : s.worker <;> simp only [step, workerStep, hw, reduceCtorEq, Option.some.injEq] at h
    all_goals subst h
    -- Only the last assignment writes `packets_received`.
    case packetsReceived n =>
      simp only [missingPackets, accountedPackets, lostPackets, hw, List.length_append, List.length_singleton]
      split <;> push_cast <;> omega
    all_goals cases noEcho <;> simp [missingPackets, accountedPackets, lostPackets, hw]
  | reader =>
    obtain rfl := Option.some.inj h
    obtain ⟨hp, -, hc, -⟩ := s.readerStep_accounted
    simp [missingPackets, hp, hc, lostPackets]

theorem step_missingBytes (h : step noEcho s e = some s') :
    s'.missingBytes = s.missingBytes + lostBytes s e := by
  cases e with
  | recv n =>
    simp only [step] at h
    split at h
    · next hw =>
      obtain rfl := Option.some.inj h
      simp [missingBytes, accountedBytes, lostBytes, hw, inBlock]
    · cases h
  | worker =>
    cases hw : s.worker <;> simp only [step, workerStep, hw, reduceCtorEq, Option.some.injEq] at h
    all_goals subst h
    -- The third assignment writes `bytes_received`, the fourth completes the datagram.
    case bytesReceived n =>
      simp only [missingBytes, accountedBytes, lostBytes, hw, inBlock]
      split <;> push_cast <;> omega
    case packetsReceived n =>
      simp [missingBytes, accountedBytes, lostBytes, hw, inBlock]
    all_goals cases noEcho <;> simp [missingBytes, accountedBytes, lostBytes, hw, inBlock]
  | reader =>
    obtain rfl := Option.some.inj h
    obtain ⟨-, hb, hc, hw⟩ := s.readerStep_accounted
    simp [missingBytes, hb, hc, hw, lostBytes]

/-- **What a run loses**: the packets added between a copy and the clear behind it. -/
theorem packets_balance {es : List CountEv} (h : Runs (step noEcho) init es s) :
    s.missingPackets = spent (step noEcho) lostPackets init es := by
  have := h.balance (I := fun _ => True) trivial (fun _ _ _ _ _ => trivial)
    fun _ _ _ _ hs => step_missingPackets hs
  rw [this]
  exact Int.zero_add _

theorem bytes_balance {es : List CountEv} (h : Runs (step noEcho) init es s) :
    s.missingBytes = spent (step noEcho) lostBytes init es := by
  have := h.balance (I := fun _ => True) trivial (fun _ _ _ _ _ => trivial)
    fun _ _ _ _ hs => step_missingBytes hs
  rw [this]
  exact Int.zero_add _

/-! ## When nothing is lost -/

/-- Between two datagrams and between two calls of `getAndClearCounter`. -/
def Quiet (s : Counting) : Prop := s.worker = .recv ∧ s.reader = .lock

/-- The returned snapshots and the counter account for the completed datagrams, and no others. -/
def Conserved (s : Counting) : Prop :=
  (s.snapshots.map EchoCounter.packetsReceived).sum + s.counter.packetsReceived = s.completed.length ∧
    (s.snapshots.map EchoCounter.bytesReceived).sum + s.counter.bytesReceived = (s.completed.sum : Nat)

/-- An update that is lost: `packets_received` is incremented between the reader's copy and its
    clear of that field, or `bytes_received` is increased, by more than 0, between the copy and
    the clear of that one. -/
def Loses (s : Counting) (e : CountEv) : Prop :=
  e = .worker ∧ ((∃ n, s.worker = .packetsReceived n ∧ packetsDoomed s.reader) ∨
    ∃ n, 0 < n ∧ s.worker = .bytesReceived n ∧ bytesDoomed s.reader)

theorem loses_iff (s : Counting) (e : CountEv) :
    ¬ Loses s e ↔ lostPackets s e = 0 ∧ lostBytes s e = 0 := by
  cases e with
  | recv n => simp [Loses, lostPackets, lostBytes]
  | reader => simp [Loses, lostPackets, lostBytes]
  | worker =>
    cases hw : s.worker <;> simp [Loses, lostPackets, lostBytes, hw]
    case bytesReceived n =>
      by_cases hd : bytesDoomed s.reader <;> simp [hd]

theorem conserved_iff_missing (hq : s.Quiet) :
    s.Conserved ↔ s.missingPackets = 0 ∧ s.missingBytes = 0 := by
  obtain ⟨hw, hr⟩ := hq
  simp only [Conserved, missingPackets, missingBytes, accountedPackets, accountedBytes, hw, hr, pending,
    packetsDoomed, bytesDoomed, inBlock, if_false]
  omega

end Counting

/-- **When no count is lost or doubled by a statistics read**: for every interleaving of any number
    of datagrams with any number of `getAndClearCounter` calls, exactly when no step of it increases
    a field between the copy and the clear of that field. -/
theorem counts_conserved_iff {noEcho : Bool} {s : Counting} {es : List CountEv}
    (h : Runs (Counting.step noEcho) Counting.init es s) (hq : s.Quiet) :
    s.Conserved ↔ Along (Counting.step noEcho) (fun s e => ¬ s.Loses e) Counting.init es := by
  have halong : Along (Counting.step noEcho) (fun s e => ¬ s.Loses e) Counting.init es ↔
      spent (Counting.step noEcho) Counting.lostPackets Counting.init es = 0 ∧
        spent (Counting.step noEcho) Counting.lostBytes Counting.init es = 0 := by
    rw [spent_eq_zero h, spent_eq_zero h, ← along_and]
    simp only [Counting.loses_iff]
  rw [Counting.conserved_iff_missing hq, Counting.packets_balance h, Counting.bytes_balance h, halong]
  exact and_congr (by omega) (by omega)

/-- A read before the last assignment of a datagram, and one more after it. -/
def quietRead : List CountEv :=
  [.recv 5, .worker, .worker, .worker, .reader, .reader, .reader, .reader, .reader, .reader, .reader, .worker]

theorem counts_conserved_iff_quiet_read :
    Counting.Conserved ⟨⟨1, 0, 0, 0⟩, .recv, .lock, [⟨0, 1, 5, 5⟩], [5]⟩ ↔
      Along (Counting.step false) (fun s e => ¬ s.Loses e) Counting.init quietRead :=
  counts_conserved_iff (by decide) ⟨rfl, rfl⟩

/-- A datagram whose last assignment falls between the copy and the first clear: no snapshot has it,
    nor has the counter. -/
theorem count_lost : ¬ ∀ es s, Runs (Counting.step false) Counting.init es s → s.Quiet → s.Conserved := by
  intro h
  have := h [.recv 5, .worker, .worker, .worker, .reader, .reader, .worker, .reader, .reader, .reader,
    .reader, .reader] ⟨⟨0, 0, 0, 0⟩, .recv, .lock, [⟨0, 1, 5, 5⟩], [5]⟩ (by decide) ⟨rfl, rfl⟩
  exact absurd this.1 (by decide)

end UdpPingPong
