import UdpPingPong.Bouncer.Lifecycle
import UdpPingPong.Text

/- The response size, from the argument of the program to the calls of `sendto`.

   The size is checked three times: `main` prints an error, `setFixedResponsePacketSize`
   throws, and `setPacketSize` of a worker leaves the worker as it is. Here the bouncer
   keeps the size as the `size_t` the code stores, and its pool the worker objects.

   1. `size_checks_agree`: all three take the same sizes;
   2. `start_refines`: on sizes they take, `start` is the one of `Bouncer`;
   3. `response_sizes_safe`: whatever is called and received, a rejected size changes
      nothing, every worker a `start` creates gets the size of the bouncer, there are as
      many as asked for unless it throws, and no reply is longer than the buffer. -/
namespace UdpPingPong

open Exec Wire CString

/-- Whether the thread of a worker has been created, and whether it has entered its loop. -/
inductive PoolThreadPc where
  | new | created | looping
  deriving DecidableEq, Repr

/-- A worker in the pool, with its socket and its thread. -/
structure PoolThread where
  worker : Worker
  sockfd : Int
  pc : PoolThreadPc
  deriving DecidableEq

/-- A `UDPEchoBouncer` with the size as the code stores it, and its worker objects. -/
abbrev SizedBouncer := BouncerOf PoolThread UInt64

/-- What a call throws. -/
inductive CallFailure where
  | invalidArguments (text : CString)
  | lifecycle (e : Failure)
  deriving DecidableEq

/-- A call of the bouncer; or worker number `i` enters `run`, or goes once around its loop. A start
    comes with the answers of the system and the buffers it allocates. -/
inductive BouncerEv where
  | setFixedResponsePacketSize (size : UInt64)
  | disableResponses (flag : Bool)
  | start (numThreads : Nat) (answer : StartAnswer) (buffers : Nat → Buffer 4096)
  | stop
  | enter (i : Nat) (time : Int)
  | round (i : Nat) (r : Round)

/-- A size in the documented range. -/
def SizeOk (size : UInt64) : Prop := size = 0 ∨ 32 ≤ size ∧ size ≤ 4096

instance (size : UInt64) : Decidable (SizeOk size) := inferInstanceAs (Decidable (_ ∨ _))

/-- The `size_t` that `main` makes of the argument of -p, by way of an `int`. -/
def argPacketSize (arg : CString) : UInt64 := arg.toInt.toInt64.toUInt64

/-- What `main` does with the argument of -p: it prints a text and returns, or it gives a size to the
    bouncer, or none. -/
def mainPacketSize (arg : CString) : Except CString (Option UInt64) :=
  let packetSize := argPacketSize arg
  if 0 < packetSize then
    if packetSize < 32 ∨ 4096 < packetSize then
      .error ("ERROR: Paketgroesse muss zwischen 32 und 4096 Bytes liegen [".toList ++
        Decimal.printInt packetSize.toInt64.toInt32.toInt ++ "]\n".toList)
    else .ok (some packetSize)
  else .ok none

namespace SizedBouncer

/-- A bouncer as its constructor leaves it. -/
def new : SizedBouncer :=
  { pool := [], poolLocked := false, sockfd := 0, packetSize := 0, noEcho := false, running := false }

def setFixedResponsePacketSize (b : SizedBouncer) (size : UInt64) : SizedBouncer × Option CallFailure :=
  if 0 < size then
    if size < 32 ∨ 4096 < size then
      (b, some (.invalidArguments "UDPEchoBouncer::setFixedResponsePacketSize".toList))
    else ({ b with packetSize := size }, none)
  else ({ b with packetSize := size }, none)

def disableResponses (b : SizedBouncer) (flag : Bool) : SizedBouncer := { b with noEcho := flag }

/-- A bound worker, around the buffer it allocated. -/
def newThread (buffers : Nat → Buffer 4096) (b : SizedBouncer) (i : Nat) (sockfd : Int) : PoolThread :=
  { worker := ((Worker.new (buffers i)).setNoEcho b.noEcho).setPacketSize b.packetSize.toNat, sockfd, pc := .new }

/-- `start`, and what it throws. -/
def start (b : SizedBouncer) (numThreads : Nat) (answer : StartAnswer) (buffers : Nat → Buffer 4096) :
    SizedBouncer × Option Failure :=
  b.startWith (newThread buffers) (fun t => { t with pc := .created }) numThreads answer

/-- An event, with what it throws. -/
def act (b : SizedBouncer) : BouncerEv → Option (SizedBouncer × Option CallFailure)
  | .setFixedResponsePacketSize size => some (b.setFixedResponsePacketSize size)
  | .disableResponses flag => some (b.disableResponses flag, none)
  | .start numThreads answer buffers =>
    some ((start b numThreads answer buffers).1, (start b numThreads answer buffers).2.map .lifecycle)
  | .stop => some (b.stop.1, b.stop.2.map .lifecycle)
  | .enter i time => match b.pool[i]? with
    | some t =>
      if t.pc = .created then
        some ({ b with pool := b.pool.set i { t with worker := t.worker.enter time, pc := .looping } }, none)
      else none
    | none => none
  | .round i r => match b.pool[i]? with
    | some t =>
      if t.pc = .looping then
        (t.worker.step r).map fun w => ({ b with pool := b.pool.set i { t with worker := w } }, none)
      else none
    | none => none

def step (b : SizedBouncer) (e : BouncerEv) : Option SizedBouncer := (b.act e).map Prod.fst

/-- The length an event passes to `sendto`, if it calls it. -/
def sendtoLength (b : SizedBouncer) : BouncerEv → Option Nat
  | .round i r => match b.pool[i]?, r.recv with
    | some t, some d => if t.worker.noEcho then none else some (t.worker.replyLength d)
    | _, _ => none
  | _ => none

variable {b : SizedBouncer} {size : UInt64}

/-! ## The three checks -/

theorem sizeOk_iff_toNat : SizeOk size ↔ (size.toNat ≤ 4096 ∧ 32 ≤ size.toNat) ∨ size.toNat = 0 := by
  rw [SizeOk, ← UInt64.toNat_inj, UInt64.le_iff_toNat_le, UInt64.le_iff_toNat_le]
  show size.toNat = 0 ∨ 32 ≤ size.toNat ∧ size.toNat ≤ 4096 ↔ _
  omega

/-- The two comparisons of `main` and of the bouncer. -/
theorem not_sizeOk_iff : ¬ SizeOk size ↔ 0 < size ∧ (size < 32 ∨ 4096 < size) := by
  rw [sizeOk_iff_toNat, UInt64.lt_iff_toNat_lt, UInt64.lt_iff_toNat_lt, UInt64.lt_iff_toNat_lt]
  show _ ↔ 0 < size.toNat ∧ (size.toNat < 32 ∨ 4096 < size.toNat)
  omega

theorem setFixedResponsePacketSize_ok (h : SizeOk size) :
    b.setFixedResponsePacketSize size = ({ b with packetSize := size }, none) := by
  have hnot := mt not_sizeOk_iff.mpr (not_not.mpr h)
  unfold setFixedResponsePacketSize
  split
  · next hpos => rw [if_neg fun hr => hnot ⟨hpos, hr⟩]
  · rfl

/-- **A rejected size** leaves the bouncer as it is. -/
theorem setFixedResponsePacketSize_rejected (h : ¬ SizeOk size) : b.setFixedResponsePacketSize size =
    (b, some (.invalidArguments "UDPEchoBouncer::setFixedResponsePacketSize".toList)) := by
  obtain ⟨hpos, hr⟩ := not_sizeOk_iff.mp h
  rw [setFixedResponsePacketSize, if_pos hpos, if_pos hr]

theorem setPacketSize_bytes (w : Worker) (h : SizeOk size) :
    (w.setPacketSize size.toNat).packetSize.bytes = size.toNat := by
  rw [Worker.setPacketSize, dif_pos (sizeOk_iff_toNat.mp h)]

/-- **The checks agree**: `main` prints an error for exactly the sizes the bouncer throws at, and a
    worker silently drops no others. -/
theorem size_checks_agree (b : SizedBouncer) (w : Worker) (arg : CString) :
    ((mainPacketSize arg).toOption = none ↔ (b.setFixedResponsePacketSize (argPacketSize arg)).2 ≠ none) ∧
      ((b.setFixedResponsePacketSize (argPacketSize arg)).2 = none →
        (w.setPacketSize (argPacketSize arg).toNat).packetSize.bytes = (argPacketSize arg).toNat) := by
  by_cases h : SizeOk (argPacketSize arg)
  · have hnot := mt not_sizeOk_iff.mpr (not_not.mpr h)
    rw [setFixedResponsePacketSize_ok h]
    refine ⟨?_, fun _ => setPacketSize_bytes w h⟩
    simp only [mainPacketSize]
    split
    · next hpos =>
      rw [if_neg fun hr => hnot ⟨hpos, hr⟩]
      simp [Except.toOption]
    · simp [Except.toOption]
  · obtain ⟨hpos, hr⟩ := not_sizeOk_iff.mp h
    rw [setFixedResponsePacketSize_rejected h]
    simp only [mainPacketSize, if_pos hpos, if_pos hr]
    simp [Except.toOption]

/-! ## A start creates workers with the size of the bouncer -/

/-- The workers have the size of the bouncer. -/
def HaveSize (size : UInt64) (ts : List PoolThread) : Prop :=
  ∀ t ∈ ts, t.worker.packetSize.bytes = size.toNat

theorem made_size (h : SizeOk b.packetSize) {buffers : Nat → Buffer 4096} {t : PoolThread}
    (ht : BouncerOf.Made (newThread buffers) b t) : t.worker.packetSize.bytes = b.packetSize.toNat := by
  obtain ⟨c, i, sockfd, hsize, -, rfl⟩ := ht
  rw [← hsize] at h ⊢
  exact setPacketSize_bytes _ h

theorem start_cases (hb : b.poolLocked = false) (n : Nat) (a : StartAnswer) (buffers : Nat → Buffer 4096) :
    BouncerOf.StartCase (newThread buffers) (fun t => { t with pc := .created }) b n a (start b n a buffers) :=
  BouncerOf.startWith_cases hb n a

/-- **A start** of a pool that is not locked, whether or not it fails on the way: all workers in the pool
    have the size of the bouncer, and if nothing was thrown they are as many as were asked for. -/
theorem start_size (h : SizeOk b.packetSize) (hb : b.poolLocked = false) (n : Nat) (a : StartAnswer)
    (buffers : Nat → Buffer 4096) : HaveSize b.packetSize (start b n a buffers).1.pool ∧
      ((start b n a buffers).2 = none → (start b n a buffers).1.pool.length = Bouncer.requested n) := by
  have hstart := start_cases hb n a buffers
  generalize start b n a buffers = r at hstart ⊢
  have hafter : ∀ t, (∃ v, BouncerOf.Made (newThread buffers) b v ∧ { v with pc := PoolThreadPc.created } = t) →
      t.worker.packetSize.bytes = b.packetSize.toNat := by
    intro t ht
    obtain ⟨v, hv, rfl⟩ := ht
    exact made_size (t := v) h hv
  cases hstart with
  | noSocket hs => exact ⟨fun t ht => absurd ht List.not_mem_nil, by simp⟩
  | bindFails ws e hs i hi hbind hmade => exact ⟨fun t ht => made_size h (hmade t ht), by simp⟩
  | threadFails ws hs i hi hcreated hmade =>
    exact ⟨fun t ht => (hmade t ht).elim (made_size h) (hafter t), by simp⟩
  | started ws hs hlen hall hmade => exact ⟨fun t ht => hafter t (hmade t ht), fun _ => hlen⟩

/-! ## The bouncer without the sizes -/

end SizedBouncer

/-- A worker as `Bouncer` has it. -/
def PoolThread.toPoolWorker (t : PoolThread) : PoolWorker :=
  { noEcho := t.worker.noEcho, packetSize := t.worker.packetSize, sockfd := t.sockfd, started := t.pc ≠ .new }

/-- `c` is the bouncer `b`, with its size as a size a worker can have. -/
abbrev Refines (b : SizedBouncer) (c : Bouncer) : Prop :=
  b.RefinesBy PoolThread.toPoolWorker (fun size size' => size.toNat = size'.bytes) c

theorem Refines.sizeOk {b : SizedBouncer} {c : Bouncer} (h : Refines b c) : SizeOk b.packetSize := by
  have hok := c.packetSize.ok
  rw [SizedBouncer.sizeOk_iff_toNat, h.packetSize]
  omega

/-- What an event is to a bouncer without the checks: a start or a stop is its own, the setters change
    its settings to ones it can have, and the workers do nothing to it. -/
def Bouncer.Does (c : Bouncer) (e : BouncerEv) (c' : Bouncer) (failure : Option CallFailure) : Prop :=
  match e with
  | .start n a _ => c' = (start c n a).1 ∧ failure = (start c n a).2.map .lifecycle
  | .stop => c' = c.stop.1 ∧ failure = c.stop.2.map .lifecycle
  | .setFixedResponsePacketSize _ => ∃ size, c' = { c with packetSize := size }
  | .disableResponses flag => c' = { c with noEcho := flag }
  | .enter _ _ | .round _ _ => c' = c

/-- The bouncer without the checks, where its size is in range. -/
def SizedBouncer.toBouncer (b : SizedBouncer) (h : SizeOk b.packetSize) : Bouncer :=
  { pool := b.pool.map PoolThread.toPoolWorker, poolLocked := b.poolLocked, sockfd := b.sockfd
    packetSize := ⟨b.packetSize.toNat, by have := SizedBouncer.sizeOk_iff_toNat.mp h; omega⟩
    noEcho := b.noEcho, running := b.running }

namespace SizedBouncer

variable {b : SizedBouncer} {c : Bouncer}

theorem toBouncer_refines (h : SizeOk b.packetSize) : Refines b (b.toBouncer h) :=
  ⟨rfl, rfl, rfl, rfl, rfl, rfl⟩

theorem newThread_refines (h : Refines b c) (buffers : Nat → Buffer 4096) (i : Nat) (sockfd : Int) :
    (newThread buffers b i sockfd).toPoolWorker = c.newWorker sockfd := by
  have hsize : (newThread buffers b i sockfd).worker.packetSize = c.packetSize := by
    rw [ResponseSize.mk.injEq]
    exact (setPacketSize_bytes _ h.sizeOk).trans h.packetSize
  have hecho : (newThread buffers b i sockfd).worker.noEcho = b.noEcho := by
    simp only [newThread, Worker.setPacketSize]
    split <;> rfl
  simp only [PoolThread.toPoolWorker, Bouncer.newWorker, hsize, hecho, h.noEcho]
  rfl

/-- **A start is one of the bouncer without the checks of the size**, with the same failure. -/
theorem start_refines (h : Refines b c) (n : Nat) (a : StartAnswer) (buffers : Nat → Buffer 4096) :
    Refines (start b n a buffers).1 (c.start n a).1 ∧ (start b n a buffers).2 = (c.start n a).2 :=
  BouncerOf.startWith_refines (fun _ _ h i sockfd => newThread_refines h buffers i sockfd) (fun _ => rfl) h n a

/-- What a worker does leaves its settings alone. -/
theorem set_refines (h : Refines b c) {i : Nat} {t u : PoolThread} (ht : b.pool[i]? = some t)
    (hu : u.toPoolWorker = t.toPoolWorker) : Refines { b with pool := b.pool.set i u } c := by
  refine ⟨?_, h.poolLocked, h.sockfd, h.packetSize, h.noEcho, h.running⟩
  obtain ⟨hi, rfl⟩ := List.getElem?_eq_some_iff.mp ht
  rw [List.map_set, hu, ← h.pool]
  apply List.ext_getElem (by simp)
  intro j hj hj'
  rw [List.getElem_set]
  split
  · next hij =>
    subst hij
    rw [List.getElem_map]
  · rfl

/-- **Every event is one of the bouncer without the checks.** -/
theorem act_refines (h : Refines b c) {e : BouncerEv} {r : SizedBouncer × Option CallFailure}
    (hr : b.act e = some r) : ∃ c', Refines r.1 c' ∧ c.Does e c' r.2 := by
  cases e with
  | setFixedResponsePacketSize size =>
    obtain rfl := Option.some.inj hr
    by_cases hok : SizeOk size
    · have hrange := sizeOk_iff_toNat.mp hok
      rw [setFixedResponsePacketSize_ok hok]
      exact ⟨{ c with packetSize := ⟨size.toNat, by omega⟩ },
        ⟨h.pool, h.poolLocked, h.sockfd, rfl, h.noEcho, h.running⟩, _, rfl⟩
    · rw [setFixedResponsePacketSize_rejected hok]
      exact ⟨c, h, c.packetSize, rfl⟩
  | disableResponses flag =>
    obtain rfl := Option.some.inj hr
    exact ⟨{ c with noEcho := flag }, ⟨h.pool, h.poolLocked, h.sockfd, h.packetSize, rfl, h.running⟩, rfl⟩
  | start n a buffers =>
    obtain rfl := Option.some.inj hr
    obtain ⟨hstart, hfail⟩ := start_refines h n a buffers
    exact ⟨_, hstart, rfl, congrArg (Option.map CallFailure.lifecycle) hfail⟩
  | stop =>
    obtain rfl := Option.some.inj hr
    obtain ⟨hstop, hfail⟩ := BouncerOf.stop_refines h
    exact ⟨_, hstop, rfl, congrArg (Option.map CallFailure.lifecycle) hfail⟩
  | enter i time =>
    simp only [act] at hr
    split at hr
    · next t ht =>
      split at hr
      · next hpc =>
        obtain rfl := Option.some.inj hr
        refine ⟨c, set_refines h ht ?_, rfl⟩
        simp [PoolThread.toPoolWorker, Worker.enter, hpc]
      · cases hr
    · cases hr
  | round i x =>
    simp only [act] at hr
    split at hr
    · next t ht =>
      split at hr
      · next hpc =>
        obtain ⟨w, hw, rfl⟩ := Option.map_eq_some_iff.mp hr
        obtain ⟨hecho, hsize⟩ := Worker.step_config hw
        refine ⟨c, set_refines h ht ?_, rfl⟩
        simp only [PoolThread.toPoolWorker, hecho, hsize]
      · cases hr
    · cases hr

/-! ## Histories -/

/-- **The event `e` is safe** in state `b`: a rejected size changes nothing, the size of the bouncer is
    in range before and after, the workers of a start have the size of the bouncer and, unless it throws,
    are as many as were asked for, and no call of `sendto` reads beyond the buffer. A start that finds the
    pool locked creates no workers. -/
structure Safe (b : SizedBouncer) (e : BouncerEv) : Prop where
  rejected : ∀ size, e = .setFixedResponsePacketSize size → ∀ r, b.act e = some r → r.2 ≠ none → r.1 = b
  range : SizeOk b.packetSize ∧ ∀ r, b.act e = some r → SizeOk r.1.packetSize
  created : ∀ n a buffers, e = .start n a buffers → b.poolLocked = false → ∀ r, b.act e = some r →
    (∀ t ∈ r.1.pool, t.worker.packetSize.bytes = b.packetSize.toNat) ∧
      (r.2 = none → r.1.pool.length = Bouncer.requested n)
  sendto : ∀ n ∈ b.sendtoLength e, n ≤ 4096

/-- The size stays in range, because the bouncer without the checks has no other. -/
theorem act_sizeOk (h : SizeOk b.packetSize) {e : BouncerEv} {r : SizedBouncer × Option CallFailure}
    (hr : b.act e = some r) : SizeOk r.1.packetSize := by
  obtain ⟨_, hrefines, -⟩ := act_refines (toBouncer_refines h) hr
  exact hrefines.sizeOk

theorem sendtoLength_le {e : BouncerEv} {n : Nat} (h : b.sendtoLength e = some n) : n ≤ 4096 := by
  unfold sendtoLength at h
  split at h
  · split at h
    · next t d _ _ =>
      split at h
      · cases h
      · obtain rfl := Option.some.inj h
        have hsize := t.worker.packetSize.le_buffer
        simp only [Worker.replyLength, Buffer.received]
        split <;> omega
    · cases h
  · cases h

theorem safe_of_sizeOk (h : SizeOk b.packetSize) (e : BouncerEv) : Safe b e := by
  constructor
  case rejected =>
    intro size he r hr hfail
    subst he
    obtain rfl := Option.some.inj hr
    by_cases hok : SizeOk size
    · rw [setFixedResponsePacketSize_ok hok] at hfail
      exact absurd rfl hfail
    · rw [setFixedResponsePacketSize_rejected hok]
  case range => exact ⟨h, fun r hr => act_sizeOk h hr⟩
  case created =>
    intro n a buffers he hunlocked r hr
    subst he
    obtain rfl := Option.some.inj hr
    obtain ⟨hsize, hlen⟩ := start_size h hunlocked n a buffers
    exact ⟨hsize, fun hfail => hlen (Option.map_eq_none_iff.mp hfail)⟩
  case sendto =>
    intro n hn
    exact sendtoLength_le hn

end SizedBouncer

/-- **Response sizes are safe**: along every history of calls, and of what the workers receive. -/
theorem response_sizes_safe (es : List BouncerEv) :
    Along SizedBouncer.step SizedBouncer.Safe SizedBouncer.new es := by
  refine along_of_invariant (I := fun b : SizedBouncer => SizeOk b.packetSize) ?_
    (fun b e h => SizedBouncer.safe_of_sizeOk h e) (.inl rfl) es
  intro b e b' h hs
  obtain ⟨r, hr, rfl⟩ := Option.map_eq_some_iff.mp hs
  exact SizedBouncer.act_sizeOk h hr

end UdpPingPong
