import UdpPingPong.Bouncer.Worker
import UdpPingPong.Lib.Running
import UdpPingPong.Stat.CpuUsage

/- The status lines: both programs print what the interfaces did, about once a second.

   `run` of the bouncer and `UDPSender::run` have the same loop: when the clock has passed
   `end` the system is sampled, a line is printed that compares the sample with the one
   before, and the sample takes its place. The expressions of the line are written out
   twice.

   1. `bouncerLine` and `senderLine`: the line from two successive samples;
   2. `lines_eq`: a loop prints the line of every sample and the next one, whenever they
      are taken;
   3. `figures_agree_iff`: both programs print the same figures, the increments of the
      counters, exactly when in every interval as many packets were dropped on receiving
      as on transmitting. -/
namespace UdpPingPong

open Exec Running

/-- What a status loop samples: the system and the counters of the program. -/
structure StatusSample where
  stat : SystemStat
  counter : EchoCounter

/-- The numbers of a status line. -/
structure StatusLine where
  appRx : Int
  appTx : Int
  netRx : UInt64
  netTx : UInt64
  er : UInt64
  dr : UInt64
  mbitRx : UInt64
  mbitTx : UInt64
  cpu : Option ℚ
  deriving DecidableEq

/-- The line that `run` of the bouncer prints. Its counters have been cleared since the last line. -/
def bouncerLine (start stop : StatusSample) : StatusLine :=
  let statStart := start.stat.netTotal
  let statEnd := stop.stat.netTotal
  { appRx := stop.counter.packetsReceived
    appTx := stop.counter.packetsSend
    netRx := statEnd.receive.packets - statStart.receive.packets
    netTx := statEnd.transmit.packets - statStart.transmit.packets
    er := statEnd.receive.errs - statStart.receive.errs + statEnd.transmit.errs - statStart.transmit.errs
    -- the counter of the receiving side, twice
    dr := statEnd.receive.drop - statStart.receive.drop + statEnd.receive.drop - statStart.receive.drop
    mbitRx := (statEnd.receive.bytes - statStart.receive.bytes) >>> 17
    mbitTx := (statEnd.transmit.bytes - statStart.transmit.bytes) >>> 17
    cpu := Cpu.getUsage stop.stat.cpu start.stat.cpu }

/-- The line that `UDPSender::run` prints. -/
def senderLine (start stop : StatusSample) : StatusLine :=
  let statStart := start.stat.netTotal
  let statEnd := stop.stat.netTotal
  { appTx := stop.counter.packetsSend - start.counter.packetsSend
    appRx := stop.counter.packetsReceived - start.counter.packetsReceived
    netTx := statEnd.transmit.packets - statStart.transmit.packets
    netRx := statEnd.receive.packets - statStart.receive.packets
    er := statEnd.receive.errs - statStart.receive.errs + statEnd.transmit.errs - statStart.transmit.errs
    dr := statEnd.receive.drop - statStart.receive.drop + statEnd.transmit.drop - statStart.transmit.drop
    mbitTx := (statEnd.transmit.bytes - statStart.transmit.bytes) >>> 17
    mbitRx := (statEnd.receive.bytes - statStart.receive.bytes) >>> 17
    cpu := Cpu.getUsage stop.stat.cpu start.stat.cpu }

/-! ## The loop -/

/-- The variables of a status loop: what was sampled last, and when the next sample is due. -/
structure StatusLoop where
  start : StatusSample
  endTime : ℚ

/-- A round of a status loop: the clock, and what is sampled if a sample is due. -/
structure StatusRound where
  microtime : ℚ
  sample : StatusSample

namespace StatusLoop

/-- One round. -/
def step (s : StatusLoop) (r : StatusRound) : Option StatusLoop :=
  some (if s.endTime ≤ r.microtime then { start := r.sample, endTime := s.endTime + 1 } else s)

/-- What a round prints. -/
def prints (line : StatusSample → StatusSample → StatusLine) (s : StatusLoop) (r : StatusRound) : List StatusLine :=
  if s.endTime ≤ r.microtime then [line s.start r.sample] else []

/-- The lines of a status loop. -/
def lines (line : StatusSample → StatusSample → StatusLine) (s : StatusLoop) (rounds : List StatusRound) :
    List StatusLine :=
  emitted step (prints line) s rounds

/-- The samples that are taken from `endTime` on. -/
def taken : ℚ → List StatusRound → List StatusSample
  | _, [] => []
  | endTime, r :: rounds =>
    if endTime ≤ r.microtime then r.sample :: taken (endTime + 1) rounds else taken endTime rounds

/-- **A line for each sample and the next one.** -/
theorem lines_eq (line : StatusSample → StatusSample → StatusLine) (s : StatusLoop) (rounds : List StatusRound) :
    s.lines line rounds = intervals line s.start (taken s.endTime rounds) := by
  induction rounds generalizing s with
  | nil => rfl
  | cons r rounds ih =>
    have hrest : ∀ u : StatusLoop,
        emitted step (prints line) u rounds = intervals line u.start (taken u.endTime rounds) := ih
    simp only [lines, emitted, step, prints, taken, hrest]
    split
    · rfl
    · rfl

end StatusLoop

/-- `run` of the bouncer, from the first sample on. -/
def bouncerRun (quiet : Bool) (s : StatusLoop) (rounds : List StatusRound) : List StatusLine :=
  if quiet then [] else s.lines bouncerLine rounds

/-- The loop of `UDPSender::run`. -/
def senderRun (s : StatusLoop) (rounds : List StatusRound) : List StatusLine := s.lines senderLine rounds

/-! ## The figures -/

/-- The four figures of the interfaces that both programs print. -/
structure Figures where
  rx : UInt64
  tx : UInt64
  er : UInt64
  dr : UInt64
  deriving DecidableEq, Repr

def Figures.fields : List (Figures → UInt64) := [Figures.rx, Figures.tx, Figures.er, Figures.dr]

def StatusLine.figures (l : StatusLine) : Figures := { rx := l.netRx, tx := l.netTx, er := l.er, dr := l.dr }

/-- What the figures stand for: the increments of the counters, those of both directions together for
    the errors and the drops. -/
def Figures.increments (start stop : Interface) : Figures :=
  { rx := stop.receive.packets - start.receive.packets
    tx := stop.transmit.packets - start.transmit.packets
    er := (stop.receive.errs - start.receive.errs) + (stop.transmit.errs - start.transmit.errs)
    dr := (stop.receive.drop - start.receive.drop) + (stop.transmit.drop - start.transmit.drop) }

/-- In this interval as many packets were dropped on receiving as on transmitting. -/
def DropsAlike (start stop : StatusSample) : Prop :=
  stop.stat.netTotal.receive.drop - start.stat.netTotal.receive.drop =
    stop.stat.netTotal.transmit.drop - start.stat.netTotal.transmit.drop

instance (start stop : StatusSample) : Decidable (DropsAlike start stop) := inferInstanceAs (Decidable (_ = _))

/-- **Both programs show the same figures** in the rounds of a status loop. -/
structure FiguresAgree (s : StatusLoop) (rounds : List StatusRound) : Prop where
  same : (bouncerRun false s rounds).map StatusLine.figures = (senderRun s rounds).map StatusLine.figures
  /-- The figures are the increments between the samples. -/
  increments : (bouncerRun false s rounds).map StatusLine.figures =
    intervals (fun a b => Figures.increments a.stat.netTotal b.stat.netTotal) s.start (StatusLoop.taken s.endTime rounds)
  /-- Over all intervals they add up to the increments between the first sample and the last. -/
  total : ∀ c ∈ Figures.fields, (((bouncerRun false s rounds).map StatusLine.figures).map c).sum =
    c (Figures.increments s.start.stat.netTotal
      ((s.start :: StatusLoop.taken s.endTime rounds).getLast (List.cons_ne_nil _ _)).stat.netTotal)

section
variable (a b : StatusSample)

theorem senderLine_figures : (senderLine a b).figures = Figures.increments a.stat.netTotal b.stat.netTotal := by
  simp only [senderLine, StatusLine.figures, Figures.increments, add_sub_assoc]

/-- Only the drops of the bouncer's line can be wrong. -/
theorem bouncerLine_figures_iff :
    (bouncerLine a b).figures = Figures.increments a.stat.netTotal b.stat.netTotal ↔ DropsAlike a b := by
  simp only [bouncerLine, StatusLine.figures, Figures.increments, add_sub_assoc, Figures.mk.injEq, true_and,
    add_right_inj]
  rfl

end

/-- What the increments add up to. -/
theorem sum_increments {c : Figures → UInt64} (hc : c ∈ Figures.fields) (a : StatusSample) (l : List StatusSample) :
    ((intervals (fun a b => Figures.increments a.stat.netTotal b.stat.netTotal) a l).map c).sum =
      c (Figures.increments a.stat.netTotal ((a :: l).getLast (List.cons_ne_nil a l)).stat.netTotal) := by
  -- every figure is the increment of one number
  have hcount : ∃ k : Interface → UInt64, ∀ x y, c (Figures.increments x y) = k y - k x := by
    simp only [Figures.fields, List.mem_cons, List.not_mem_nil, or_false] at hc
    rcases hc with rfl | rfl | rfl | rfl
    · exact ⟨fun x => x.receive.packets, fun _ _ => rfl⟩
    · exact ⟨fun x => x.transmit.packets, fun _ _ => rfl⟩
    · exact ⟨fun x => x.receive.errs + x.transmit.errs, fun _ _ => (add_sub_add_comm _ _ _ _).symm⟩
    · exact ⟨fun x => x.receive.drop + x.transmit.drop, fun _ _ => (add_sub_add_comm _ _ _ _).symm⟩
  obtain ⟨k, hk⟩ := hcount
  rw [map_intervals]
  simp only [hk]
  exact sum_intervals (fun x : StatusSample => k x.stat.netTotal) a l

/-- **When both programs show the same figures**: in every interval the drops are alike. -/
theorem figures_agree_iff (s : StatusLoop) (rounds : List StatusRound) :
    FiguresAgree s rounds ↔ (s.start :: StatusLoop.taken s.endTime rounds).IsChain DropsAlike := by
  have hbouncer : (bouncerRun false s rounds).map StatusLine.figures =
      intervals (fun a b => Figures.increments a.stat.netTotal b.stat.netTotal) s.start
        (StatusLoop.taken s.endTime rounds) ↔
      (s.start :: StatusLoop.taken s.endTime rounds).IsChain DropsAlike := by
    show (s.lines bouncerLine rounds).map StatusLine.figures = _ ↔ _
    rw [StatusLoop.lines_eq, map_intervals, intervals_eq_iff]
    simp only [bouncerLine_figures_iff]
  have hsender : (senderRun s rounds).map StatusLine.figures =
      intervals (fun a b => Figures.increments a.stat.netTotal b.stat.netTotal) s.start
        (StatusLoop.taken s.endTime rounds) := by
    rw [senderRun, StatusLoop.lines_eq, map_intervals]
    simp only [senderLine_figures]
  refine ⟨?_, ?_⟩
  · intro h
    exact hbouncer.mp h.increments
  · intro h
    have hright := hbouncer.mpr h
    refine ⟨hright.trans hsender.symm, hright, ?_⟩
    intro c hc
    rw [hright]
    exact sum_increments hc s.start _

/-- A sample with `drop` packets dropped on receiving. -/
def droppedSample (drop : UInt64) : StatusSample :=
  { stat := { netTotal := { receive := { drop } } }, counter := EchoCounter.zero }

/-- One packet dropped on receiving: the bouncer shows two, the sender one. -/
theorem drops_counted_twice :
    let s : StatusLoop := { start := droppedSample 0, endTime := 1 }
    let rounds := [({ microtime := 1, sample := droppedSample 1 } : StatusRound)]
    (bouncerRun false s rounds).map StatusLine.dr = [2] ∧ (senderRun s rounds).map StatusLine.dr = [1] ∧
      ¬ FiguresAgree s rounds := by
  intro s rounds
  have hbouncer : bouncerRun false s rounds = [bouncerLine (droppedSample 0) (droppedSample 1)] := rfl
  have hsender : senderRun s rounds = [senderLine (droppedSample 0) (droppedSample 1)] := rfl
  refine ⟨by rw [hbouncer]; rfl, by rw [hsender]; rfl, ?_⟩
  intro h
  have hsame := congrArg (List.map Figures.dr) h.same
  rw [hbouncer, hsender] at hsame
  exact absurd hsame (by decide)

end UdpPingPong
