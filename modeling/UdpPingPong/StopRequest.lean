import UdpPingPong.Bouncer.Worker
import UdpPingPong.Lib.Checkpoint
import UdpPingPong.Sender.Receiver

/- Stop requests to the threads that read from a socket.

   The loops of a worker of the bouncer and of a receiver of the sender end in the same
   way: once a second they look whether `threadSignalStop` has been called. Both loops
   go through the steps of a `Checkpoint.Loop`, so what holds of that loop holds of them. -/
namespace UdpPingPong

open Exec Checkpoint Wire

/-- What a round of a worker reads for its check. -/
def Round.look (r : Round) : Look := { time := r.time, stop := r.stop }

/-- What a round of a receiver reads for its check. -/
def ReceiverEv.look : ReceiverEv → Look
  | .run time => { time, stop := false }
  | .round _ _ time stop => { time, stop }

/-- The check of a worker. -/
def Worker.loop (w : Worker) : Loop := { next := w.nextCheck, left := w.left }

/-- The check of a receiver that has entered `run`. -/
structure Receiver.Checks (r : Receiver) (l : Loop) : Prop where
  next : r.nextCheck = l.next
  pc : r.pc = if l.left then .off else .running

theorem Worker.check_loop {w : Worker} (hleft : w.left = false) (time : Int) (stop : Bool) :
    Checkpoint.step w.loop { time, stop } = some (w.check time stop).loop := by
  have hloop : ¬ w.loop.left = true := by
    rw [Worker.loop, hleft]
    exact Bool.false_ne_true
  rw [Checkpoint.step, if_neg hloop, Worker.check]
  by_cases hdue : w.nextCheck ≤ time
  · rw [if_pos hdue, if_pos (show w.loop.next ≤ time from hdue)]
    rfl
  · rw [if_neg hdue, if_neg (show ¬ w.loop.next ≤ time from hdue)]

/-- A round of a worker is a round of its check. -/
theorem Worker.step_loop {w w' : Worker} {r : Round} (h : Worker.step w r = some w') :
    Checkpoint.step w.loop r.look = some w'.loop := by
  unfold Worker.step at h
  split at h
  · cases h
  · next hleft =>
    obtain rfl := Option.some.inj h
    have hleft' : w.left = false := Bool.eq_false_iff.mpr hleft
    cases r.recv with
    | none => exact Worker.check_loop hleft' r.time r.stop
    | some d =>
      -- reading and counting a datagram leaves the check alone
      exact Worker.check_loop (w := { w.recvfrom d with
        counter := Worker.count w.noEcho (Buffer.received 4096 d.bytes) w.counter }) hleft' r.time r.stop

section
variable {value : UInt64 → ℚ}

theorem Receiver.check_checks {r : Receiver} {l : Loop} (h : r.Checks l) (hleft : l.left = false) (time : Int)
    (stop : Bool) : ∃ l', Checkpoint.step l { time, stop } = some l' ∧ (r.check time stop).Checks l' := by
  obtain ⟨hnext, hpc⟩ := h
  rw [Checkpoint.step, if_neg (by simp [hleft]), Receiver.check, hnext]
  split
  · exact ⟨_, rfl, by simp, rfl⟩
  · exact ⟨l, rfl, hnext, hpc⟩

theorem Receiver.step_checks {r r' : Receiver} {e : ReceiverEv} {l : Loop} (hl : r.Checks l)
    (h : Receiver.step value r e = some r') : ∃ l', Checkpoint.step l e.look = some l' ∧ r'.Checks l' := by
  have hleft : l.left = false := by
    cases hl' : l.left with
    | false => rfl
    | true =>
      have hpc := hl.pc
      rw [hl', if_pos rfl] at hpc
      simp [Receiver.step, hpc] at h
  have hpc : r.pc = .running := by
    rw [hl.pc, hleft]
    rfl
  cases e with
  | run time => simp [Receiver.step, hpc] at h
  | round recv microtime time stop =>
    simp only [Receiver.step, hpc] at h
    cases recv with
    | none =>
      obtain rfl := Option.some.inj h
      exact Receiver.check_checks hl hleft time stop
    | some d =>
      obtain rfl := Option.some.inj h
      have hcounted : (Receiver.countPacket value (r.recv d) (Buffer.received 4096 d) microtime).Checks l :=
        ⟨hl.next, hl.pc⟩
      exact Receiver.check_checks hcounted hleft time stop

end

/-! ## Runs -/

/-- **A worker** honours stop requests. -/
theorem Worker.runs_honour {w w' : Worker} {start : Int} {rs : List Round}
    (h : Runs Worker.step (w.enter start) rs w') (hclock : (start :: rs.map Round.time).Pairwise (· ≤ ·)) :
    StopHonoured start (rs.map Round.look) w'.nextCheck (w'.left = true) := by
  have hsim : ∃ l, Runs Checkpoint.step (Checkpoint.enter start) (rs.map Round.look) l ∧ l = w'.loop := by
    apply Runs.simulates (R := fun w l => l = w.loop) _ rfl h
    intro u r v l hl hs
    rw [hl]
    exact ⟨v.loop, Worker.step_loop hs, rfl⟩
  obtain ⟨l, hl, rfl⟩ := hsim
  apply Checkpoint.stop_honoured hl
  rw [List.map_map]
  exact hclock

/-- **A receiver** honours stop requests. -/
theorem Receiver.runs_honour {value : UInt64 → ℚ} {r r' : Receiver} {start : Int} {es : List ReceiverEv}
    (h : Runs (Receiver.step value) r (.run start :: es) r')
    (hclock : (start :: es.map fun e => e.look.time).Pairwise (· ≤ ·)) :
    StopHonoured start (es.map ReceiverEv.look) r'.nextCheck (r'.pc = .off) := by
  obtain ⟨u, hu, hr⟩ := runs_cons.mp h
  have hentered : u.Checks (enter start) := by
    cases hpc : r.pc with
    | starting =>
      simp only [Receiver.step, hpc] at hu
      obtain rfl := Option.some.inj hu
      exact ⟨rfl, rfl⟩
    | off => simp [Receiver.step, hpc] at hu
    | running => simp [Receiver.step, hpc] at hu
  obtain ⟨l, hl, hnext, hoff⟩ := Runs.simulates (fun s e t l hl hs => Receiver.step_checks hl hs) hentered hr
  have hleft : (r'.pc = .off) = (l.left = true) := by
    rw [hoff]
    cases l.left <;> simp
  rw [hnext, hleft]
  apply Checkpoint.stop_honoured hl
  rw [List.map_map]
  exact hclock

/-- **Every stop request is honoured within one second**, by the workers of the bouncer and by the
    receivers of the sender, whatever datagrams come in and however the clock goes forward. -/
theorem stop_requests_honoured (value : UInt64 → ℚ) :
    (∀ (w w' : Worker) (start : Int) (rs : List Round), Runs Worker.step (w.enter start) rs w' →
      (start :: rs.map Round.time).Pairwise (· ≤ ·) →
      StopHonoured start (rs.map Round.look) w'.nextCheck (w'.left = true)) ∧
    (∀ (r r' : Receiver) (start : Int) (es : List ReceiverEv), Runs (Receiver.step value) r (.run start :: es) r' →
      (start :: es.map fun e => e.look.time).Pairwise (· ≤ ·) →
      StopHonoured start (es.map ReceiverEv.look) r'.nextCheck (r'.pc = .off)) := by
  refine ⟨?_, ?_⟩
  · intro w w' start rs h hclock
    exact Worker.runs_honour h hclock
  · intro r r' start es h hclock
    exact Receiver.runs_honour h hclock

/-- A worker that gets nothing to read, and sees the stop request at its second look. -/
theorem stop_requests_honoured_idle :
    let rounds := [⟨none, 1, false⟩, ⟨none, 3, true⟩]
    let w : Worker := { Worker.new (Buffer.filled 4096 0) with nextCheck := 3, left := true }
    StopHonoured 0 (rounds.map Round.look) w.nextCheck (w.left = true) :=
  have hrun : Runs Worker.step ((Worker.new (Buffer.filled 4096 0)).enter 0) [⟨none, 1, false⟩, ⟨none, 3, true⟩]
      { Worker.new (Buffer.filled 4096 0) with nextCheck := 3, left := true } := rfl
  (stop_requests_honoured fun _ => 0).1 _ _ _ _ hrun (by decide)

end UdpPingPong
