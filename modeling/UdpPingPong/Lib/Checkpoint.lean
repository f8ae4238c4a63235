import UdpPingPong.Lib.Exec

/- A loop that looks for a stop request when the clock has come to its next check.

   Every round of the loop reads a clock. When the reading has reached the next check, the
   check moves one ahead, however far the clock has gone on, and the loop is left if a
   flag is set.

   1. `next_le`: the next check is at most one ahead of whatever bounds the readings;
   2. `leaves`: once the flag is set and stays set, a reading that has reached the next
      check ends the loop;
   3. `stop_honoured`: a flag set when the clock reads `s` ends the loop no later than in
      the first round that reads `s + 1` or more. -/
namespace Checkpoint

open Exec

/-- What a round reads: the clock, and the flag if it is asked for. -/
structure Look where
  time : Int
  stop : Bool
  deriving DecidableEq, Repr

structure Loop where
  next : Int
  left : Bool
  deriving DecidableEq, Repr

/-- The loop is entered: the first check is due in one unit. -/
def enter (start : Int) : Loop := { next := start + 1, left := false }

/-- One round. -/
def step (l : Loop) (r : Look) : Option Loop :=
  if l.left then none
  else if l.next ≤ r.time then some { next := l.next + 1, left := r.stop }
  else some l

/-- The latest reading, that at the start included. -/
def latest (start : Int) (looks : List Look) : Int :=
  (start :: looks.map Look.time).getLast (List.cons_ne_nil _ _)

/-- The flag is set when the clock reads `s`, behind the rounds `before`; it stays set. -/
structure FlagSet (start s : Int) (before after : List Look) : Prop where
  start_le : start ≤ s
  before_le : ∀ r ∈ before, r.time ≤ s
  stays : ∀ r ∈ after, r.stop = true

/-- **A stop request is honoured** in the rounds `looks` of a loop, of which is known now when its next
    check is, and whether it was left. -/
structure StopHonoured (start : Int) (looks : List Look) (nextCheck : Int) (left : Prop) : Prop where
  /-- The next check is at most one ahead of the latest reading. -/
  next_le : nextCheck ≤ latest start looks + 1
  /-- A round that reads one more than the clock at the request ends the loop. -/
  leaves : ∀ s before after, looks = before ++ after → FlagSet start s before after →
    ∀ mid r rest, after = mid ++ r :: rest → s + 1 ≤ r.time → rest = [] ∧ left

variable {l l' : Loop} {start s : Int} {looks before after : List Look}

/-- The next check does not run ahead of the clock. -/
theorem next_le (h : Runs step (enter start) looks l) (hstart : start ≤ s) (hle : ∀ r ∈ looks, r.time ≤ s) :
    l.next ≤ s + 1 := by
  apply Runs.trace_induct (P := fun looks l => (∀ r ∈ looks, r.time ≤ s) → l.next ≤ s + 1) _ _ h hle
  · intro _
    show start + 1 ≤ s + 1
    omega
  · intro looks l r l' _ ih hs hle
    rw [List.forall_mem_append] at hle
    have hnext := ih hle.1
    have htime : r.time ≤ s := hle.2 r (List.mem_singleton_self r)
    unfold step at hs
    split at hs
    · cases hs
    · split at hs
      · next hdue =>
        obtain rfl := Option.some.inj hs
        show l.next + 1 ≤ s + 1
        omega
      · obtain rfl := Option.some.inj hs
        exact hnext

/-- A loop that was left makes no round. -/
theorem runs_left (h : Runs step l looks l') (hl : l.left = true) : looks = [] ∧ l' = l := by
  cases looks with
  | nil => exact ⟨rfl, (runs_nil.mp h).symm⟩
  | cons r looks =>
    obtain ⟨u, hu, -⟩ := runs_cons.mp h
    rw [step, if_pos hl] at hu
    cases hu

/-- A round that has come to the next check of a loop whose flag is set ends it. -/
theorem leaves (h : Runs step l after l') (hnext : l.next ≤ s + 1) (hstays : ∀ r ∈ after, r.stop = true)
    {mid rest : List Look} {r : Look} (hafter : after = mid ++ r :: rest) (hr : s + 1 ≤ r.time) :
    rest = [] ∧ l'.left = true := by
  induction mid generalizing l after with
  | nil =>
    subst hafter
    obtain ⟨u, hu, hrest⟩ := runs_cons.mp h
    have hleft : u.left = true := by
      unfold step at hu
      split at hu
      · cases hu
      · rw [if_pos (by omega)] at hu
        obtain rfl := Option.some.inj hu
        exact hstays r List.mem_cons_self
    obtain ⟨hnil, rfl⟩ := runs_left hrest hleft
    exact ⟨hnil, hleft⟩
  | cons x mid ih =>
    subst hafter
    obtain ⟨u, hu, hrest⟩ := runs_cons.mp h
    rw [List.cons_append, List.forall_mem_cons] at hstays
    unfold step at hu
    split at hu
    · cases hu
    · split at hu
      · -- this round ends the loop already, so `r` is none of its rounds
        obtain rfl := Option.some.inj hu
        obtain ⟨hnil, -⟩ := runs_left hrest hstays.1
        exact absurd hnil (by simp)
      · obtain rfl := Option.some.inj hu
        exact ih hrest hnext hstays.2 rfl

/-- **Every run honours a stop request**, under a clock that does not go back. -/
theorem stop_honoured (h : Runs step (enter start) looks l)
    (hclock : (start :: looks.map Look.time).Pairwise (· ≤ ·)) :
    StopHonoured start looks l.next (l.left = true) := by
  constructor
  case next_le =>
    have hlatest : ∀ t ∈ start :: looks.map Look.time, t ≤ latest start looks := fun t ht => hclock.rel_getLast ht
    apply next_le h
    · exact hlatest start List.mem_cons_self
    · intro r hr
      exact hlatest r.time (List.mem_cons_of_mem _ (List.mem_map_of_mem hr))
  case leaves =>
    intro s before after hlooks hset mid r rest hafter hr
    rw [hlooks] at h
    obtain ⟨u, hu, hrest⟩ := runs_append.mp h
    have hnext : u.next ≤ s + 1 := next_le hu hset.start_le hset.before_le
    exact leaves hrest hnext hset.stays hafter hr

end Checkpoint
