import UdpPingPong.Sender.Thread

/- The ids of the packets the sender sends, over all its threads and all runs of them.

   The ids come out of random fills of the buffer and nowhere else: one fill when a
   thread enters `run`, and one in every `sendPacket` if `alwaysRandomize` is set.
   The global `PacketId` and its mutex are written by nobody.

   1. `packetIds_eq`: the id of a packet is the front of the last fill of its thread;
   2. `fresh_of_alwaysRandomize`: with `alwaysRandomize` every packet has its own fill;
   3. `packet_ids_unique_iff`: the ids are unique exactly when every packet has its own
      fill and the fills differ in their first eight bytes. -/
namespace UdpPingPong

open Exec Wire

variable {c : Config}

/-- What happens to a thread in a session: `UDPSender::run` gives it a rate and starts it, or it
    takes a step. -/
inductive SessionEv (size : Nat) where
  | start (qps : Int)
  | touch (e : ThreadEv size)

/-- One step of a thread, or its next start once it has returned from `run`. -/
def SenderThread.session (s : SenderThread c) : SessionEv c.packetsize → Option (SenderThread c)
  | .start qps => if s.pc = .idle then some (s.setQueryRate qps).threadStart else none
  | .touch e => s.step e

abbrev sessionStep (pool : List (SenderThread c)) (p : Nat × SessionEv c.packetsize) :
    Option (List (SenderThread c)) :=
  stepAt SenderThread.session pool p

/-- The id of the packet that an event sends, if it sends one. -/
def sentId (pool : List (SenderThread c)) (p : Nat × SessionEv c.packetsize) : List UInt64 :=
  match pool[p.1]?, p.2 with
  | some s, .touch (.sendPacket x) => if x.Accepted then [idField (s.packetSent x).buffer.bytes] else []
  | _, _ => []

/-- The ids of all packets of a session, in the order they are sent. -/
def packetIds (pool : List (SenderThread c)) (es : List (Nat × SessionEv c.packetsize)) : List UInt64 :=
  emitted sessionStep sentId pool es

/-! ## The random fills -/

/-- A random fill: the thread that drew it, its number among the fills of that thread, and its
    first eight bytes. -/
structure Fill where
  thread : Nat
  draw : Nat
  id : UInt64
  deriving DecidableEq, Repr

/-- The bytes an event fills the buffer with. -/
def drawn (c : Config) : SessionEv c.packetsize → Option (Buffer c.packetsize)
  | .touch (.run fill) => some fill
  | .touch (.sendPacket x) => if c.alwaysRandomize then some x.rnd else none
  | _ => none

/-- The last fill of every thread. -/
def lastFill (c : Config) (fs : Nat → Fill) (p : Nat × SessionEv c.packetsize) : Nat → Fill :=
  match drawn c p.2 with
  | some fill =>
    Function.update fs p.1 { thread := p.1, draw := (fs p.1).draw + 1, id := idField fill.bytes }
  | none => fs

/-- The fill that an event sends, if it sends a packet. -/
def sentFill (fs : Nat → Fill) (p : Nat × SessionEv c.packetsize) : List Fill :=
  match p.2 with
  | .touch (.sendPacket x) => if x.Accepted then [fs p.1] else []
  | _ => []

/-- The fills of all packets of a session, in the order they are sent: read off the events alone. -/
def sentFills : (Nat → Fill) → List (Nat × SessionEv c.packetsize) → List Fill
  | _, [] => []
  | fs, p :: es => sentFill (lastFill c fs p) p ++ sentFills (lastFill c fs p) es

/-- What the buffers hold before the first fill. -/
def firstFill (pool : List (SenderThread c)) (i : Nat) : Fill :=
  { thread := i, draw := 0, id := match pool[i]? with
    | some s => idField s.buffer.bytes
    | none => 0 }

/-- The buffers hold the last fills. -/
def Filled (pool : List (SenderThread c)) (fs : Nat → Fill) : Prop :=
  ∀ (i : Nat) (s : SenderThread c), pool[i]? = some s → (fs i).id = idField s.buffer.bytes

theorem firstFill_filled (pool : List (SenderThread c)) : Filled pool (firstFill pool) := by
  intro i s hs
  simp only [firstFill, hs]

variable {pool pool' : List (SenderThread c)} {fs : Nat → Fill} {p : Nat × SessionEv c.packetsize}

theorem lastFill_other {i : Nat} (hi : i ≠ p.1) : lastFill c fs p i = fs i := by
  unfold lastFill
  cases drawn c p.2 with
  | none => rfl
  | some fill => exact Function.update_of_ne hi _ _

theorem session_filled (h : sessionStep pool p = some pool') (hf : Filled pool fs) :
    Filled pool' (lastFill c fs p) := by
  obtain ⟨i, e⟩ := p
  obtain ⟨s, t, hs, ht, rfl⟩ := stepAt_eq_some.mp h
  intro j u hu
  by_cases hij : i = j
  · -- the thread that moves: only a fill, and `sendPacket` if it randomizes, change the id
    subst hij
    rw [List.getElem?_set_self (List.getElem?_eq_some_iff.mp hs).1] at hu
    obtain rfl : t = u := Option.some.inj hu
    cases e with
    | start qps =>
      simp only [SenderThread.session] at ht
      split at ht
      · obtain rfl := Option.some.inj ht
        exact hf i s hs
      · cases ht
    | touch e =>
      have hbuf := SenderThread.step_buffer ht
      cases e with
      | run fill => simp only [lastFill, drawn, Function.update_self, hbuf]
      | sendPacket x =>
        rw [hbuf, sendPacket_id]
        simp only [lastFill, drawn]
        by_cases hc : c.alwaysRandomize = true
        · simp only [hc, if_true, Function.update_self]
        · simp only [hc, if_false, Bool.false_eq_true]
          exact hf i s hs
      | startReceiver => rw [hbuf]; exact hf i s hs
      | env v => rw [hbuf]; exact hf i s hs
      | stopReceiver => rw [hbuf]; exact hf i s hs
  · rw [List.getElem?_set_ne hij] at hu
    rw [lastFill_other (Ne.symm hij)]
    exact hf j u hu

theorem sentId_eq (h : sessionStep pool p = some pool') (hf : Filled pool fs) :
    sentId pool p = (sentFill (lastFill c fs p) p).map Fill.id := by
  obtain ⟨i, e⟩ := p
  have hfilled := session_filled h hf
  obtain ⟨s, t, hs, ht, rfl⟩ := stepAt_eq_some.mp h
  cases e with
  | start qps => simp [sentId, hs, sentFill]
  | touch e =>
    cases e with
    | sendPacket x =>
      have hlast := hfilled i t (List.getElem?_set_self (List.getElem?_eq_some_iff.mp hs).1)
      rw [SenderThread.step_buffer ht] at hlast
      simp only [sentId, hs, sentFill, SenderThread.packetSent]
      split
      · rw [List.map_singleton, hlast]
      · rfl
    | run fill => simp [sentId, hs, sentFill]
    | startReceiver => simp [sentId, hs, sentFill]
    | env v => simp [sentId, hs, sentFill]
    | stopReceiver => simp [sentId, hs, sentFill]

/-- **Where the ids come from**: the fills of the packets, and nothing else. -/
theorem packetIds_eq : ∀ {es : List (Nat × SessionEv c.packetsize)} {pool : List (SenderThread c)}
    {fs : Nat → Fill}, Runs sessionStep pool es pool' → Filled pool fs →
    packetIds pool es = (sentFills fs es).map Fill.id
  | [], _, _, _, _ => rfl
  | p :: es, pool, fs, h, hf => by
    obtain ⟨u, hu, hr⟩ := runs_cons.mp h
    have ih := packetIds_eq hr (session_filled hu hf)
    calc packetIds pool (p :: es)
        = sentId pool p ++ packetIds u es := by
          rw [packetIds, emitted, hu]
          rfl
      _ = (sentFills fs (p :: es)).map Fill.id := by
          rw [sentFills, List.map_append, ← ih, sentId_eq hu hf]

/-- An event leaves the last fill of a thread alone, or makes the next one. -/
theorem lastFill_cases (fs : Nat → Fill) (p : Nat × SessionEv c.packetsize) (i : Nat) :
    lastFill c fs p i = fs i ∨
      ((lastFill c fs p i).thread = i ∧ (lastFill c fs p i).draw = (fs i).draw + 1) := by
  by_cases hi : i = p.1
  · subst hi
    unfold lastFill
    cases drawn c p.2 with
    | none => exact .inl rfl
    | some fill =>
      refine .inr ?_
      simp only [Function.update_self, and_self]
  · exact .inl (lastFill_other hi)

theorem lastFill_thread (hfs : ∀ i, (fs i).thread = i) (p : Nat × SessionEv c.packetsize) (i : Nat) :
    (lastFill c fs p i).thread = i := by
  rcases lastFill_cases fs p i with h | h
  · rw [h, hfs i]
  · exact h.1

theorem lastFill_draw (fs : Nat → Fill) (p : Nat × SessionEv c.packetsize) (i : Nat) :
    (fs i).draw ≤ (lastFill c fs p i).draw := by
  rcases lastFill_cases fs p i with h | h
  · rw [h]
  · omega

/-- With `alwaysRandomize` a packet is sent with a fill of its own. -/
theorem sentFill_next (hc : c.alwaysRandomize = true) {u : Fill} (hu : u ∈ sentFill (lastFill c fs p) p) :
    u = lastFill c fs p p.1 ∧ (fs p.1).draw < u.draw := by
  obtain ⟨i, e⟩ := p
  simp only [sentFill] at hu
  split at hu
  · split at hu
    · obtain rfl := List.mem_singleton.mp hu
      exact ⟨rfl, by simp [lastFill, drawn, hc]⟩
    · cases hu
  · cases hu

/-- With `alwaysRandomize` the fills that are sent are younger than the ones before. -/
theorem sentFills_younger (hc : c.alwaysRandomize = true) :
    ∀ {es : List (Nat × SessionEv c.packetsize)} {fs : Nat → Fill}, (∀ i, (fs i).thread = i) →
    ∀ u ∈ sentFills fs es, (fs u.thread).draw < u.draw
  | [], _, _, u, hu => by cases hu
  | p :: es, fs, hfs, u, hu => by
    rw [sentFills] at hu
    rcases List.mem_append.mp hu with hu | hu
    · obtain ⟨rfl, hlt⟩ := sentFill_next hc hu
      rw [lastFill_thread hfs p p.1]
      exact hlt
    · have hlt := sentFills_younger hc (lastFill_thread hfs p) u hu
      exact Nat.lt_of_le_of_lt (lastFill_draw fs p u.thread) hlt

theorem sentFills_nodup (hc : c.alwaysRandomize = true) :
    ∀ {es : List (Nat × SessionEv c.packetsize)} {fs : Nat → Fill}, (∀ i, (fs i).thread = i) →
    (sentFills fs es).Nodup
  | [], _, _ => List.nodup_nil
  | p :: es, fs, hfs => by
    rw [sentFills]
    apply List.Nodup.append
    · simp only [sentFill]
      split
      · split <;> simp
      · simp
    · exact sentFills_nodup hc (lastFill_thread hfs p)
    · intro u hu hv
      obtain ⟨rfl, -⟩ := sentFill_next hc hu
      have hlt := sentFills_younger hc (lastFill_thread hfs p) _ hv
      rw [lastFill_thread hfs p p.1] at hlt
      exact absurd hlt (lt_irrefl _)

/-- **With `alwaysRandomize` no fill is sent twice.** -/
theorem fresh_of_alwaysRandomize (hc : c.alwaysRandomize = true)
    (pool : List (SenderThread c)) (es : List (Nat × SessionEv c.packetsize)) :
    (sentFills (firstFill pool) es).Nodup :=
  sentFills_nodup hc fun _ => rfl

/-- **When packet ids are unique**: in every session of any number of threads, exactly when no
    random fill is sent twice and the fills that are sent differ in their first eight bytes. -/
theorem packet_ids_unique_iff {es : List (Nat × SessionEv c.packetsize)}
    (h : Runs sessionStep pool es pool') :
    (packetIds pool es).Nodup ↔ (sentFills (firstFill pool) es).Nodup ∧
      ∀ u ∈ sentFills (firstFill pool) es, ∀ v ∈ sentFills (firstFill pool) es, u.id = v.id → u = v := by
  rw [packetIds_eq h (firstFill_filled pool)]
  refine ⟨?_, ?_⟩
  · intro hnodup
    have hfresh := hnodup.of_map
    exact ⟨hfresh, (List.nodup_map_iff_inj_on hfresh).mp hnodup⟩
  · intro h
    obtain ⟨hfresh, hinj⟩ := h
    exact (List.nodup_map_iff_inj_on hfresh).mpr hinj

/-- One second, packets of 16 bytes, two slices, no receiver. -/
def smallConfig : Config :=
  { packetsize := admitPacketsize 1, runtime := 1, timeout := 1, zeitscheibe := 1 / 2
    ignoreResponses := true, alwaysRandomize := false, packetsize_ok := admitPacketsize_ge 1 }

/-- A packet that is sent at time 0. -/
def sentAt0 : Draw smallConfig.packetsize :=
  { rnd := Buffer.filled _ 1, time := 0, n := smallConfig.packetsize, errno := 0 }

/-- The thread gets the rate 4 and sends the two packets of its first slice. -/
def twoPackets : List (Nat × SessionEv smallConfig.packetsize) :=
  [(0, .start 4), (0, .touch (.run (Buffer.filled _ 7))), (0, .touch (.env (.getMicrotime 0))),
    (0, .touch (.env (.getNsec 0))), (0, .touch (.env (.getMicrotime 0))),
    (0, .touch (.sendPacket sentAt0)), (0, .touch (.sendPacket sentAt0))]

theorem twoPackets_runs : ∃ pool', Runs sessionStep [SenderThread.new smallConfig] twoPackets pool' :=
  Option.isSome_iff_exists.mp (by decide +kernel)

theorem packet_ids_unique_iff_two_packets :
    (packetIds [SenderThread.new smallConfig] twoPackets).Nodup ↔
      (sentFills (firstFill [SenderThread.new smallConfig]) twoPackets).Nodup ∧
      ∀ u ∈ sentFills (firstFill [SenderThread.new smallConfig]) twoPackets,
        ∀ v ∈ sentFills (firstFill [SenderThread.new smallConfig]) twoPackets, u.id = v.id → u = v :=
  have ⟨_, hrun⟩ := twoPackets_runs
  packet_ids_unique_iff hrun

/-- Both packets carry the same id. -/
theorem two_packets_one_id : ¬ ∀ es pool', Runs sessionStep [SenderThread.new smallConfig] es pool' →
    (packetIds [SenderThread.new smallConfig] es).Nodup := by
  intro h
  obtain ⟨pool', hrun⟩ := twoPackets_runs
  exact absurd (h twoPackets pool' hrun) (by decide +kernel)

end UdpPingPong
