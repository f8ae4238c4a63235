import UdpPingPong.Lib.RoundRobin
import UdpPingPong.Sender.Arguments
import UdpPingPong.Sender.Slices

/- The threads of the sender: `UDPSender::prepareThreads`.

   Every thread gets the same settings and the same destination. The source addresses are
   dealt out in turn. Names are resolved and sockets bound and connected by the
   system, whose answers may end the loop with an exception.

   1. `prepareThread`, `prepareLoop`: one round of the loop, and the loop;
   2. `prepareLoop_pool`: what a round keeps;
   3. `prepares_evenly`: the pool has threads of one configuration, as many as asked
      for if nothing failed, and every source address has its share of them. -/
namespace UdpPingPong

open CString RoundRobin

/-- The exceptions of a round. `Array::operator[]` throws the last one. -/
inductive PrepareException where
  | couldNotOpenSocket
  | invalidArguments
  | sourceFailed (ip : CString)
  | connect (e : ConnectException)
  | connectFailed (hostname : CString) (port : Int32)
  | outOfBounds
deriving DecidableEq

/-- The answers of the system to thread number `i`: its socket, whether an address is resolved and the
    socket bound to it, and whether it is connected; and the services by name. -/
structure PrepareAnswers where
  socket : Nat → Int
  bind : Nat → CString → Bool
  connect : Nat → CString → Int32 → Bool
  getservbyname : CString → Option UInt16

/-- A thread as `prepareThreads` puts it into the pool. A pool is kept in the order of its threads' numbers. -/
structure PreparedThread where
  config : Config
  sourceIp : Option CString
  hostname : CString
  port : Int32

/-- The configuration of every thread, with its slices of `zeitscheibe` seconds. -/
def Settings.config (s : Settings) (zeitscheibe : ℚ) : Config :=
  { packetsize := s.packetsize, runtime := s.laufzeit.toInt, timeout := s.timeout.toInt, zeitscheibe
    ignoreResponses := s.ignoreResponses, alwaysRandomize := s.alwaysRandomize, verbose := false
    packetsize_ok := s.packetsize_ok }

/-- `setSourceIP(SourceIpList[si])`, if there are source addresses. -/
def setSourceIp (sys : PrepareAnswers) (list : List CString) (i si : Nat) : Except PrepareException (Option CString) :=
  if 0 < list.length then
    match list[si]? with
    | none => .error .outOfBounds
    | some ip => if sys.bind i ip then .ok (some ip) else .error (.sourceFailed ip)
  else .ok none

/-- The body of the loop for thread number `i`, up to `addThread`. -/
def prepareThread (sys : PrepareAnswers) (s : Settings) (i si : Nat) : Except PrepareException PreparedThread :=
  if sys.socket i = 0 then .error .couldNotOpenSocket
  else match setZeitscheibe s.zeitscheibe with
    | none => .error .invalidArguments
    | some zeitscheibe =>
      match setSourceIp sys s.sourceIpList i si with
      | .error e => .error e
      | .ok sourceIp =>
        match connect sys.getservbyname s.ziel with
        | .error e => .error (.connect e)
        | .ok (hostname, port) =>
          if sys.connect i hostname port then .ok { config := s.config zeitscheibe, sourceIp, hostname, port }
          else .error (.connectFailed hostname port)

/-- The loop for the threads that are left, from thread number `i`: the pool, and the exception that
    ended it. -/
def prepareLoop (sys : PrepareAnswers) (s : Settings) (left i si : Nat) (pool : List PreparedThread) :
    List PreparedThread × Option PrepareException :=
  match left with
  | 0 => (pool, none)
  | left + 1 =>
    match prepareThread sys s i si with
    | .error e => (pool, some e)
    | .ok thread =>
      let si := if 0 < s.sourceIpList.length then next s.sourceIpList.length si else si
      prepareLoop sys s left (i + 1) si (pool ++ [thread])

def prepareThreads (sys : PrepareAnswers) (s : Settings) : List PreparedThread × Option PrepareException :=
  prepareLoop sys s s.threadCount.toInt.toNat 0 0 []

/-! ## The pool -/

/-- The source addresses of the first `n` threads. -/
def sourcesDealt (list : List CString) (n : Nat) : List (Option CString) :=
  if list = [] then List.replicate n none else (dealt list n).map some

/-- **A pool with `n` threads**: all have the configuration of the settings and one destination, and the
    source addresses are dealt out in turn. -/
structure Pooled (sys : PrepareAnswers) (s : Settings) (n : Nat) (pool : List PreparedThread) : Prop where
  count : pool.length = n
  config : ∀ t ∈ pool, ∃ zeitscheibe, setZeitscheibe s.zeitscheibe = some zeitscheibe ∧ t.config = s.config zeitscheibe
  destination : ∀ t ∈ pool, connect sys.getservbyname s.ziel = .ok (t.hostname, t.port)
  sources : pool.map PreparedThread.sourceIp = sourcesDealt s.sourceIpList n

/-- The index of the next source address, if there are any, in front of thread number `n`. -/
def NextSource (list : List CString) (n si : Nat) : Prop := 0 < list.length → si = n % list.length

variable {sys : PrepareAnswers} {s : Settings}

theorem pooled_nil : Pooled sys s 0 [] := by
  refine ⟨rfl, fun t ht => absurd ht List.not_mem_nil, fun t ht => absurd ht List.not_mem_nil, ?_⟩
  unfold sourcesDealt
  split
  · rfl
  · rw [dealt_zero]
    rfl

theorem setSourceIp_ok {list : List CString} {i si : Nat} {sourceIp : Option CString} (hsi : NextSource list i si)
    (h : setSourceIp sys list i si = .ok sourceIp) : sourcesDealt list (i + 1) = sourcesDealt list i ++ [sourceIp] := by
  unfold setSourceIp at h
  unfold sourcesDealt
  split at h
  · next hpos =>
    have hne : list ≠ [] := List.ne_nil_of_length_pos hpos
    split at h
    · cases h
    · next ip hip =>
      rw [hsi hpos] at hip
      split at h
      · cases h
        rw [if_neg hne, if_neg hne, dealt_succ hip, List.map_append]
        rfl
      · cases h
  · next hpos =>
    have hnil : list = [] := List.length_eq_zero_iff.mp (Nat.eq_zero_of_not_pos hpos)
    cases h
    rw [if_pos hnil, if_pos hnil, List.replicate_succ']

/-- The index of the next source address is in range. -/
theorem setSourceIp_in_bounds {list : List CString} {i si : Nat} (hsi : NextSource list i si) :
    setSourceIp sys list i si ≠ .error .outOfBounds := by
  unfold setSourceIp
  split
  · next hpos =>
    rw [hsi hpos, List.getElem?_eq_getElem (Nat.mod_lt i hpos)]
    dsimp only
    split <;> simp
  · simp

/-- What a round puts into the pool. -/
theorem prepareThread_ok {i si : Nat} {t : PreparedThread} (h : prepareThread sys s i si = .ok t) :
    (∃ zeitscheibe, setZeitscheibe s.zeitscheibe = some zeitscheibe ∧ t.config = s.config zeitscheibe) ∧
      connect sys.getservbyname s.ziel = .ok (t.hostname, t.port) ∧
      setSourceIp sys s.sourceIpList i si = .ok t.sourceIp := by
  unfold prepareThread at h
  split at h
  · cases h
  split at h
  · cases h
  · next zeitscheibe hz =>
    split at h
    · cases h
    · next sourceIp hsource =>
      split at h
      · cases h
      · next hostname port hconnect =>
        split at h
        · cases h
          exact ⟨⟨zeitscheibe, hz, rfl⟩, hconnect, hsource⟩
        · cases h

theorem prepareThread_in_bounds {i si : Nat} (hsi : NextSource s.sourceIpList i si) :
    prepareThread sys s i si ≠ .error .outOfBounds := by
  intro h
  unfold prepareThread at h
  split at h
  · cases h
  split at h
  · cases h
  · split at h
    · next e hsource =>
      cases h
      exact setSourceIp_in_bounds hsi hsource
    · split at h
      · cases h
      · split at h <;> cases h

/-- **One round**: the pool has one thread more. -/
theorem pooled_snoc {n si : Nat} {pool : List PreparedThread} {t : PreparedThread} (hpool : Pooled sys s n pool)
    (hsi : NextSource s.sourceIpList n si) (h : prepareThread sys s n si = .ok t) :
    Pooled sys s (n + 1) (pool ++ [t]) := by
  obtain ⟨hconfig, hdestination, hsource⟩ := prepareThread_ok h
  refine ⟨?_, ?_, ?_, ?_⟩
  · rw [List.length_append, hpool.count]
    rfl
  · intro t' ht'
    rcases List.mem_append.mp ht' with hold | hnew
    · exact hpool.config t' hold
    · rw [List.mem_singleton.mp hnew]
      exact hconfig
  · intro t' ht'
    rcases List.mem_append.mp ht' with hold | hnew
    · exact hpool.destination t' hold
    · rw [List.mem_singleton.mp hnew]
      exact hdestination
  · rw [List.map_append, hpool.sources, setSourceIp_ok hsi hsource]
    rfl

theorem NextSource.step {list : List CString} {n si : Nat} (hsi : NextSource list n si) :
    NextSource list (n + 1) (if 0 < list.length then next list.length si else si) := by
  intro hpos
  rw [if_pos hpos, hsi hpos, next_mod hpos]

/-- **The whole loop**: it stops with a good pool, complete if there is no exception. -/
theorem prepareLoop_pool (left : Nat) {n si : Nat} {pool : List PreparedThread} (hpool : Pooled sys s n pool)
    (hsi : NextSource s.sourceIpList n si) :
    ∃ m, Pooled sys s m (prepareLoop sys s left n si pool).1 ∧
      ((prepareLoop sys s left n si pool).2 = none → m = n + left) ∧
      (prepareLoop sys s left n si pool).2 ≠ some .outOfBounds := by
  induction left generalizing n si pool with
  | zero => exact ⟨n, hpool, fun _ => rfl, (Option.some_ne_none _).symm⟩
  | succ left ih =>
    rw [prepareLoop]
    cases hround : prepareThread sys s n si with
    | error e =>
      refine ⟨n, hpool, fun h => absurd h (Option.some_ne_none e), ?_⟩
      intro h
      rw [Option.some.inj h] at hround
      exact prepareThread_in_bounds hsi hround
    | ok t =>
      obtain ⟨m, hm, hdone, herror⟩ := ih (pooled_snoc hpool hsi hround) hsi.step
      exact ⟨m, hm, fun h => (hdone h).trans (Nat.add_right_comm n 1 left), herror⟩

/-- The threads of a pool that have some source address. -/
theorem Pooled.count_source {n : Nat} {pool : List PreparedThread} (h : Pooled sys s n pool)
    (hne : s.sourceIpList ≠ []) (ip : CString) :
    (pool.countP fun t => t.sourceIp = some ip) = (dealt s.sourceIpList n).count ip := by
  calc (pool.countP fun t => t.sourceIp = some ip)
      = (pool.map PreparedThread.sourceIp).count (some ip) := by
        rw [List.count, List.countP_map]
        apply List.countP_congr
        intro t _
        simp
    _ = ((dealt s.sourceIpList n).map some).count (some ip) := by rw [h.sources, sourcesDealt, if_neg hne]
    _ = (dealt s.sourceIpList n).count ip := List.count_map_of_injective _ _ (Option.some_injective _) ip

/-- **How the threads are prepared.** -/
structure PreparedEvenly (sys : PrepareAnswers) (s : Settings) : Prop where
  /-- No source address is looked for behind the end of the list. -/
  in_bounds : (prepareThreads sys s).2 ≠ some .outOfBounds
  /-- Without an exception there are as many threads as were asked for. -/
  complete : (prepareThreads sys s).2 = none → (prepareThreads sys s).1.length = s.threadCount.toInt.toNat
  /-- All threads have one configuration and one destination. -/
  alike : ∀ t ∈ (prepareThreads sys s).1, ∃ zeitscheibe, setZeitscheibe s.zeitscheibe = some zeitscheibe ∧
    t.config = s.config zeitscheibe ∧ connect sys.getservbyname s.ziel = .ok (t.hostname, t.port)
  unbound : s.sourceIpList = [] → ∀ t ∈ (prepareThreads sys s).1, t.sourceIp = none
  /-- The source addresses are dealt out in the order of their list. -/
  in_turn : s.sourceIpList ≠ [] → (prepareThreads sys s).1.map PreparedThread.sourceIp =
    (dealt s.sourceIpList (prepareThreads sys s).1.length).map some
  /-- Every source address gets its share of the threads, and at most one thread more for each time it
      is listed. -/
  shared : s.sourceIpList ≠ [] → ∀ ip share, share = (prepareThreads sys s).1.length / s.sourceIpList.length →
    share * s.sourceIpList.count ip ≤ ((prepareThreads sys s).1.countP fun t => t.sourceIp = some ip) ∧
      ((prepareThreads sys s).1.countP fun t => t.sourceIp = some ip) ≤ (share + 1) * s.sourceIpList.count ip

theorem prepares_evenly (sys : PrepareAnswers) (s : Settings) : PreparedEvenly sys s := by
  obtain ⟨m, hpool, hdone, herror⟩ := prepareLoop_pool s.threadCount.toInt.toNat (pooled_nil : Pooled sys s 0 [])
    (fun _ => (Nat.zero_mod _).symm)
  change Pooled sys s m (prepareThreads sys s).1 at hpool
  have hlength := hpool.count
  constructor
  case in_bounds => exact herror
  case complete =>
    intro hnone
    exact hlength.trans ((hdone hnone).trans (Nat.zero_add _))
  case alike =>
    intro t ht
    obtain ⟨zeitscheibe, hz, hconfig⟩ := hpool.config t ht
    exact ⟨zeitscheibe, hz, hconfig, hpool.destination t ht⟩
  case unbound =>
    intro hnil t ht
    have hmem := List.mem_map_of_mem (f := PreparedThread.sourceIp) ht
    rw [hpool.sources, sourcesDealt, if_pos hnil] at hmem
    exact List.eq_of_mem_replicate hmem
  case in_turn =>
    intro hne
    rw [hlength, hpool.sources, sourcesDealt, if_neg hne]
  case shared =>
    intro hne ip share hshare
    rw [hshare, hlength, hpool.count_source hne]
    exact count_dealt s.sourceIpList m ip

end UdpPingPong
