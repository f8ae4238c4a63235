import UdpPingPong.Stat.NetDev

/- A sample of the system statistics.

   1. `sampleSensorData`, with what the kernel answers as its arguments. The map of
      interfaces is not cleared: it is the one of the sample before;
   2. `foldl_addInterface_get`: what the map has already stays, and the first line
      of a name counts;
   3. `present_iff`: when the interfaces are those of the file. -/
namespace UdpPingPong

/-- `struct sysinfo` of the kernel. -/
structure KernelSysinfo where
  uptime : Int64
  totalram : UInt64
  freeram : UInt64
  sharedram : UInt64
  bufferram : UInt64
  totalswap : UInt64
  freeswap : UInt64
  procs : UInt16
  memUnit : UInt32

/-- The numbers that `fscanf` finds in /proc/stat. With other than five the file is closed twice. -/
def sampleCpuUsage : List Int32 → Except SampleFailure Cpu
  | [user, nice, system, idle, iowait] => .ok { user, nice, system, idle, iowait }
  | _ => .error .closedTwice

/-- `info` is the answer of `sysinfo`, if it did not fail. -/
def sampleSysinfo (info : Option KernelSysinfo) (stat : Sysinfo) : Sysinfo :=
  match info with
  | none => stat
  | some info =>
    let unit := info.memUnit.toUInt64
    { uptime := info.uptime
      freeswap := (info.freeswap * unit).toInt64
      freeram := (info.freeram * unit).toInt64
      bufferram := (info.bufferram * unit).toInt64
      totalram := (info.totalram * unit).toInt64
      totalswap := (info.totalswap * unit).toInt64
      sharedram := (info.sharedram * unit).toInt64
      procs := info.procs.toUInt32.toInt32 }

/-- `sampleSensorData(stat)` at `now`, with the contents of /proc/net/dev. -/
def sampleSensorData (now : ℚ) (scanned : List Int32) (info : Option KernelSysinfo) (content : List Char)
    (stat : SystemStat) : Except SampleFailure SystemStat := do
  let cpu ← sampleCpuUsage scanned
  let net ← sampleNetwork content stat.interfaces stat.netTotal
  return { sampleTime := now, cpu, sysinfo := sampleSysinfo info stat.sysinfo, netTotal := net.2, interfaces := net.1 }

/-- Five numbers are taken, no others. -/
theorem sampleCpuUsage_ok {scanned : List Int32} : (∃ cpu, sampleCpuUsage scanned = .ok cpu) ↔ scanned.length = 5 := by
  unfold sampleCpuUsage
  split
  · next user nice system idle iowait => exact ⟨fun _ => rfl, fun _ => ⟨_, rfl⟩⟩
  · next h =>
    refine ⟨?_, ?_⟩
    · intro h
      obtain ⟨cpu, hcpu⟩ := h
      cases hcpu
    · intro hlen
      obtain ⟨user, rest, rfl⟩ := List.exists_cons_of_length_eq_add_one hlen
      obtain ⟨nice, system, idle, iowait, rfl⟩ := List.length_eq_four.mp (Nat.succ.inj hlen)
      exact absurd rfl (h user nice system idle iowait)

/-! ## What the map holds afterwards -/

theorem foldl_addInterface_get (nifs : List Interface) (r : InterfaceMap × Interface) (name : CString) :
    (nifs.foldl addInterface r).1[name]? = r.1[name]?.or (nifs.find? fun nif => nif.name = name) := by
  induction nifs generalizing r with
  | nil => exact (Option.or_none).symm
  | cons nif nifs ih =>
    rw [List.foldl_cons, ih, addInterface, Std.ExtTreeMap.getElem?_insertIfNew, List.find?_cons]
    by_cases hname : nif.name = name
    · subst hname
      by_cases hm : nif.name ∈ r.1
      · simp [hm]
      · simp [hm]
    · simp [hname]

theorem mem_processed {f : DevFile} {nif : Interface} :
    nif ∈ f.processed ↔ nif ∈ f.interfaces ∧ 1 < nif.name.length := by
  have hcounted : nif ∈ (f.lines ++ f.tail.toList).flatMap DevLine.counted ↔
      nif ∈ f.interfaces ∧ 1 < nif.name.length := by
    rw [counted_eq_filter, List.mem_filter, decide_eq_true_eq]
    rfl
  have htwice : nif ∈ f.readTwice → nif ∈ (f.lines ++ f.tail.toList).flatMap DevLine.counted := by
    rw [DevFile.readTwice]
    cases f.tail with
    | some l => exact fun h => absurd h List.not_mem_nil
    | none =>
      cases hlast : f.lines.getLast? with
      | none => exact fun h => absurd h List.not_mem_nil
      | some l =>
        intro h
        exact List.mem_flatMap.mpr ⟨l, List.mem_append_left _ (List.mem_of_getLast? hlast), h⟩
  rw [DevFile.processed, List.mem_append, ← hcounted]
  exact or_iff_left_of_imp htwice

/-- **The map describes the present**: one entry for every interface of the file, under its name and
    with its counters. -/
structure DescribesPresent (f : DevFile) (m : InterfaceMap) : Prop where
  keys : ∀ name, name ∈ m ↔ ∃ nif ∈ f.interfaces, nif.name = name
  counters : ∀ nif ∈ f.interfaces, ∀ entry, m[nif.name]? = some entry →
    entry.receive = nif.receive ∧ entry.transmit = nif.transmit

section
variable {f : DevFile} {old new : InterfaceMap}
  (hget : ∀ name, new[name]? = old[name]?.or (f.processed.find? fun nif => nif.name = name))
include hget

/-- A map that describes the present had no wrong entry before. -/
theorem DescribesPresent.old_entry (h : DescribesPresent f new) {name : CString} {entry : Interface}
    (hold : old[name]? = some entry) :
    ∃ nif ∈ f.interfaces, nif.name = name ∧ entry.receive = nif.receive ∧ entry.transmit = nif.transmit := by
  have hnew : new[name]? = some entry := by rw [hget, hold, Option.some_or]
  obtain ⟨nif, hnif, rfl⟩ := (h.keys name).mp (Std.ExtTreeMap.mem_iff_isSome_getElem?.mpr (by rw [hnew]; rfl))
  exact ⟨nif, hnif, rfl, h.counters nif hnif entry hnew⟩

/-- An interface with a name of one character can only have been there before. -/
theorem DescribesPresent.short_name (h : DescribesPresent f new) {nif : Interface} (hnif : nif ∈ f.interfaces)
    (hlen : nif.name.length = 1) : nif.name ∈ old := by
  have hnone : f.processed.find? (fun x => x.name = nif.name) = none := by
    rw [List.find?_eq_none]
    intro x hx hname
    have hlong := (mem_processed.mp hx).2
    rw [of_decide_eq_true hname, hlen] at hlong
    exact Nat.lt_irrefl 1 hlong
  have hmem : nif.name ∈ new := (h.keys nif.name).mpr ⟨nif, hnif, rfl⟩
  rwa [Std.ExtTreeMap.mem_iff_isSome_getElem?, hget, hnone, Option.or_none,
    ← Std.ExtTreeMap.mem_iff_isSome_getElem?] at hmem

/-- What the map has afterwards is an entry it had before or an interface of the file. -/
theorem new_entry {name : CString} {entry : Interface} (hnew : new[name]? = some entry) :
    old[name]? = some entry ∨ entry ∈ f.interfaces ∧ entry.name = name := by
  rw [hget, Option.or_eq_some_iff] at hnew
  rcases hnew with hold | ⟨-, hfound⟩
  · exact .inl hold
  · have hname := List.find?_some hfound
    rw [decide_eq_true_eq] at hname
    exact .inr ⟨(mem_processed.mp (List.mem_of_find?_eq_some hfound)).1, hname⟩

/-- An interface with a longer name gets in. -/
theorem mem_new {nif : Interface} (hnif : nif ∈ f.interfaces) (h : nif.name ∈ old ∨ 1 < nif.name.length) :
    nif.name ∈ new := by
  rw [Std.ExtTreeMap.mem_iff_isSome_getElem?, hget, Option.isSome_or, Bool.or_eq_true,
    ← Std.ExtTreeMap.mem_iff_isSome_getElem?]
  rcases h with hold | hlen
  · exact .inl hold
  · exact .inr (List.find?_isSome.mpr ⟨nif, mem_processed.mpr ⟨hnif, hlen⟩, decide_eq_true rfl⟩)

/-- The map in terms of what it had before. -/
theorem describesPresent_iff (hnames : (f.interfaces.map Interface.name).Nodup)
    (hne : ∀ nif ∈ f.interfaces, nif.name ≠ []) :
    DescribesPresent f new ↔
      (∀ name entry, old[name]? = some entry →
        ∃ nif ∈ f.interfaces, nif.name = name ∧ entry.receive = nif.receive ∧ entry.transmit = nif.transmit) ∧
      ∀ nif ∈ f.interfaces, nif.name.length = 1 → nif.name ∈ old := by
  refine ⟨?_, ?_⟩
  · intro h
    exact ⟨fun name entry => h.old_entry hget, fun nif => h.short_name hget⟩
  · intro h
    obtain ⟨hold, hshort⟩ := h
    have hentry : ∀ name entry, new[name]? = some entry → ∃ nif ∈ f.interfaces,
        nif.name = name ∧ entry.receive = nif.receive ∧ entry.transmit = nif.transmit := by
      intro name entry hnew
      rcases new_entry hget hnew with h | ⟨hmem, hname⟩
      · exact hold name entry h
      · exact ⟨entry, hmem, hname, rfl, rfl⟩
    refine ⟨fun name => ⟨?_, ?_⟩, ?_⟩
    · intro hmem
      obtain ⟨entry, hnew⟩ := Option.isSome_iff_exists.mp (Std.ExtTreeMap.mem_iff_isSome_getElem?.mp hmem)
      obtain ⟨nif, hnif, hname, -⟩ := hentry name entry hnew
      exact ⟨nif, hnif, hname⟩
    · intro h
      obtain ⟨nif, hnif, rfl⟩ := h
      apply mem_new hget hnif
      by_cases hlen : nif.name.length = 1
      · exact .inl (hshort nif hnif hlen)
      · have hpos := List.length_pos_iff.mpr (hne nif hnif)
        exact .inr (by omega)
    · intro nif hnif entry hnew
      obtain ⟨nif', hnif', hname, hcounters⟩ := hentry nif.name entry hnew
      rwa [List.inj_on_of_nodup_map hnames hnif' hnif hname] at hcounters

end

/-- **When a sample describes the present**: the processor line can be read, what the map had before
    is in the file and unchanged, and an interface with a name of one character was there before. -/
theorem present_iff (f : DevFile) (hnames : (f.interfaces.map Interface.name).Nodup)
    (hne : ∀ nif ∈ f.interfaces, nif.name ≠ []) (now : ℚ) (scanned : List Int32) (info : Option KernelSysinfo)
    (stat : SystemStat) :
    (∃ s, sampleSensorData now scanned info f.content stat = .ok s ∧ DescribesPresent f s.interfaces) ↔
      scanned.length = 5 ∧
      (∀ name entry, stat.interfaces[name]? = some entry →
        ∃ nif ∈ f.interfaces, nif.name = name ∧ entry.receive = nif.receive ∧ entry.transmit = nif.transmit) ∧
      ∀ nif ∈ f.interfaces, nif.name.length = 1 → nif.name ∈ stat.interfaces := by
  have hget := foldl_addInterface_get f.processed
    (stat.interfaces, { stat.netTotal with receive := {}, transmit := {} })
  rw [← describesPresent_iff hget hnames hne]
  simp only [sampleSensorData, sampleNetwork_eq, bind, Except.bind, pure, Except.pure]
  rw [← sampleCpuUsage_ok]
  cases hcpu : sampleCpuUsage scanned with
  | error e => simp
  | ok cpu => simp

/-- The first sample of a machine. -/
theorem present_iff_first_sample :
    (∃ s, sampleSensorData 0 [1, 2, 3, 4, 5] none loFile.content {} = .ok s ∧ DescribesPresent loFile s.interfaces) ↔
      [(1 : Int32), 2, 3, 4, 5].length = 5 ∧
      (∀ name entry, ({} : SystemStat).interfaces[name]? = some entry → ∃ nif ∈ loFile.interfaces,
        nif.name = name ∧ entry.receive = nif.receive ∧ entry.transmit = nif.transmit) ∧
      ∀ nif ∈ loFile.interfaces, nif.name.length = 1 → nif.name ∈ ({} : SystemStat).interfaces :=
  present_iff loFile (List.nodup_singleton _) (List.forall_mem_singleton.mpr (by decide)) 0 [1, 2, 3, 4, 5] none {}

/-- Statistics with the counters 0 for an interface. -/
def earlierSample : SystemStat := { interfaces := (∅ : InterfaceMap).insert ['l', 'o'] { name := ['l', 'o'] } }

/-- The counters of the first sample stay for ever. -/
theorem old_counters_stay : ∃ s, sampleSensorData 1 [1, 2, 3, 4, 5] none loFile.content earlierSample = .ok s ∧
    s.interfaces[['l', 'o']]? = some { name := ['l', 'o'] } ∧ ¬ DescribesPresent loFile s.interfaces := by
  have hcall : ∃ s, sampleSensorData 1 [1, 2, 3, 4, 5] none loFile.content earlierSample = .ok s ∧
      s.interfaces[['l', 'o']]? = some { name := ['l', 'o'] } := by
    simp only [sampleSensorData, sampleCpuUsage, sampleNetwork_eq, bind, Except.bind, pure, Except.pure,
      Except.ok.injEq, exists_eq_left']
    rw [foldl_addInterface_get, earlierSample, Std.ExtTreeMap.getElem?_insert_self, Option.some_or]
  obtain ⟨s, hs, hget⟩ := hcall
  refine ⟨s, hs, hget, fun h => ?_⟩
  have hreceive := (h.counters loLine.interface (List.mem_singleton_self _) _ hget).1
  exact absurd hreceive (by decide +kernel)

end UdpPingPong
