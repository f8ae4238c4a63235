import UdpPingPong.Stat.AssocArray

/- The system statistics, exported to an associative array and imported again.

   1. `SystemStat` and its parts, with the interfaces in a `std::map` ordered by
      name. The sample time is the exact number that the `double` stands for;
   2. `exportToArray` and `importFromArray`, call by call;
   3. `exportToArray_eq`: an export is a sequence of writes, along fixed paths and
      along one path below "interface" for every interface;
   4. `fields_read` and `interfaces_read`: what is found in it. The keys below
      "interface" are inserted and walked through, never looked up, so the order
      in which they stand does not matter;
   5. `import_undoes_export`, for at least one interface, names that the array
      tells apart and a target that holds no other interfaces; `no_round_trip`:
      the round trip fails without these. -/
namespace UdpPingPong

structure Network where
  bytes : UInt64 := 0
  packets : UInt64 := 0
  errs : UInt64 := 0
  drop : UInt64 := 0
deriving DecidableEq, Repr

structure Cpu where
  user : Int32 := 0
  nice : Int32 := 0
  system : Int32 := 0
  idle : Int32 := 0
  iowait : Int32 := 0
deriving DecidableEq, Repr

structure Sysinfo where
  uptime : Int64 := 0
  freeswap : Int64 := 0
  totalswap : Int64 := 0
  freeram : Int64 := 0
  bufferram : Int64 := 0
  totalram : Int64 := 0
  sharedram : Int64 := 0
  procs : Int32 := 0
deriving DecidableEq, Repr

structure Interface where
  name : CString := []
  receive : Network := {}
  transmit : Network := {}
deriving DecidableEq, Repr

/-- `std::map<String, Interface>`: `String::operator<` is `strcmp`. -/
abbrev InterfaceMap := Std.ExtTreeMap CString Interface

structure SystemStat where
  sampleTime : ℚ := 0
  cpu : Cpu := {}
  sysinfo : Sysinfo := {}
  netTotal : Interface := {}
  interfaces : InterfaceMap := ∅

/-! ## Export -/

section
open Decimal

/-- The four calls of `setf` for the counters below `path`. -/
def networkTexts (path : CString) (n : Network) : List (CString × CString) :=
  [(path ++ "/bytes".toList, printNat n.bytes.toNat),
   (path ++ "/packets".toList, printNat n.packets.toNat),
   (path ++ "/errs".toList, printNat n.errs.toNat),
   (path ++ "/drop".toList, printNat n.drop.toNat)]

/-- The array `d` of one interface. -/
def interfaceTexts (nif : Interface) : List (CString × CString) :=
  networkTexts "receive".toList nif.receive ++ networkTexts "transmit".toList nif.transmit ++
    [("name".toList, nif.name)]

/-- The calls of `setf` in front of the loop over the interfaces. -/
def totalTexts (s : SystemStat) : List (CString × CString) :=
  ("sampleTime".toList, printFixed6 s.sampleTime) ::
    (networkTexts "net_total/receive".toList s.netTotal.receive ++
      networkTexts "net_total/transmit".toList s.netTotal.transmit)

/-- The calls of `setf` behind the loop. -/
def systemTexts (s : SystemStat) : List (CString × CString) :=
  [("cpu/user".toList, printInt s.cpu.user.toInt),
   ("cpu/nice".toList, printInt s.cpu.nice.toInt),
   ("cpu/system".toList, printInt s.cpu.system.toInt),
   ("cpu/idle".toList, printInt s.cpu.idle.toInt),
   ("cpu/iowait".toList, printInt s.cpu.iowait.toInt),
   ("sysinfo/uptime".toList, printInt s.sysinfo.uptime.toInt),
   ("sysinfo/freeswap".toList, printInt s.sysinfo.freeswap.toInt),
   ("sysinfo/totalswap".toList, printInt s.sysinfo.totalswap.toInt),
   ("sysinfo/freeram".toList, printInt s.sysinfo.freeram.toInt),
   ("sysinfo/bufferram".toList, printInt s.sysinfo.bufferram.toInt),
   ("sysinfo/totalram".toList, printInt s.sysinfo.totalram.toInt),
   ("sysinfo/sharedram".toList, printInt s.sysinfo.sharedram.toInt),
   ("sysinfo/procs".toList, printInt s.sysinfo.procs.toInt)]

end

/-- One round of the loop over the interfaces. -/
def exportInterface (data : AssocArray) (nif : Interface) : Except ArrayException AssocArray := do
  let d ← AssocArray.setStrings (interfaceTexts nif) {}
  AssocArray.setArray ("interface/".toList ++ nif.name) d data

def exportToArray (s : SystemStat) (data : AssocArray) : Except ArrayException AssocArray := do
  let data ← data.setStrings (totalTexts s)
  let data ← (s.interfaces.toList.map Prod.snd).foldlM exportInterface data
  data.setStrings (systemTexts s)

/-! ## Import -/

section
open CString

def importNetwork (path : CString) (data : AssocArray) : Except ArrayException Network := do
  let bytes ← data.getString (path ++ "/bytes".toList)
  let packets ← data.getString (path ++ "/packets".toList)
  let errs ← data.getString (path ++ "/errs".toList)
  let drop ← data.getString (path ++ "/drop".toList)
  return { bytes := toUnsignedLong bytes, packets := toUnsignedLong packets
           errs := toUnsignedLong errs, drop := toUnsignedLong drop }

/-- One round of the loop over the entries of "interface". `std::map::insert`
    leaves an interface that is there already. -/
def importInterface (interfaces : InterfaceMap) (it : CString × Variant) :
    Except ArrayException InterfaceMap := do
  let d ← it.2.toAssocArray
  let receive ← importNetwork "receive".toList d
  let transmit ← importNetwork "transmit".toList d
  return interfaces.insertIfNew it.1 { name := it.1, receive, transmit }

def importCpu (data : AssocArray) : Except ArrayException Cpu := do
  let user ← data.getString "cpu/user".toList
  let nice ← data.getString "cpu/nice".toList
  let system ← data.getString "cpu/system".toList
  let idle ← data.getString "cpu/idle".toList
  let iowait ← data.getString "cpu/iowait".toList
  return { user := toInt user, nice := toInt nice, system := toInt system
           idle := toInt idle, iowait := toInt iowait }

def importSysinfo (data : AssocArray) : Except ArrayException Sysinfo := do
  let uptime ← data.getString "sysinfo/uptime".toList
  let freeswap ← data.getString "sysinfo/freeswap".toList
  let totalswap ← data.getString "sysinfo/totalswap".toList
  let freeram ← data.getString "sysinfo/freeram".toList
  let bufferram ← data.getString "sysinfo/bufferram".toList
  let totalram ← data.getString "sysinfo/totalram".toList
  let sharedram ← data.getString "sysinfo/sharedram".toList
  let procs ← data.getString "sysinfo/procs".toList
  return { uptime := toLong uptime, freeswap := toLong freeswap, totalswap := toLong totalswap
           freeram := toLong freeram, bufferram := toLong bufferram, totalram := toLong totalram
           sharedram := toLong sharedram, procs := toInt procs }

/-- `t.importFromArray(data)`. Of the totals only the counters are set, not the name. -/
def importFromArray (data : AssocArray) (t : SystemStat) : Except ArrayException SystemStat := do
  let sampleTime ← data.getString "sampleTime".toList
  let receive ← importNetwork "net_total/receive".toList data
  let transmit ← importNetwork "net_total/transmit".toList data
  let dataIfList ← data.getAssocArray "interface".toList
  let interfaces ← dataIfList.tree.foldlM importInterface t.interfaces
  let cpu ← importCpu data
  let sysinfo ← importSysinfo data
  return { sampleTime := toDouble sampleTime, cpu, sysinfo
           netTotal := { t.netTotal with receive, transmit }, interfaces }

end

/-! ## Reading one group of fields -/

section
variable {data : AssocArray}

theorem importNetwork_eq {path : CString} {n : Network}
    (h : ∀ w ∈ networkTexts path n, data.getString w.1 = .ok w.2) :
    importNetwork path data = .ok n := by
  simp only [networkTexts, List.forall_mem_cons] at h
  obtain ⟨hb, hp, he, hd, -⟩ := h
  simp only [importNetwork, hb, hp, he, hd, bind, Except.bind, pure, Except.pure,
    CString.toUnsignedLong_printNat]

theorem importCpu_eq {s : SystemStat} (h : ∀ w ∈ systemTexts s, data.getString w.1 = .ok w.2) :
    importCpu data = .ok s.cpu := by
  simp only [systemTexts, List.forall_mem_cons] at h
  obtain ⟨hu, hn, hs, hi, hw, -⟩ := h
  simp only [importCpu, hu, hn, hs, hi, hw, bind, Except.bind, pure, Except.pure,
    CString.toInt_printInt]

theorem importSysinfo_eq {s : SystemStat} (h : ∀ w ∈ systemTexts s, data.getString w.1 = .ok w.2) :
    importSysinfo data = .ok s.sysinfo := by
  simp only [systemTexts, List.forall_mem_cons] at h
  obtain ⟨-, -, -, -, -, hu, hfs, hts, hfr, hb, htr, hsr, hp, -⟩ := h
  simp only [importSysinfo, hu, hfs, hts, hfr, hb, htr, hsr, hp, bind, Except.bind, pure,
    Except.pure, CString.toInt_printInt, CString.toLong_printInt]

end

/-! ## What an export holds -/

/-- The keys depend on nothing: no two of them meet, whatever the values are. -/
theorem interfaceTexts_proper (nif : Interface) :
    AssocArray.ProperTexts ((interfaceTexts nif).map Prod.fst) := by
  simp only [interfaceTexts, networkTexts, List.map_append, List.map_cons, List.map_nil]
  decide +kernel

theorem fixedTexts_proper (s : SystemStat) :
    AssocArray.ProperTexts ((totalTexts s ++ systemTexts s).map Prod.fst) := by
  simp only [totalTexts, networkTexts, systemTexts, List.map_append, List.map_cons, List.map_nil]
  decide +kernel

/-- No fixed key leads below "interface". -/
theorem fixedTexts_part (s : SystemStat) :
    ∀ k ∈ (totalTexts s ++ systemTexts s).map Prod.fst, AssocArray.Part ["interface".toList] k.explode := by
  simp only [totalTexts, networkTexts, systemTexts, List.map_append, List.map_cons, List.map_nil]
  decide +kernel

/-- `b` is stored for the interface, and reads as the interface. -/
def Stores (b : AssocArray) (nif : Interface) : Prop :=
  AssocArray.copyVariant (.ofArray (AssocArray.writes (AssocArray.pathsOf (interfaceTexts nif)) {})) =
      .ok (.ofArray b) ∧
    importNetwork "receive".toList b = .ok nif.receive ∧
    importNetwork "transmit".toList b = .ok nif.transmit

theorem exists_stores (nif : Interface) : ∃ b, Stores b nif := by
  obtain ⟨b, hb, hread⟩ := (interfaceTexts_proper nif).copy_read
  refine ⟨b, hb, ?_, ?_⟩
  · apply importNetwork_eq
    intro w hw
    exact hread w (List.mem_append_left _ (List.mem_append_left _ hw))
  · apply importNetwork_eq
    intro w hw
    exact hread w (List.mem_append_left _ (List.mem_append_right _ hw))

/-- The path and the value of every interface, as they are written. -/
def interfaceWrites (store : Interface → AssocArray) (l : List (CString × Interface)) :
    List (List CString × Variant) :=
  l.map fun e => (["interface".toList, e.1], .ofArray (store e.2))

/-- All the writes of an export. -/
def exportWrites (s : SystemStat) (store : Interface → AssocArray) : List (List CString × Variant) :=
  AssocArray.pathsOf (totalTexts s) ++
    (interfaceWrites store s.interfaces.toList ++ AssocArray.pathsOf (systemTexts s))

theorem explode_interface {name : CString} (h : CString.IsPart name) :
    CString.explode ("interface/".toList ++ name) = ["interface".toList, name] := by
  have hi : CString.IsPart "interface".toList := by decide
  have hall : ∀ k ∈ ["interface".toList, name], CString.IsPart k := by
    intro k hk
    rcases List.mem_pair.mp hk with rfl | rfl
    · exact hi
    · exact h
  have hjoin : "interface/".toList ++ name = CString.implode ["interface".toList, name] := by
    simp [CString.implode, List.intercalate]
  rw [hjoin, CString.explode_implode (List.cons_ne_nil _ _) hall]

section
variable {store : Interface → AssocArray} (hstore : ∀ nif, Stores (store nif) nif)
include hstore

theorem exportInterface_eq {nif : Interface} (h : CString.IsPart nif.name) (data : AssocArray) :
    exportInterface data nif = .ok (AssocArray.createPath ["interface".toList, nif.name]
      (.ofArray (store nif)) data) := by
  have hne : CString.explode ("interface/".toList ++ nif.name) ≠ [] := by
    rw [explode_interface h]
    exact List.cons_ne_nil _ _
  simp only [exportInterface, (interfaceTexts_proper nif).setStrings_eq, AssocArray.setArray, bind,
    Except.bind, (hstore nif).1, AssocArray.createTree_eq hne, explode_interface h]

theorem exportInterfaces_eq {l : List (CString × Interface)}
    (hl : ∀ e ∈ l, CString.IsPart e.1 ∧ e.2.name = e.1) (data : AssocArray) :
    (l.map Prod.snd).foldlM exportInterface data =
      .ok (AssocArray.writes (interfaceWrites store l) data) := by
  induction l generalizing data with
  | nil => rfl
  | cons e l ih =>
    rw [List.forall_mem_cons] at hl
    obtain ⟨⟨hpart, hname⟩, hl⟩ := hl
    rw [← hname] at hpart
    rw [List.map_cons, List.foldlM_cons, exportInterface_eq hstore hpart, hname]
    exact ih hl _

/-- **An export is one sequence of writes.** -/
theorem exportToArray_eq {s : SystemStat}
    (hs : ∀ e ∈ s.interfaces.toList, CString.IsPart e.1 ∧ e.2.name = e.1) :
    exportToArray s {} = .ok (AssocArray.writes (exportWrites s store) {}) := by
  have hne : ∀ w ∈ totalTexts s ++ systemTexts s, w.1.explode ≠ [] := by
    intro w hw
    exact ((fixedTexts_proper s).1 w.1 (List.mem_map_of_mem hw)).1
  rw [List.forall_mem_append] at hne
  simp only [exportToArray, bind, Except.bind, AssocArray.setStrings_eq hne.1,
    exportInterfaces_eq hstore hs, AssocArray.setStrings_eq hne.2, exportWrites,
    AssocArray.writes_append]

end

/-! ## What is read back -/

/-- The interfaces as the array can hold them: keys that are taken as they are
    and that compare different. -/
structure Storable (l : List (CString × Interface)) : Prop where
  part : ∀ e ∈ l, CString.IsPart e.1 ∧ e.2.name = e.1
  plain : ∀ e ∈ l, AssocArray.Plain e.1
  apart : l.Pairwise fun e x => ArrayKey.canon e.1 ≠ ArrayKey.canon x.1

section
variable {s : SystemStat} {store : Interface → AssocArray}

variable (h : Storable s.interfaces.toList)
include h

theorem exportWrites_plain : ∀ w ∈ exportWrites s store, AssocArray.PlainPath w.1 := by
  have hfixed := (fixedTexts_proper s).plain
  rw [AssocArray.pathsOf, List.map_append, List.forall_mem_append] at hfixed
  have hif : ∀ w ∈ interfaceWrites store s.interfaces.toList, AssocArray.PlainPath w.1 := by
    intro w hw
    obtain ⟨e, he, rfl⟩ := List.mem_map.mp hw
    refine ⟨List.cons_ne_nil _ _, ?_⟩
    intro k hk
    rcases List.mem_pair.mp hk with rfl | rfl
    · decide
    · exact ⟨(h.part e he).1, h.plain e he⟩
  rw [exportWrites, List.forall_mem_append, List.forall_mem_append]
  exact ⟨hfixed.1, hif, hfixed.2⟩

theorem exportWrites_part : (exportWrites s store).Pairwise fun w u => AssocArray.Part w.1 u.1 := by
  have hfixed := (fixedTexts_proper s).part
  rw [AssocArray.pathsOf, List.map_append, List.pairwise_append] at hfixed
  have hkey := List.forall_mem_map.mp (fixedTexts_part s)
  -- a fixed path does not start with "interface"
  have hcross : ∀ w ∈ totalTexts s ++ systemTexts s, ∀ u ∈ interfaceWrites store s.interfaces.toList,
      AssocArray.Part w.1.explode u.1 := by
    intro w hw u hu
    obtain ⟨e, -, rfl⟩ := List.mem_map.mp hu
    exact (hkey w hw).below [e.1]
  have hif : (interfaceWrites store s.interfaces.toList).Pairwise fun w u => AssocArray.Part w.1 u.1 := by
    apply List.pairwise_map.mpr
    exact h.apart.imp fun hne => Or.inr (Or.inl hne)
  rw [exportWrites, List.pairwise_append, List.pairwise_append]
  refine ⟨hfixed.1, ⟨hif, hfixed.2.1, ?_⟩, ?_⟩
  · intro u hu w hw
    obtain ⟨x, hx, rfl⟩ := List.mem_map.mp hw
    exact (hcross x (List.mem_append_right _ hx) u hu).symm
  · intro w hw u hu
    rcases List.mem_append.mp hu with hu | hu
    · obtain ⟨x, hx, rfl⟩ := List.mem_map.mp hw
      exact hcross x (List.mem_append_left _ hx) u hu
    · exact hfixed.2.2 w hw u hu

/-- **Every field that is written by `setf` is read back.** -/
theorem fields_read : ∀ w ∈ totalTexts s ++ systemTexts s,
    AssocArray.getString w.1 (AssocArray.writes (exportWrites s store) {}) = .ok w.2 := by
  intro w hw
  apply AssocArray.getString_eq
  apply AssocArray.findPath_writes (exportWrites_plain h) (exportWrites_part h)
  rcases List.mem_append.mp hw with hw | hw
  · exact List.mem_append_left _ (List.mem_map_of_mem hw)
  · exact List.mem_append_right _ (List.mem_append_right _ (List.mem_map_of_mem hw))

/-- **Every interface is found below "interface", and nothing else.** -/
theorem interfaces_read (hne : s.interfaces.toList ≠ []) :
    ∃ b, AssocArray.getAssocArray "interface".toList
        (AssocArray.writes (exportWrites s store) {}) = .ok b ∧
      b.tree.Perm (s.interfaces.toList.map fun e => (e.1, .ofArray (store e.2))) := by
  have hplain : ∀ w ∈ exportWrites s store, AssocArray.PlainPath w.1 := exportWrites_plain h
  rw [exportWrites, List.forall_mem_append, List.forall_mem_append] at hplain
  obtain ⟨htotal, -, hsystem⟩ := hplain
  have hkey := List.forall_mem_map.mp (fixedTexts_part s)
  rw [List.forall_mem_append] at hkey
  obtain ⟨hktotal, hksystem⟩ := hkey
  let es := s.interfaces.toList.map fun e => (e.1, Variant.ofArray (store e.2))
  -- the paths that start with "interface" are one key below it, the others do not matter
  have hwrites : interfaceWrites store s.interfaces.toList =
      (es.map fun e => ([e.1], e.2)).map fun w => ("interface".toList :: w.1, w.2) := by
    simp [es, interfaceWrites]
  have hsingle : ∀ w ∈ es.map fun e => ([e.1], e.2), w.1 ≠ [] := by
    intro w hw
    obtain ⟨e, -, rfl⟩ := List.mem_map.mp hw
    exact List.cons_ne_nil _ _
  have hbelow : (AssocArray.writes (exportWrites s store) {}).sub "interface".toList =
      AssocArray.writes (es.map fun e => ([e.1], e.2)) {} := by
    rw [exportWrites, AssocArray.writes_append, AssocArray.writes_append,
      AssocArray.sub_writes_other hsystem (List.forall_mem_map.mpr hksystem), hwrites,
      AssocArray.sub_writes_below (by decide) hsingle,
      AssocArray.sub_writes_other htotal (List.forall_mem_map.mpr hktotal)]
    rfl
  have hperm : (AssocArray.writes (es.map fun e => ([e.1], e.2)) {}).tree.Perm es := by
    apply AssocArray.writes_empty_perm
    · exact List.forall_mem_map.mpr h.plain
    · exact List.pairwise_map.mpr h.apart
  have hfound : (AssocArray.writes (exportWrites s store) {}).entry "interface".toList =
      some (.ofArray (AssocArray.writes (es.map fun e => ([e.1], e.2)) {})) := by
    rw [← hbelow]
    apply AssocArray.entry_of_sub
    rw [hbelow]
    intro hnil
    rw [hnil] at hperm
    exact hne (List.map_eq_nil_iff.mp hperm.nil_eq.symm)
  refine ⟨_, AssocArray.getAssocArray_eq ?_, hperm⟩
  have hkey : CString.explode "interface".toList = ["interface".toList] := by decide
  rw [hkey, AssocArray.findPath_single, hfound]

end

section
variable {s : SystemStat} {store : Interface → AssocArray} (hstore : ∀ nif, Stores (store nif) nif)
include hstore

theorem importInterface_eq {n : CString} {nif : Interface} (hn : nif.name = n) (m : InterfaceMap) :
    importInterface m (n, .ofArray (store nif)) = .ok (m.insertIfNew n nif) := by
  have hd : (Variant.ofArray (store nif)).toAssocArray = .ok (store nif) := rfl
  subst hn
  simp only [importInterface, hd, bind, Except.bind, (hstore nif).2.1, (hstore nif).2.2, pure,
    Except.pure]

/-- The loop over the entries adds the interfaces that the target does not have. -/
theorem importInterfaces_eq {es : List (CString × Variant)}
    (hes : ∀ e ∈ es, ∃ nif, s.interfaces[e.1]? = some nif ∧ nif.name = e.1 ∧ e.2 = .ofArray (store nif))
    (m : InterfaceMap) :
    ∃ m', es.foldlM importInterface m = .ok m' ∧
      ∀ n, m'[n]? = m[n]?.or (if n ∈ es.map Prod.fst then s.interfaces[n]? else none) := by
  induction es generalizing m with
  | nil => exact ⟨m, rfl, by simp⟩
  | cons e es ih =>
    rw [List.forall_mem_cons] at hes
    obtain ⟨⟨nif, hnif, hname, hvalue⟩, hes⟩ := hes
    obtain ⟨m', hm', hget⟩ := ih hes (m.insertIfNew e.1 nif)
    refine ⟨m', ?_, fun n => ?_⟩
    · have hstep : importInterface m e = .ok (m.insertIfNew e.1 nif) := by
        have he : e = (e.1, .ofArray (store nif)) := Prod.ext rfl hvalue
        rw [he]
        exact importInterface_eq hstore hname m
      rw [List.foldlM_cons, hstep]
      exact hm'
    · rw [hget, Std.ExtTreeMap.getElem?_insertIfNew]
      have hcons : n ∈ (e :: es).map Prod.fst ↔ n = e.1 ∨ n ∈ es.map Prod.fst := by
        rw [List.map_cons, List.mem_cons]
      simp only [Std.compare_eq_iff_eq, hcons]
      by_cases hn : n = e.1
      · subst hn
        by_cases hm : e.1 ∈ m
        · -- what the target has under this name stays
          obtain ⟨x, hx⟩ := Option.isSome_iff_exists.mp (Std.ExtTreeMap.mem_iff_isSome_getElem?.mp hm)
          simp only [hm, hx, not_true_eq_false, and_false, if_false, Option.some_or]
        · have hx : m[e.1]? = none := Std.ExtTreeMap.getElem?_eq_none hm
          simp only [hm, hx, hnif, not_false_eq_true, and_self, if_true, true_or, Option.some_or,
            Option.none_or]
      · simp only [hn, Ne.symm hn, false_and, if_false, false_or]

/-- A target without interfaces other than those of `s` gets exactly those. -/
theorem importInterfaces_restores (hl : Storable s.interfaces.toList) {es : List (CString × Variant)}
    (hperm : es.Perm (s.interfaces.toList.map fun e => (e.1, .ofArray (store e.2)))) {m : InterfaceMap}
    (hm : ∀ (n : CString) nif, m[n]? = some nif → s.interfaces[n]? = some nif) :
    es.foldlM importInterface m = .ok s.interfaces := by
  -- the entries are the interfaces of `s`, in some order
  have hentries : ∀ e ∈ es, ∃ nif, s.interfaces[e.1]? = some nif ∧ nif.name = e.1 ∧
      e.2 = .ofArray (store nif) := by
    intro e he
    obtain ⟨x, hx, rfl⟩ := List.mem_map.mp (hperm.mem_iff.mp he)
    exact ⟨x.2, Std.ExtTreeMap.mem_toList_iff_getElem?_eq_some.mp hx, (hl.part x hx).2, rfl⟩
  have hall : ∀ n nif, s.interfaces[n]? = some nif → n ∈ es.map Prod.fst := by
    intro n nif hnif
    have hx := Std.ExtTreeMap.mem_toList_iff_getElem?_eq_some.mpr hnif
    apply List.mem_map.mpr
    exact ⟨(n, .ofArray (store nif)), hperm.mem_iff.mpr (List.mem_map.mpr ⟨(n, nif), hx, rfl⟩), rfl⟩
  obtain ⟨m', hm', hget⟩ := importInterfaces_eq hstore hentries m
  rw [hm']
  congr 1
  apply Std.ExtTreeMap.ext_getElem?
  intro n
  rw [hget]
  cases hmn : m[n]? with
  | some nif => rw [hm n nif hmn, Option.some_or]
  | none =>
    rw [Option.none_or]
    cases hs : s.interfaces[n]? with
    | none => rw [ite_self]
    | some nif => rw [if_pos (hall n nif hs)]

end

/-! ## The round trip -/

/-- What the names of interfaces are made of: no slash, colon or white space. -/
def IsNameChar (c : Char) : Prop := c ≠ '/' ∧ c ≠ ':' ∧ Decimal.isSpace c = false

instance : DecidablePred IsNameChar := fun c =>
  inferInstanceAs (Decidable (c ≠ '/' ∧ c ≠ ':' ∧ Decimal.isSpace c = false))

def IsName (n : CString) : Prop := n ≠ [] ∧ ∀ c ∈ n, IsNameChar c

-- the characters of the name are looked at, not all characters there are
instance : DecidablePred IsName := fun n =>
  have := List.decidableBAll IsNameChar n
  inferInstanceAs (Decidable (n ≠ [] ∧ ∀ c ∈ n, IsNameChar c))

/-- Statistics as the sensors deliver them. -/
structure Sampled (s : SystemStat) : Prop where
  names : ∀ n nif, s.interfaces[n]? = some nif → IsName n ∧ nif.name = n
  sampleTime : ∃ k : Int, s.sampleTime = k / 1000000

/-- `t` has everything that `s` exports. -/
structure SameStat (t s : SystemStat) : Prop where
  sampleTime : t.sampleTime = s.sampleTime
  receive : t.netTotal.receive = s.netTotal.receive
  transmit : t.netTotal.transmit = s.netTotal.transmit
  cpu : t.cpu = s.cpu
  sysinfo : t.sysinfo = s.sysinfo
  interfaces : t.interfaces = s.interfaces

/-- The export of `s` into an empty array, imported into `t`, throws nothing and
    makes `t` the same. -/
def ImportUndoesExport (s t : SystemStat) : Prop :=
  ∃ a t', exportToArray s {} = .ok a ∧ importFromArray a t = .ok t' ∧ SameStat t' s

theorem storable_of_sampled {s : SystemStat} (hs : Sampled s) (hauto : "[]".toList ∉ s.interfaces)
    (hapart : ∀ n m, n ∈ s.interfaces → m ∈ s.interfaces → ArrayKey.compare n m = .eq → n = m) :
    Storable s.interfaces.toList := by
  have hget : ∀ e ∈ s.interfaces.toList, s.interfaces[e.1]? = some e.2 := by
    intro e he
    exact Std.ExtTreeMap.mem_toList_iff_getElem?_eq_some.mp he
  have hmem : ∀ e ∈ s.interfaces.toList, e.1 ∈ s.interfaces := by
    intro e he
    rw [Std.ExtTreeMap.mem_iff_isSome_getElem?, hget e he]
    rfl
  refine ⟨?_, ?_, ?_⟩
  · intro e he
    have hn := hs.names e.1 e.2 (hget e he)
    exact ⟨⟨hn.1.1, fun hc => (hn.1.2 '/' hc).1 rfl⟩, hn.2⟩
  · intro e he hk
    rw [← hk] at hauto
    exact hauto (hmem e he)
  · have hdistinct := Std.ExtTreeMap.distinct_keys_toList (t := s.interfaces)
    apply hdistinct.imp_of_mem
    intro e x he hx hne hcanon
    have hkey := hapart e.1 x.1 (hmem e he) (hmem x hx) ((ArrayKey.compare_eq_iff e.1 x.1).mpr hcanon)
    exact hne (Std.compare_eq_iff_eq.mpr hkey)

/-- **Importing undoes exporting**, for at least one interface, names that the
    array tells apart, and a target without interfaces other than those exported. -/
theorem import_undoes_export {s t : SystemStat} (hs : Sampled s) (hne : s.interfaces ≠ ∅)
    (hauto : "[]".toList ∉ s.interfaces)
    (hapart : ∀ n m, n ∈ s.interfaces → m ∈ s.interfaces → ArrayKey.compare n m = .eq → n = m)
    (ht : ∀ (n : CString) nif, t.interfaces[n]? = some nif → s.interfaces[n]? = some nif) :
    ImportUndoesExport s t := by
  have hl := storable_of_sampled hs hauto hapart
  obtain ⟨k, hk⟩ := hs.sampleTime
  choose store hstore using exists_stores
  have hsome : s.interfaces.toList ≠ [] := fun h => hne (Std.ExtTreeMap.toList_eq_nil_iff.mp h)
  have hread := @fields_read s store hl
  obtain ⟨htotal, hsystem⟩ := List.forall_mem_append.mp hread
  obtain ⟨htime, hnet⟩ := List.forall_mem_cons.mp htotal
  obtain ⟨hreceive, htransmit⟩ := List.forall_mem_append.mp hnet
  obtain ⟨b, hb, hperm⟩ := @interfaces_read s store hl hsome
  have hloop := importInterfaces_restores hstore hl hperm ht
  let net : Interface := { t.netTotal with receive := s.netTotal.receive, transmit := s.netTotal.transmit }
  refine ⟨_, SystemStat.mk (CString.toDouble (Decimal.printFixed6 s.sampleTime)) s.cpu s.sysinfo net
    s.interfaces, exportToArray_eq hstore hl.part, ?_, ?_⟩
  · simp only [importFromArray, htime, importNetwork_eq hreceive, importNetwork_eq htransmit, hb, hloop,
      importCpu_eq hsystem, importSysinfo_eq hsystem, bind, Except.bind, pure, Except.pure, net]
  · exact ⟨by rw [hk, CString.toDouble_printFixed6], rfl, rfl, rfl, rfl, rfl⟩

/-- Statistics with one idle interface for every name. -/
def withNames (names : List CString) : SystemStat :=
  { interfaces := names.foldr (fun n m => m.insert n { name := n }) ∅ }

theorem withNames_get (names : List CString) (n : CString) :
    (withNames names).interfaces[n]? = if n ∈ names then some { name := n } else none := by
  induction names with
  | nil => simp [withNames]
  | cons x names ih =>
    show (Std.ExtTreeMap.insert (withNames names).interfaces x { name := x })[n]? = _
    rw [Std.ExtTreeMap.getElem?_insert, ih]
    simp only [Std.compare_eq_iff_eq, List.mem_cons]
    by_cases hx : x = n
    · simp [hx]
    · simp [hx, Ne.symm hx]

theorem withNames_sampled {names : List CString} (h : ∀ n ∈ names, IsName n) :
    Sampled (withNames names) := by
  refine ⟨fun n nif hn => ?_, 0, by simp [withNames]⟩
  rw [withNames_get] at hn
  split at hn
  · next hmem =>
    cases hn
    exact ⟨h n hmem, rfl⟩
  · cases hn

theorem import_undoes_export_eth0 : ImportUndoesExport (withNames ["eth0".toList]) {} := by
  have hmem : ∀ n : CString, n ∈ (withNames ["eth0".toList]).interfaces → n = "eth0".toList := by
    intro n hn
    rw [Std.ExtTreeMap.mem_iff_isSome_getElem?, withNames_get] at hn
    by_contra hne
    rw [if_neg (by simpa using hne)] at hn
    cases hn
  apply import_undoes_export
  · exact withNames_sampled (by decide)
  · intro hempty
    have hget := withNames_get ["eth0".toList] "eth0".toList
    rw [hempty] at hget
    simp at hget
  · intro h
    exact absurd (hmem _ h) (by decide)
  · intro n m hn hm _
    rw [hmem n hn, hmem m hm]
  · intro n nif hn
    simp at hn

/-- The interfaces of the target after the round trip, if nothing is thrown. -/
def imported (s t : SystemStat) : Option (List (CString × Interface)) :=
  (exportToArray s {} >>= fun a => importFromArray a t).toOption.map fun t' => t'.interfaces.toList

theorem not_undone {s t : SystemStat} (h : imported s t ≠ some s.interfaces.toList) :
    ¬ ImportUndoesExport s t := by
  intro h
  obtain ⟨a, t', ha, ht', hsame⟩ := h
  apply h
  rw [imported, ha]
  show (importFromArray a t).toOption.map _ = _
  rw [ht']
  show some t'.interfaces.toList = _
  rw [hsame.interfaces]

/-- Without those conditions the round trip fails: names that differ in case or
    are one number are one key, "[]" is no key of its own, without interfaces
    there is no key "interface" to be found, and what the target holds already
    stays. -/
theorem no_round_trip :
    (Sampled (withNames ["a".toList, "A".toList]) ∧
      ¬ ImportUndoesExport (withNames ["a".toList, "A".toList]) {}) ∧
    (Sampled (withNames ["1".toList, "01".toList]) ∧
      ¬ ImportUndoesExport (withNames ["1".toList, "01".toList]) {}) ∧
    (Sampled (withNames ["[]".toList]) ∧ ¬ ImportUndoesExport (withNames ["[]".toList]) {}) ∧
    (Sampled (withNames []) ∧ ¬ ImportUndoesExport (withNames []) {}) ∧
    (Sampled (withNames ["a".toList]) ∧
      ¬ ImportUndoesExport (withNames ["a".toList]) (withNames ["b".toList])) := by
  refine ⟨⟨withNames_sampled (by decide), not_undone (by decide +kernel)⟩,
    ⟨withNames_sampled (by decide), not_undone (by decide +kernel)⟩,
    ⟨withNames_sampled (by decide), not_undone (by decide +kernel)⟩,
    ⟨withNames_sampled (by decide), not_undone (by decide +kernel)⟩,
    ⟨withNames_sampled (by decide), not_undone (by decide +kernel)⟩⟩

end UdpPingPong
