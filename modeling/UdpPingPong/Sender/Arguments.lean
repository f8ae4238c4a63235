import UdpPingPong.CommandLine
import UdpPingPong.Sender.Packet
import UdpPingPong.Sender.Rates
import UdpPingPong.Sender.SourceList

/- The arguments of the sender: `UDPSender::main` up to `prepareThreads`.

   1. `readArguments`: the members and variables that `main` fills from its arguments,
      and the two ways in which it ends before there are threads;
   2. `Request`: what a user may ask for, and `Request.value`, the text of each option;
   3. `explode_joined`, `loadSteps_eq`: lists and load steps are read as they were
      written;
   4. `reads_request`: with the options of a request in any order and spelling, `main`
      works with what was asked for, and with its defaults for the rest. -/
namespace UdpPingPong

open CString Decimal Options Progression

inductive SenderFlag where
  | h | help | z | q | p | l | t | n | r | i | c | ignore | b | bl | ar
deriving DecidableEq

def SenderFlag.all : List SenderFlag := [h, help, z, q, p, l, t, n, r, i, c, ignore, b, bl, ar]

def SenderFlag.text : SenderFlag → CString
  | h => "-h".toList
  | help => "--help".toList
  | z => "-z".toList
  | q => "-q".toList
  | p => "-p".toList
  | l => "-l".toList
  | t => "-t".toList
  | n => "-n".toList
  | r => "-r".toList
  | i => "-i".toList
  | c => "-c".toList
  | ignore => "--ignore".toList
  | b => "-b".toList
  | bl => "--bl".toList
  | ar => "--ar".toList

theorem senderFlag_free : PrefixFree SenderFlag.text := by
  apply prefixFree_of_all SenderFlag.all
  · intro f
    cases f <;> decide
  · decide +kernel

theorem senderFlag_dashed : Dashed SenderFlag.text := by
  intro f
  cases f <;> rfl

/-! ## The main function -/

/-- The members of `UDPSender` that `main` fills, and its variables `QueryRates` and `Filename`. A `PACKET`
    fits into a packet. -/
structure Settings where
  ziel : CString
  quelle : CString
  packetsize : Nat
  laufzeit : Int32
  timeout : Int32
  threadCount : Int32
  queryRates : CString
  zeitscheibe : ℚ
  filename : CString
  ignoreResponses : Bool
  sourceIpList : List CString
  alwaysRandomize : Bool
  packetsize_ok : sizeofPacket ≤ packetsize

/-- How `main` ends before it has settings: with the help and a return code, or with the exception
    of a file it cannot open, which nobody catches. -/
inductive SenderExit where
  | help (code : Nat)
  | fileNotOpened (filename : CString)
deriving DecidableEq

/-- `String::toFloat`, up to the conversion by `atof`. -/
def toFloat (atof : CString → ℚ) (s : CString) : ℚ := if s = [] then 0 else atof s

/-- The source addresses of `-b`, and behind them those in the file of `--bl`. -/
def readSources (files : CString → Option (List Char)) (argv : List CString) : Except SenderExit (List CString) :=
  let sourceIpList := if haveArgv argv (SenderFlag.text .b) then
    arrayExplode ',' 0 false (getArgv argv (SenderFlag.text .b)) else []
  if haveArgv argv (SenderFlag.text .bl) then
    let filename := getArgv argv (SenderFlag.text .bl)
    match files filename with
    | none => .error (.fileNotOpened filename)
    | some content => .ok (readSourceIPList content sourceIpList)
  else .ok sourceIpList

/-- The beginning of `main`, with the files that can be opened. -/
def readArguments (files : CString → Option (List Char)) (atof : CString → ℚ) (argv : List CString) :
    Except SenderExit Settings :=
  if haveArgv argv (SenderFlag.text .h) || haveArgv argv (SenderFlag.text .help) then .error (.help 0)
  else
    let ziel := getArgv argv (SenderFlag.text .z)
    let laufzeit := (getArgv argv (SenderFlag.text .l)).toInt
    let timeout := (getArgv argv (SenderFlag.text .t)).toInt
    let threadCount := (getArgv argv (SenderFlag.text .n)).toInt
    let zeitscheibe := toFloat atof (getArgv argv (SenderFlag.text .i))
    match readSources files argv with
    | .error e => .error e
    | .ok sourceIpList =>
      if ziel = [] then .error (.help 1)
      else .ok
        { ziel
          quelle := getArgv argv (SenderFlag.text .q)
          packetsize := admitPacketsize (getArgv argv (SenderFlag.text .p)).toInt.toInt
          laufzeit := if laufzeit = 0 then 10 else laufzeit
          timeout := if timeout = 0 then 5 else timeout
          threadCount := if threadCount = 0 then 1 else threadCount
          queryRates := getArgv argv (SenderFlag.text .r)
          zeitscheibe := if zeitscheibe = 0 then 1 else zeitscheibe
          filename := getArgv argv (SenderFlag.text .c)
          ignoreResponses := haveArgv argv (SenderFlag.text .ignore)
          sourceIpList
          alwaysRandomize := haveArgv argv (SenderFlag.text .ar)
          packetsize_ok := admitPacketsize_ge _ }

/-- The arguments of the calls of `run`, one for each load step. -/
def loadSteps (pcre : CString → Option RangeMatch) (fuel : Nat) (queryRates : CString) : Option (List Int32) :=
  (getQueryRates pcre fuel queryRates).map fun rates => rates.map toInt

/-! ## What a user asks for -/

/-- The load steps: as fast as possible, some rates, or the rates of a range. -/
inductive WantedRates where
  | unlimited
  | list (rates : List Int32)
  | range (first last step : Nat)

structure Request where
  ziel : CString
  quelle : Option CString
  packetsize : Option Int32
  laufzeit : Option Int32
  timeout : Option Int32
  threadCount : Option Int32
  rates : WantedRates
  zeitscheibe : Option CString
  filename : Option CString
  ignoreResponses : Bool
  sources : List CString
  sourceFile : Option CString
  alwaysRandomize : Bool

/-- Texts with commas between them. -/
def joined (texts : List CString) : CString := [','].intercalate texts

def WantedRates.text : WantedRates → Option CString
  | unlimited => none
  | list rates => some (joined (rates.map numeral))
  | range first last step => some (printNat first ++ '-' :: (printNat last ++ ',' :: printNat step))

def WantedRates.steps : WantedRates → List Int32
  | unlimited => [0]
  | list rates => rates
  | range first last step => (terms first last step).map Int32.ofNat

/-- There is a rate; a range counts up, and its rates are numbers of 32 bits. -/
def WantedRates.Ok : WantedRates → Prop
  | unlimited => True
  | list rates => rates ≠ []
  | range _ last step => 1 ≤ step ∧ last < 2 ^ 31 ∧ last + step < 2 ^ 64

namespace Request

/-- The option of a request with each flag. -/
def value (r : Request) : SenderFlag → Option CString
  | .h => none
  | .help => none
  | .z => some r.ziel
  | .q => r.quelle
  | .p => r.packetsize.map numeral
  | .l => r.laufzeit.map numeral
  | .t => r.timeout.map numeral
  | .n => r.threadCount.map numeral
  | .r => r.rates.text
  | .i => r.zeitscheibe
  | .c => r.filename
  | .ignore => if r.ignoreResponses then some [] else none
  | .b => if r.sources = [] then none else some (joined r.sources)
  | .bl => r.sourceFile
  | .ar => if r.alwaysRandomize then some [] else none

/-- There is a target, source addresses are not empty and have no comma, and their file can be opened. -/
structure Ok (files : CString → Option (List Char)) (r : Request) : Prop where
  ziel : r.ziel ≠ []
  rates : r.rates.Ok
  sources : ∀ ip ∈ r.sources, ip ≠ [] ∧ ',' ∉ ip
  sourceFile : ∀ f ∈ r.sourceFile, (files f).isSome

/-- What is asked for, with the defaults of the help text. -/
def settings (files : CString → Option (List Char)) (atof : CString → ℚ) (r : Request) : Settings :=
  { ziel := r.ziel
    quelle := r.quelle.getD []
    packetsize := max sizeofPacket (orDefault 512 r.packetsize).toInt.toNat
    laufzeit := orDefault 10 r.laufzeit
    timeout := orDefault 5 r.timeout
    threadCount := orDefault 1 r.threadCount
    queryRates := r.rates.text.getD []
    zeitscheibe := orDefault 1 (r.zeitscheibe.map (toFloat atof))
    filename := r.filename.getD []
    ignoreResponses := r.ignoreResponses
    sourceIpList := match r.sourceFile.bind files with
      | none => r.sources
      | some content => readSourceIPList content r.sources
    alwaysRandomize := r.alwaysRandomize
    packetsize_ok := le_max_left _ _ }

end Request

/-! ## Lists and load steps -/

theorem joined_ne_nil {texts : List CString} (hne : texts ≠ []) (h : ∀ x ∈ texts, x ≠ []) : joined texts ≠ [] := by
  intro hnil
  obtain ⟨x, xs, rfl⟩ := List.exists_cons_of_ne_nil hne
  have hlen : x.length ≤ (joined (x :: xs)).length := by
    cases xs with
    | nil => simp [joined]
    | cons y ys => simp [joined]
  rw [hnil] at hlen
  exact h x List.mem_cons_self (List.length_eq_zero_iff.mp (Nat.le_zero.mp hlen))

/-- **`explode` undoes joining.** -/
theorem explode_joined {texts : List CString} (hne : texts ≠ []) (h : ∀ x ∈ texts, x ≠ [] ∧ ',' ∉ x) :
    arrayExplode ',' 0 false (joined texts) = texts := by
  rw [arrayExplode_eq, explodeAll, if_neg (joined_ne_nil hne fun x hx => (h x hx).1)]
  exact List.splitOn_intercalate ',' (fun x hx => (h x hx).2) hne

/-- A '-' stands in front of a number only. -/
theorem numeral_ne_range {n : Int32} {first last : CString} (h : Numeral first) :
    numeral n ≠ first ++ '-' :: last := by
  intro heq
  obtain ⟨f, fs, hcons⟩ := List.exists_cons_of_ne_nil h.1
  unfold numeral at heq
  cases hn : n.toInt with
  | ofNat k =>
    rw [hn] at heq
    have hminus : '-' ∈ printNat k := by
      rw [show printNat k = first ++ '-' :: last from heq]
      exact List.mem_append_right _ List.mem_cons_self
    exact absurd (isDigit_of_mem_printNat hminus) (by decide)
  | negSucc k =>
    rw [hn, hcons] at heq
    have hfirst : f.isDigit := h.2 f (by rw [hcons]; exact List.mem_cons_self)
    rw [← (List.cons.inj heq).1] at hfirst
    exact absurd hfirst (by decide)

/-- The numbers of a list, and the commas between them. -/
theorem mem_joined {texts : List CString} {c : Char} (h : c ∈ joined texts) : c = ',' ∨ ∃ x ∈ texts, c ∈ x :=
  mem_intercalate h

section
variable {rates : List Int32}

theorem numerals_good : ∀ x ∈ rates.map numeral, x ≠ [] ∧ ',' ∉ x := by
  intro x hx
  obtain ⟨n, -, rfl⟩ := List.mem_map.mp hx
  refine ⟨numeral_ne_nil n, ?_⟩
  intro hcomma
  rcases isDigit_or_minus_of_mem_numeral hcomma with h | h
  · exact absurd h (by decide)
  · exact absurd h (by decide)

theorem not_mem_joined_numerals {c : Char} (hdigit : ¬ c.isDigit) (hminus : c ≠ '-') (hcomma : c ≠ ',') :
    c ∉ joined (rates.map numeral) := by
  intro hc
  rcases mem_joined hc with h | h
  · exact hcomma h
  · obtain ⟨x, hx, hcx⟩ := h
    obtain ⟨n, -, rfl⟩ := List.mem_map.mp hx
    rcases isDigit_or_minus_of_mem_numeral hcx with h | h
    · exact hdigit h
    · exact hminus h

/-- A list of rates is no range. -/
theorem not_isRange_joined (hne : rates ≠ []) (m : RangeMatch) : ¬ IsRange (joined (rates.map numeral)) m := by
  intro h
  have hdigits : ∀ {s : CString}, Numeral s → ',' ∉ s := fun hs hc => absurd (hs.2 _ hc) (by decide)
  have hparts : ∀ x ∈ [m.first ++ '-' :: m.last, m.step], ',' ∉ x := by
    simp [hdigits h.first, hdigits h.last, hdigits h.step]
  have hjoined : joined [m.first ++ '-' :: m.last, m.step] = joined (rates.map numeral) := by
    rw [h.text]
    simp [joined, List.intercalate]
  have hsplit : rates.map numeral = [m.first ++ '-' :: m.last, m.step] := by
    calc rates.map numeral
        = (joined (rates.map numeral)).splitOn ',' := by
          rw [joined, List.splitOn_intercalate ',' (fun x hx => (numerals_good x hx).2) (by simpa using hne)]
      _ = (joined [m.first ++ '-' :: m.last, m.step]).splitOn ',' := by rw [hjoined]
      _ = [m.first ++ '-' :: m.last, m.step] := by
          rw [joined, List.splitOn_intercalate ',' hparts (List.cons_ne_nil _ _)]
  have hmem : m.first ++ '-' :: m.last ∈ rates.map numeral := by
    rw [hsplit]
    exact List.mem_cons_self
  obtain ⟨n, -, hn⟩ := List.mem_map.mp hmem
  exact numeral_ne_range h.first hn

end

theorem numeral_printNat (n : Nat) : Numeral (printNat n) :=
  ⟨printNat_ne_nil n, fun _ => isDigit_of_mem_printNat⟩

theorem numeralValue_printNat (n : Nat) : numeralValue (printNat n) = n :=
  Nat.ofDigitChars_toDigits (by decide) (by decide)

theorem toInt_printNat {n : Nat} (h : n < 2 ^ 31) : toInt (printNat n) = Int32.ofNat n := by
  have hnum : printNat n = numeral (Int32.ofNat n) := by
    rw [numeral, Int32.toInt_ofNat_of_lt h]
    rfl
  rw [hnum, numeral_toInt]

/-- **The load steps are the ones that were asked for.** -/
theorem loadSteps_eq {pcre : CString → Option RangeMatch} (hpcre : MatchesRange pcre) {w : WantedRates} (hw : w.Ok) :
    ∃ n, ∀ fuel, n ≤ fuel → loadSteps pcre fuel (w.text.getD []) = some w.steps := by
  cases w with
  | unlimited =>
    refine ⟨0, ?_⟩
    intro fuel _
    show loadSteps pcre fuel [] = some [0]
    rw [loadSteps, getQueryRates, if_pos rfl]
    rfl
  | list rates =>
    have hmap : rates.map numeral ≠ [] := mt List.map_eq_nil_iff.mp hw
    have hjoin : joined (rates.map numeral) ≠ [] := joined_ne_nil hmap fun x hx => (numerals_good x hx).1
    have hnone : pcre (joined (rates.map numeral)) = none := by
      rw [Option.eq_none_iff_forall_ne_some]
      intro m hm
      exact not_isRange_joined hw m ((hpcre _ (not_mem_joined_numerals (by decide) (by decide) (by decide))
        (not_mem_joined_numerals (by decide) (by decide) (by decide)) m).mp hm)
    refine ⟨0, ?_⟩
    intro fuel _
    show loadSteps pcre fuel (joined (rates.map numeral)) = some rates
    rw [loadSteps, getQueryRates, if_neg hjoin, pregMatch, if_neg hjoin, hnone]
    show some ((arrayExplode ',' 0 false (joined (rates.map numeral))).map toInt) = some rates
    have hround : toInt ∘ numeral = id := funext numeral_toInt
    rw [explode_joined hmap numerals_good, List.map_map, hround, List.map_id]
  | range first last step =>
    obtain ⟨hstep, hlast, hsum⟩ := hw
    have hrange : IsRange (printNat first ++ '-' :: (printNat last ++ ',' :: printNat step))
        { first := printNat first, last := printNat last, step := printNat step } :=
      ⟨rfl, numeral_printNat first, numeral_printNat last, numeral_printNat step⟩
    obtain ⟨n, hn⟩ := ratesAre_terms hpcre hrange (by rwa [numeralValue_printNat])
      (by rwa [numeralValue_printNat, numeralValue_printNat])
    simp only [numeralValue_printNat] at hn
    refine ⟨n, ?_⟩
    intro fuel hfuel
    show loadSteps pcre fuel (printNat first ++ '-' :: (printNat last ++ ',' :: printNat step)) = _
    rw [loadSteps, hn fuel hfuel, Option.map_some, List.map_map]
    apply congrArg some
    apply List.map_congr_left
    intro x hx
    obtain ⟨k, -, hle⟩ := (mem_terms hstep).mp hx
    exact toInt_printNat (by omega)

/-! ## The settings -/

theorem toFloat_option (atof : CString → ℚ) (s : Option CString) :
    toFloat atof (s.getD []) = (s.map (toFloat atof)).getD 0 := by
  cases s with
  | none => rfl
  | some t => rfl

theorem admitPacketsize_option (n : Option Int32) :
    admitPacketsize (n.getD 0).toInt = max sizeofPacket (orDefault 512 n).toInt.toNat := by
  rw [← orDefault_eq]
  by_cases hn : n.getD 0 = 0
  · rw [if_pos hn, hn]
    rfl
  · have hne : (n.getD 0).toInt ≠ 0 := fun h => hn (Int32.toInt_inj.mp h)
    rw [if_neg hn, admitPacketsize, if_neg hne]
    show (if (n.getD 0).toInt < 16 then 16 else (n.getD 0).toInt).toNat = max 16 (n.getD 0).toInt.toNat
    split <;> omega

section
variable {files : CString → Option (List Char)} {r : Request} {os : List (Written SenderFlag)}

theorem readSources_request (hr : r.Ok files) (hos : ∀ o ∈ os, o.Ok) (hasked : ∀ f, given os f = r.value f) :
    readSources files (commandLine SenderFlag.text os) = .ok (match r.sourceFile.bind files with
      | none => r.sources
      | some content => readSourceIPList content r.sources) := by
  have hget := fun f => getArgv_commandLine senderFlag_free senderFlag_dashed hos f
  have hhave := fun f => haveArgv_commandLine senderFlag_free senderFlag_dashed os f
  simp only [hasked] at hget hhave
  have hlist : (if haveArgv (commandLine SenderFlag.text os) (SenderFlag.text .b) then
      arrayExplode ',' 0 false (getArgv (commandLine SenderFlag.text os) (SenderFlag.text .b)) else []) = r.sources := by
    rw [hget, hhave, Request.value]
    by_cases hne : r.sources = []
    · rw [if_pos hne]
      exact hne.symm
    · rw [if_neg hne]
      exact explode_joined hne hr.sources
  rw [readSources, hlist, hhave, hget, Request.value]
  cases hfile : r.sourceFile with
  | none => rfl
  | some f =>
    obtain ⟨content, hcontent⟩ := Option.isSome_iff_exists.mp (hr.sourceFile f hfile)
    simp [hcontent]

/-- **The sender does what it was asked to**: written in any order and spelling, the options of a
    request give `main` the settings and the load steps of the request. -/
theorem reads_request (atof : CString → ℚ) {pcre : CString → Option RangeMatch} (hpcre : MatchesRange pcre)
    (hr : r.Ok files) (hos : ∀ o ∈ os, o.Ok) (hasked : ∀ f, given os f = r.value f) :
    readArguments files atof (commandLine SenderFlag.text os) = .ok (r.settings files atof) ∧
      ∃ n, ∀ fuel, n ≤ fuel → loadSteps pcre fuel (r.settings files atof).queryRates = some r.rates.steps := by
  refine ⟨?_, loadSteps_eq hpcre hr.rates⟩
  have hget := fun f => getArgv_commandLine senderFlag_free senderFlag_dashed hos f
  have hhave := fun f => haveArgv_commandLine senderFlag_free senderFlag_dashed os f
  simp only [hasked] at hget hhave
  have hswitch : ∀ b : Bool, (if b then some ([] : CString) else none).isSome = b := by decide
  rw [readArguments, readSources_request hr hos hasked]
  simp only [hget, hhave, Request.value, Option.isSome_none, Bool.or_self, Bool.false_eq_true, if_false,
    Option.getD_some, if_neg hr.ziel, toInt_option, toFloat_option, orDefault_eq, admitPacketsize_option, hswitch]
  rfl

end

/-- Two threads with an address each, in two load steps. -/
def twoSteps : Request :=
  { ziel := "localhost:5300".toList, quelle := none, packetsize := some 64, laufzeit := none, timeout := none
    threadCount := some 2, rates := .list [10, 20], zeitscheibe := none, filename := none, ignoreResponses := true
    sources := ["10.0.0.1".toList, "10.0.0.2".toList], sourceFile := none, alwaysRandomize := false }

def twoStepsWritten : List (Written SenderFlag) :=
  [.switch .ignore, .attached .p "64".toList, .separate .z "localhost:5300".toList, .separate .r "10,20".toList,
    .attached .n "2".toList, .separate .b "10.0.0.1,10.0.0.2".toList]

theorem reads_request_two_steps :
    readArguments (fun _ => none) (fun _ => 0) (commandLine SenderFlag.text twoStepsWritten) =
        .ok (twoSteps.settings (fun _ => none) fun _ => 0) ∧
      ∃ n, ∀ fuel, n ≤ fuel → loadSteps matchRange fuel (twoSteps.settings (fun _ => none) fun _ => 0).queryRates =
        some [10, 20] := by
  apply reads_request (fun _ => 0) matchRange_matches
  · exact ⟨by decide, List.cons_ne_nil _ _, by decide +kernel, by decide⟩
  · decide +kernel
  · intro f
    cases f <;> decide +kernel

end UdpPingPong
