import UdpPingPong.Text

/- The two readers of HOST:PORT: the address the sender connects to and the
   address the bouncer listens on.

   1. `connect`: `UDPEchoSenderThread::connect(destination)`, up to its call of
      `connect(hostname, port)`;
   2. `bouncerMain`: the main function of the bouncer, up to its call of
      `setInterface`;
   3. `connect_some_iff` and `bouncerMain_some_iff`: what each lets through;
   4. `same_interface_iff`: they agree on texts with one colon between a host and
      a positive number, and on texts that neither takes;
   5. `real_ports_iff`: the ports the sender lets through are real ones exactly for
      numerals up to 65535, and for numbers that are not positive as an `int`. -/
namespace UdpPingPong
open CString Decimal

/-! ## The sender -/

/-- The exceptions of `connect`, with their texts. -/
inductive ConnectException where
  | illegalArgument (text : CString)
  | illegalPort (text : CString)
deriving DecidableEq

def ConnectException.noDestination : ConnectException :=
  .illegalArgument "UDPEchoSenderThread::connect(const String &destination)".toList

def ConnectException.noPort (destination : CString) : ConnectException :=
  .illegalPort ("UDPEchoSenderThread::connect(const String &destination=".toList ++ destination ++ [')'])

/-- The port a text stands for. A text that is no positive number is looked up as a service of
    "udp"; `getservbyname` answers with the port after `ntohs`. -/
def portOf (getservbyname : CString → Option UInt16) (portname : CString) : Option Int32 :=
  let port := portname.toInt
  if port ≤ 0 ∧ portname ≠ [] then (getservbyname portname).map fun p => p.toUInt32.toInt32
  else some port

/-- The arguments of `connect(hostname, port)`. -/
def connect (getservbyname : CString → Option UInt16) (destination : CString) :
    Except ConnectException (CString × Int32) :=
  if destination = [] then .error .noDestination
  else match strTok ':' destination with
    | [hostname, portname] =>
      match portOf getservbyname portname with
      | some port => if port ≤ 0 then .error (.noPort destination) else .ok (hostname, port)
      | none => .error (.noPort destination)
    | _ => .error .noDestination

/-! ## The bouncer -/

/-- How `main` of the bouncer ends in front of `setInterface`. -/
inductive BouncerExit where
  | help
  | error (text : CString)
deriving DecidableEq

/-- The arguments of `setInterface(Hostname, Port)`. -/
def bouncerMain (server : CString) : Except BouncerExit (CString × Int32) :=
  if server = [] then .error .help
  else match explodeAll ':' server with
    | [hostname, port] => .ok (hostname, port.toInt)
    | _ => .error (.error ("ERROR: Invalid Hostname:Port [".toList ++ server ++ [']']))

/-! ## What they let through -/

/-- No service has a name. -/
def noService : CString → Option UInt16 := fun _ => none

theorem portOf_noService {portname : CString} :
    portOf noService portname = if portname.toInt ≤ 0 ∧ portname ≠ [] then none else some portname.toInt :=
  rfl

/-- Without services the sender takes two parts, the second a positive number. -/
theorem connect_some_iff {destination hostname : CString} {port : Int32} :
    (connect noService destination).toOption = some (hostname, port) ↔
      ∃ portname, strTok ':' destination = [hostname, portname] ∧ portname.toInt = port ∧ 0 < port := by
  refine ⟨?_, ?_⟩
  · intro h
    unfold connect at h
    split at h
    · cases h
    split at h
    · next host portname htok =>
      split at h
      · next p hp =>
        split at h
        · cases h
        · next hpos =>
          cases h
          rw [portOf_noService] at hp
          split at hp
          · cases hp
          · obtain rfl := Option.some.inj hp
            exact ⟨portname, htok, rfl, Int32.not_le.mp hpos⟩
      · cases h
    · cases h
  · intro h
    obtain ⟨portname, htok, rfl, hpos⟩ := h
    have hne : destination ≠ [] := by
      intro h0
      subst h0
      cases htok
    have hle : ¬ portname.toInt ≤ 0 := Int32.not_le.mpr hpos
    have hport : portOf noService portname = some portname.toInt := if_neg fun h => hle h.1
    rw [connect, if_neg hne, htok]
    simp only [hport, if_neg hle]
    rfl

/-- The bouncer takes two parts. -/
theorem bouncerMain_some_iff {server hostname : CString} {port : Int32} :
    (bouncerMain server).toOption = some (hostname, port) ↔
      ∃ portname, explodeAll ':' server = [hostname, portname] ∧ portname.toInt = port := by
  refine ⟨?_, ?_⟩
  · intro h
    unfold bouncerMain at h
    split at h
    · cases h
    split at h
    · next host portname htok =>
      cases h
      exact ⟨portname, htok, rfl⟩
    · cases h
  · intro h
    obtain ⟨portname, htok, rfl⟩ := h
    have hne : server ≠ [] := by
      intro h0
      subst h0
      cases htok
    rw [bouncerMain, if_neg hne, htok]
    rfl

/-- Both parts survive if two do. -/
theorem filter_pair_iff {x y a b : CString} :
    [x, y].filter (· ≠ []) = [a, b] ↔ x ≠ [] ∧ y ≠ [] ∧ x = a ∧ y = b := by
  by_cases hx : x = [] <;> by_cases hy : y = [] <;> simp [hx, hy]

theorem ne_nil_of_toInt_pos {s : CString} (h : 0 < toInt s) : s ≠ [] := by
  intro h0
  subst h0
  exact absurd h (by decide)

theorem explodeAll_eq_pair_iff {d : Char} {s x y : CString} : explodeAll d s = [x, y] ↔ s.splitOn d = [x, y] := by
  unfold explodeAll
  split
  · next h => simp [h, List.splitOn_nil]
  · rfl

/-- **When both read the same**: one colon stands between a host and a positive number, or there is
    not one colon and the parts that are not empty are no host and positive number either. -/
theorem same_interface_iff (destination : CString) :
    (connect noService destination).toOption = (bouncerMain destination).toOption ↔
      match destination.splitOn ':' with
      | [hostname, portname] => hostname ≠ [] ∧ 0 < toInt portname
      | parts => ∀ hostname portname, parts.filter (· ≠ []) = [hostname, portname] → toInt portname ≤ 0 := by
  split
  · next hostname portname h =>
    have hb : (bouncerMain destination).toOption = some (hostname, toInt portname) :=
      bouncerMain_some_iff.mpr ⟨portname, explodeAll_eq_pair_iff.mpr h, rfl⟩
    rw [hb, connect_some_iff, strTok_eq, h]
    refine ⟨?_, ?_⟩
    · intro h
      obtain ⟨p, hparts, -, hpos⟩ := h
      exact ⟨(filter_pair_iff.mp hparts).1, hpos⟩
    · intro h
      obtain ⟨hhost, hpos⟩ := h
      exact ⟨portname, filter_pair_iff.mpr ⟨hhost, ne_nil_of_toInt_pos hpos, rfl, rfl⟩, rfl, hpos⟩
  · next parts hparts =>
    have hb : (bouncerMain destination).toOption = none := by
      rw [Option.eq_none_iff_forall_ne_some]
      intro dest hsome
      obtain ⟨hostname, port⟩ := dest
      obtain ⟨portname, h, -⟩ := bouncerMain_some_iff.mp hsome
      exact hparts hostname portname (explodeAll_eq_pair_iff.mp h)
    rw [hb, Option.eq_none_iff_forall_ne_some]
    refine ⟨?_, ?_⟩
    · intro hnone hostname portname h
      by_contra hpos
      exact hnone (hostname, toInt portname)
        (connect_some_iff.mpr ⟨portname, (strTok_eq _).trans h, rfl, Int32.not_le.mp hpos⟩)
    · intro hle dest hsome
      obtain ⟨hostname, port⟩ := dest
      obtain ⟨portname, h, rfl, hpos⟩ := connect_some_iff.mp hsome
      exact Int32.not_le.mpr hpos (hle hostname portname ((strTok_eq _).symm.trans h))

/-- The bouncer listens on port 0 where the sender finds no port. -/
theorem port_zero_differs : (bouncerMain "localhost:0".toList).toOption = some ("localhost".toList, 0) ∧
    (connect noService "localhost:0".toList).toOption = none := by
  decide

/-! ## Ports -/

/-- The text that `connect(hostname, port)` writes into its 10 bytes `portstr`. -/
def portstr (port : Int32) : CString := printInt port.toInt

/-- **Only a real port gets through**: if `connect` is called, its port is the number the second part
    stands for, it is from 1 to 65535, and its text and a 0 fit into `portstr`. -/
def OnlyRealPorts (destination : CString) : Prop :=
  ∀ hostname port, (connect noService destination).toOption = some (hostname, port) →
    ∃ portname, strTok ':' destination = [hostname, portname] ∧ Numeral portname ∧
      port.toInt = numeralValue portname ∧ 1 ≤ port.toInt ∧ port.toInt ≤ 65535 ∧ (portstr port).length + 1 ≤ 10

/-- `strtol` on 64 bits. -/
def strtol (s : CString) : Int := scanSigned Int64.minValue.toInt Int64.maxValue.toInt s

theorem strtol_mem (s : CString) : -2 ^ 63 ≤ strtol s ∧ strtol s < 2 ^ 63 := by
  have h := scanSigned_mem Int64.minValue.toInt Int64.maxValue.toInt (by decide) (by decide) s
  exact ⟨h.1, Int.lt_of_le_of_lt h.2 (by decide)⟩

theorem toInt_eq {s : CString} (hne : s ≠ []) : (toInt s).toInt = (strtol s).bmod (2 ^ 32) := by
  obtain ⟨hlo, hhi⟩ := strtol_mem s
  rw [toInt, toInt64, if_neg hne, Int64.toInt_toInt32]
  exact congrArg (Int.bmod · (2 ^ 32)) (Int64.toInt_ofInt_of_le hlo hhi)

/-- The 32 bits that are left of a number are not positive. -/
theorem bmod_le_zero_iff (x : Int) : x.bmod (2 ^ 32) ≤ 0 ↔ x % 2 ^ 32 = 0 ∨ 2 ^ 31 ≤ x % 2 ^ 32 := by
  rw [Int.bmod]
  split <;> omega

theorem toInt_le_zero_iff {s : CString} (hne : s ≠ []) :
    toInt s ≤ 0 ↔ strtol s % 2 ^ 32 = 0 ∨ 2 ^ 31 ≤ strtol s % 2 ^ 32 := by
  rw [Int32.le_iff_toInt_le, toInt_eq hne, Int32.toInt_zero, bmod_le_zero_iff]

/-- A numeral up to 65535 is not narrowed. -/
theorem toInt_numeral {s : CString} (h : Numeral s) (hle : numeralValue s ≤ 65535) :
    (toInt s).toInt = numeralValue s := by
  have hnum : strtol s = numeralValue s := by
    rw [strtol, scanSigned_numeral h]
    apply min_eq_right
    show (numeralValue s : Int) ≤ 2 ^ 63 - 1
    omega
  rw [toInt_eq h.1, hnum]
  apply Int.bmod_eq_of_le <;> omega

/-- A port up to 65535 takes 5 characters at most. -/
theorem portstr_length (port : Int32) (h0 : 0 ≤ port.toInt) (hle : port.toInt ≤ 65535) :
    (portstr port).length ≤ 5 := by
  obtain ⟨n, hn⟩ := Int.eq_ofNat_of_zero_le h0
  rw [portstr, hn]
  apply (Nat.length_toDigits_le_iff (by decide) (by decide)).mpr
  omega

theorem ne_nil_of_mem_strTok {d : Char} {s x : CString} (h : x ∈ strTok d s) : x ≠ [] :=
  of_decide_eq_true (List.mem_filter.mp h).2

/-- **When only real ports get through**: where there are two parts, the second one is a numeral up to
    65535, or the lower 32 bits of the number `strtol` reads are 0 or have their sign set. -/
theorem real_ports_iff (destination : CString) : OnlyRealPorts destination ↔
    ∀ hostname portname, strTok ':' destination = [hostname, portname] →
      Numeral portname ∧ numeralValue portname ≤ 65535 ∨
        strtol portname % 2 ^ 32 = 0 ∨ 2 ^ 31 ≤ strtol portname % 2 ^ 32 := by
  refine ⟨?_, ?_⟩
  · intro h hostname portname htok
    have hne : portname ≠ [] := ne_nil_of_mem_strTok (d := ':') (s := destination) (by simp [htok])
    rw [← toInt_le_zero_iff hne]
    by_cases hpos : toInt portname ≤ 0
    · exact .inr hpos
    · left
      obtain ⟨p, htok', hnum, hvalue, -, hle, -⟩ := h hostname (toInt portname)
        (connect_some_iff.mpr ⟨portname, htok, rfl, Int32.not_le.mp hpos⟩)
      obtain rfl : p = portname := by simpa [htok'] using htok
      exact ⟨hnum, by omega⟩
  · intro h hostname port hport
    obtain ⟨portname, htok, rfl, hpos⟩ := connect_some_iff.mp hport
    have hne := ne_nil_of_toInt_pos hpos
    rcases h hostname portname htok with ⟨hnum, hle⟩ | hneg
    · have hvalue := toInt_numeral hnum hle
      have hpos' : 0 < (toInt portname).toInt := Int32.lt_iff_toInt_lt.mp hpos
      have hlen := portstr_length (toInt portname) (by omega) (by omega)
      exact ⟨portname, htok, hnum, hvalue, by omega, by omega, by omega⟩
    · rw [← toInt_le_zero_iff hne] at hneg
      exact absurd hpos (Int32.not_lt.mpr hneg)

/-- Ports that are none: the first one is too large, the second one loses its upper bits, the third
    one needs 11 bytes, and the fourth one is cut off at a letter. -/
theorem false_ports :
    (connect noService "host:65536".toList).toOption = some ("host".toList, 65536) ∧
      (connect noService "host:4294967349".toList).toOption = some ("host".toList, 53) ∧
      (connect noService "host:1000000000".toList).toOption = some ("host".toList, 1000000000) ∧
      (portstr 1000000000).length + 1 = 11 ∧
      (connect noService "host:53abc".toList).toOption = some ("host".toList, 53) ∧
      ¬ OnlyRealPorts "host:65536".toList := by
  have hport : (connect noService "host:65536".toList).toOption = some ("host".toList, 65536) := by decide
  refine ⟨hport, by decide, by decide, by decide, by decide, ?_⟩
  intro h
  obtain ⟨-, -, -, -, -, hle, -⟩ := h "host".toList 65536 hport
  exact absurd hle (by decide)

end UdpPingPong
