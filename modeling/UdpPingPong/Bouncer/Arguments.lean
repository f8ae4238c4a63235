import UdpPingPong.Bouncer.Sizes
import UdpPingPong.CommandLine

/- The arguments of the bouncer: its main function up to `start`.

   1. `readBouncerArguments`: what `main` makes of its arguments, or how it ends;
   2. `BouncerRequest`: what a user may ask for; `BouncerRequest.outcome` is what should
      come of it, the size of the replies being the only thing that can be refused;
   3. `reads_bouncer_request`: with the options of a request in any order and spelling
      just that comes of it. -/
namespace UdpPingPong

open CString Decimal Options

inductive BouncerFlag where
  | h | help | s | q | noecho | n | p
deriving DecidableEq

def BouncerFlag.all : List BouncerFlag := [h, help, s, q, noecho, n, p]

def BouncerFlag.text : BouncerFlag → CString
  | h => "-h".toList
  | help => "--help".toList
  | s => "-s".toList
  | q => "-q".toList
  | noecho => "--noecho".toList
  | n => "-n".toList
  | p => "-p".toList

theorem bouncerFlag_free : PrefixFree BouncerFlag.text := by
  apply prefixFree_of_all BouncerFlag.all
  · intro f
    cases f <;> decide
  · decide +kernel

theorem bouncerFlag_dashed : Dashed BouncerFlag.text := by
  intro f
  cases f <;> rfl

/-! ## The main function -/

/-- What `main` gives to the bouncer, and its variables `quiet` and `ThreadCount`. -/
structure BouncerSettings where
  hostname : CString
  port : Int32
  quiet : Bool
  noEcho : Bool
  threadCount : Int32
  packetSize : Option UInt64
deriving DecidableEq

/-- How `main` ends in front of `start`: with the help and a return code, or with an error. -/
inductive BouncerMainExit where
  | help (code : Nat)
  | error (text : CString)
deriving DecidableEq

def readBouncerArguments (argv : List CString) : Except BouncerMainExit BouncerSettings :=
  if haveArgv argv (BouncerFlag.text .h) || haveArgv argv (BouncerFlag.text .help) then .error (.help 0)
  else match bouncerMain (getArgv argv (BouncerFlag.text .s)) with
    | .error .help => .error (.help 1)
    | .error (.error text) => .error (.error text)
    | .ok (hostname, port) =>
      let threadCount := (getArgv argv (BouncerFlag.text .n)).toInt
      match mainPacketSize (getArgv argv (BouncerFlag.text .p)) with
      | .error text => .error (.error text)
      | .ok packetSize => .ok
        { hostname, port
          quiet := haveArgv argv (BouncerFlag.text .q)
          noEcho := haveArgv argv (BouncerFlag.text .noecho)
          threadCount := if threadCount = 0 then 1 else threadCount
          packetSize }

/-! ## What a user asks for -/

structure BouncerRequest where
  hostname : CString
  port : Int32
  quiet : Bool
  noEcho : Bool
  threadCount : Option Int32
  packetSize : Option Int32

namespace BouncerRequest

/-- The option of a request with each flag. -/
def value (r : BouncerRequest) : BouncerFlag → Option CString
  | .h => none
  | .help => none
  | .s => some (r.hostname ++ ':' :: numeral r.port)
  | .q => if r.quiet then some [] else none
  | .noecho => if r.noEcho then some [] else none
  | .n => r.threadCount.map numeral
  | .p => r.packetSize.map numeral

def settings (r : BouncerRequest) (packetSize : Option UInt64) : BouncerSettings :=
  { hostname := r.hostname, port := r.port, quiet := r.quiet, noEcho := r.noEcho
    threadCount := orDefault 1 r.threadCount, packetSize }

/-- The size of a reply is that of the datagram, if it is not given or 0. Otherwise it must be from 32
    to 4096. -/
def outcome (r : BouncerRequest) : Except BouncerMainExit BouncerSettings :=
  let size := r.packetSize.getD 0
  if size = 0 then .ok (r.settings none)
  else if 32 ≤ size ∧ size ≤ 4096 then .ok (r.settings (some (UInt64.ofNat size.toInt.toNat)))
  else .error (.error ("ERROR: Paketgroesse muss zwischen 32 und 4096 Bytes liegen [".toList ++
    numeral size ++ "]\n".toList))

end BouncerRequest

/-! ## Reading a request -/

/-- An `int` as a `size_t`. -/
theorem toNat_size (n : Int32) : (n.toInt64.toUInt64.toNat : Int) = n.toInt % 2 ^ 64 := by
  have hlt := n.toInt64.toUInt64.toNat_lt
  have hbits : n.toInt64.toInt = Int.bmod n.toInt64.toUInt64.toNat (2 ^ 64) := BitVec.toInt_eq_toNat_bmod _
  rw [← Int32.toInt_toInt64 n, hbits]
  calc (n.toInt64.toUInt64.toNat : Int)
      = n.toInt64.toUInt64.toNat % ((2 ^ 64 : Nat) : Int) := by rw [Int.emod_eq_of_lt] <;> omega
    _ = Int.bmod n.toInt64.toUInt64.toNat (2 ^ 64) % ((2 ^ 64 : Nat) : Int) := Int.bmod_emod.symm

theorem in_range_iff {n : Int32} : 32 ≤ n ∧ n ≤ 4096 ↔ 32 ≤ n.toInt ∧ n.toInt ≤ 4096 := by
  rw [Int32.le_iff_toInt_le, Int32.le_iff_toInt_le]
  rfl

/-- **What `main` does with a size.** -/
theorem mainPacketSize_eq {arg : CString} {n : Int32} (h : arg.toInt = n) : mainPacketSize arg =
    if n = 0 then .ok none
    else if 32 ≤ n ∧ n ≤ 4096 then .ok (some (UInt64.ofNat n.toInt.toNat))
    else .error ("ERROR: Paketgroesse muss zwischen 32 und 4096 Bytes liegen [".toList ++ numeral n ++ "]\n".toList) := by
  have hnat := toNat_size n
  have hlo := n.le_toInt
  have hhi := n.toInt_lt
  rw [mainPacketSize, argPacketSize, h]
  by_cases hzero : n = 0
  · rw [if_pos hzero, hzero]
    rfl
  · have hne : n.toInt ≠ 0 := fun h0 => hzero (Int32.toInt_inj.mp h0)
    have hpos : 0 < n.toInt64.toUInt64 := by
      rw [UInt64.lt_iff_toNat_lt]
      show 0 < n.toInt64.toUInt64.toNat
      omega
    have hrefused : n.toInt64.toUInt64 < 32 ∨ 4096 < n.toInt64.toUInt64 ↔ ¬ (32 ≤ n ∧ n ≤ 4096) := by
      rw [in_range_iff, UInt64.lt_iff_toNat_lt, UInt64.lt_iff_toNat_lt]
      show n.toInt64.toUInt64.toNat < 32 ∨ 4096 < n.toInt64.toUInt64.toNat ↔ _
      omega
    rw [if_neg hzero, if_pos hpos]
    by_cases hrange : 32 ≤ n ∧ n ≤ 4096
    · rw [if_pos hrange, if_neg fun hr => hrefused.mp hr hrange]
      rw [in_range_iff] at hrange
      have hsize : n.toInt64.toUInt64 = UInt64.ofNat n.toInt.toNat := by
        rw [← UInt64.toNat_inj, UInt64.toNat_ofNat']
        omega
      rw [hsize]
    · rw [if_neg hrange, if_pos (hrefused.mpr hrange), Int64.toInt64_toUInt64, Int32.toInt32_toInt64]
      rfl

/-- HOST:PORT is taken apart again. -/
theorem bouncerMain_request {hostname : CString} (hhost : ':' ∉ hostname) (port : Int32) :
    bouncerMain (hostname ++ ':' :: numeral port) = .ok (hostname, port) := by
  have hport : ':' ∉ numeral port := by
    intro hcolon
    rcases isDigit_or_minus_of_mem_numeral hcolon with h | h
    · exact absurd h (by decide)
    · exact absurd h (by decide)
  have hsplit : (hostname ++ ':' :: numeral port).splitOn ':' = [hostname, numeral port] := by
    calc (hostname ++ ':' :: numeral port).splitOn ':'
        = ([':'].intercalate [hostname, numeral port]).splitOn ':' := by
          simp [List.intercalate]
      _ = [hostname, numeral port] := List.splitOn_intercalate ':' (by simp [hhost, hport]) (List.cons_ne_nil _ _)
  have hne : hostname ++ ':' :: numeral port ≠ [] := by simp
  rw [bouncerMain, if_neg hne, explodeAll_eq_pair_iff.mpr hsplit]
  show Except.ok (hostname, toInt (numeral port)) = _
  rw [numeral_toInt]

/-- **The bouncer does what it was asked to**: written in any order and spelling, the options of a
    request come out as the request says. -/
theorem reads_bouncer_request {r : BouncerRequest} {os : List (Written BouncerFlag)} (hhost : ':' ∉ r.hostname)
    (hos : ∀ o ∈ os, o.Ok) (hasked : ∀ f, given os f = r.value f) :
    readBouncerArguments (commandLine BouncerFlag.text os) = r.outcome := by
  have hget := fun f => getArgv_commandLine bouncerFlag_free bouncerFlag_dashed hos f
  have hhave := fun f => haveArgv_commandLine bouncerFlag_free bouncerFlag_dashed os f
  simp only [hasked] at hget hhave
  have hswitch : ∀ b : Bool, (if b then some ([] : CString) else none).isSome = b := by decide
  have hsize := mainPacketSize_eq (toInt_option r.packetSize)
  rw [readBouncerArguments]
  simp only [hget, hhave, BouncerRequest.value, Option.isSome_none, Bool.or_self, Bool.false_eq_true, if_false,
    Option.getD_some, bouncerMain_request hhost, toInt_option, orDefault_eq, hswitch, hsize]
  unfold BouncerRequest.outcome
  by_cases hzero : r.packetSize.getD 0 = 0
  · simp only [hzero, if_true]
    rfl
  · by_cases hrange : 32 ≤ r.packetSize.getD 0 ∧ r.packetSize.getD 0 ≤ 4096
    · simp only [hzero, hrange, if_true, if_false, and_self]
      rfl
    · simp only [hzero, hrange, if_false]

/-- Two quiet workers that answer with 64 bytes. -/
def twoWorkers : BouncerRequest :=
  { hostname := "localhost".toList, port := 5300, quiet := true, noEcho := false, threadCount := some 2
    packetSize := some 64 }

def twoWorkersWritten : List (Written BouncerFlag) :=
  [.switch .q, .attached .n "2".toList, .separate .s "localhost:5300".toList, .separate .p "64".toList]

theorem reads_bouncer_request_two_workers :
    readBouncerArguments (commandLine BouncerFlag.text twoWorkersWritten) = twoWorkers.outcome := by
  apply reads_bouncer_request
  · decide
  · decide +kernel
  · intro f
    cases f <;> decide +kernel

end UdpPingPong
