import UdpPingPong.Lib.Options
import UdpPingPong.Endpoint

/- The arguments of the two programs: `GetArgv` and `HaveArgv`.

   A flag is looked for by `strncmp`, so `-p512` and `-p 512` both give the value 512. A
   value of its own that begins with '-' counts as missing, unless a backslash stands in
   front of it.

   1. `Written`: an option as it stands on the command line;
   2. `given`: what a command line says about each flag, the first option with a flag
      being the one that counts;
   3. `getArgv_commandLine`, `haveArgv_commandLine`: the two functions read just that,
      in whatever order and spelling the options are written;
   4. `numeral_toInt`: a number is read as it was written. -/
namespace UdpPingPong

open Options CString Decimal

/-- A value in an argument of its own. -/
def ownArgument : CString → CString
  | '-' :: _ => []
  | '\\' :: '-' :: ret => '-' :: ret
  | ret => ret

/-- The value of an argument that begins with the flag, with the arguments behind it. -/
def argumentValue (argument a : CString) (rest : List CString) : CString :=
  match rest with
  | [] => a.drop argument.length
  | next :: _ => if argument.length < a.length then a.drop argument.length else ownArgument next

/-- `GetArgv`, on the arguments behind the name of the program. -/
def getArgv (argv : List CString) (argument : CString) : CString :=
  match argv with
  | [] => []
  | a :: rest => if argument <+: a then argumentValue argument a rest else getArgv rest argument

/-- `HaveArgv`. -/
def haveArgv (argv : List CString) (argument : CString) : Bool := argv.any fun a => argument.isPrefixOf a

/-! ## Options -/

section
variable {ι : Type}

/-- An option on the command line: a switch, a value in the same argument as the flag, or a value
    in an argument of its own. -/
inductive Written (ι : Type) where
  | switch (flag : ι)
  | attached (flag : ι) (value : CString)
  | separate (flag : ι) (value : CString)
deriving DecidableEq

namespace Written

def flag : Written ι → ι
  | switch f => f
  | attached f _ => f
  | separate f _ => f

def value : Written ι → CString
  | switch _ => []
  | attached _ v => v
  | separate _ v => v

/-- An argument of its own hides the '-' its value begins with. -/
def escape (value : CString) : CString := if value.head? = some '-' then '\\' :: value else value

def group : Written ι → Group ι Char
  | switch f => ⟨f, [], []⟩
  | attached f v => ⟨f, v, []⟩
  | separate f v => ⟨f, [], [escape v]⟩

/-- What can be written: a value next to its flag is not empty, and one of its own does not look like
    a hidden one. -/
def Ok : Written ι → Prop
  | switch _ => True
  | attached _ v => v ≠ []
  | separate _ v => ¬ ['\\', '-'] <+: v

instance : (o : Written ι) → Decidable o.Ok
  | switch _ => inferInstanceAs (Decidable True)
  | attached _ v => inferInstanceAs (Decidable (v ≠ []))
  | separate _ v => inferInstanceAs (Decidable (¬ ['\\', '-'] <+: v))

end Written

/-- The arguments that some options make. -/
def commandLine (text : ι → CString) (os : List (Written ι)) : List CString :=
  (os.map Written.group).flatMap (Group.arguments text)

/-- What some options say about a flag. -/
def given [DecidableEq ι] (os : List (Written ι)) (i : ι) : Option CString :=
  (os.find? fun o => o.flag = i).map Written.value

/-! ## Reading them -/

theorem getArgv_eq (argv : List CString) (argument : CString) :
    getArgv argv argument = match find argument argv with
      | none => []
      | some (a, rest) => argumentValue argument a rest := by
  induction argv with
  | nil => rfl
  | cons a rest ih =>
    by_cases h : argument <+: a
    · rw [getArgv, if_pos h, find, if_pos h]
    · rw [getArgv, if_neg h, find, if_neg h]
      exact ih

theorem haveArgv_eq (argv : List CString) (argument : CString) : haveArgv argv argument = (find argument argv).isSome := by
  induction argv with
  | nil => rfl
  | cons a rest ih =>
    rw [haveArgv, List.any_cons, find]
    by_cases h : argument <+: a
    · rw [if_pos h, List.isPrefixOf_iff_prefix.mpr h]
      rfl
    · rw [if_neg h, ← ih, haveArgv, Bool.eq_false_iff.mpr (mt List.isPrefixOf_iff_prefix.mp h), Bool.false_or]

/-- The flags of a program begin with '-'. -/
def Dashed (text : ι → CString) : Prop := ∀ i, (text i).head? = some '-'

variable {text : ι → CString}

theorem Dashed.cons (hdash : Dashed text) (i : ι) : ∃ t, text i = '-' :: t := by
  obtain ⟨t, ht⟩ := List.head?_eq_some_iff.mp (hdash i)
  exact ⟨t, ht⟩

theorem head?_escape (v : CString) : (Written.escape v).head? ≠ some '-' := by
  unfold Written.escape
  split
  · simp
  · assumption

/-- An option is found by its own flag only. -/
theorem group_silent (hdash : Dashed text) (o : Written ι) : o.group.Silent text := by
  cases o with
  | switch f => exact fun v hv => absurd hv List.not_mem_nil
  | attached f w => exact fun v hv => absurd hv List.not_mem_nil
  | separate f w =>
    intro v hv i hstart
    obtain ⟨t, ht⟩ := hdash.cons i
    obtain ⟨back, hback⟩ := hstart
    rw [List.mem_singleton.mp hv, ht] at hback
    apply head?_escape w
    rw [← hback]
    rfl

theorem argumentValue_attached (argument : CString) {v : CString} (hv : v ≠ []) (rest : List CString) :
    argumentValue argument (argument ++ v) rest = v := by
  have hlen : argument.length < (argument ++ v).length := by
    rw [List.length_append]
    exact Nat.lt_add_of_pos_right (List.length_pos_of_ne_nil hv)
  cases rest with
  | nil => exact List.drop_left
  | cons next _ => rw [argumentValue, if_pos hlen, List.drop_left]

theorem argumentValue_bare (argument next : CString) (rest : List CString) :
    argumentValue argument argument (next :: rest) = ownArgument next :=
  if_neg (Nat.lt_irrefl _)

theorem ownArgument_escape {v : CString} (hv : ¬ ['\\', '-'] <+: v) : ownArgument (Written.escape v) = v := by
  unfold Written.escape
  split
  · next hdash =>
    obtain ⟨t, rfl⟩ := List.head?_eq_some_iff.mp hdash
    rfl
  · next hdash =>
    unfold ownArgument
    split
    · exact absurd rfl hdash
    · exact absurd ⟨_, rfl⟩ hv
    · rfl

/-- Behind a switch stands another option or nothing. -/
theorem argumentValue_switch (hdash : Dashed text) (argument : CString) (gs : List (Group ι Char)) :
    argumentValue argument argument (gs.flatMap (Group.arguments text)) = [] := by
  cases gs with
  | nil => exact List.drop_length
  | cons g gs =>
    obtain ⟨t, ht⟩ := hdash.cons g.flag
    rw [List.flatMap_cons, Group.arguments, List.cons_append, argumentValue_bare, ht]
    rfl

/-- The value of an option that is found. -/
theorem argumentValue_group (hdash : Dashed text) {o : Written ι} (ho : o.Ok) (back : List (Group ι Char)) :
    argumentValue (text o.flag) (text o.flag ++ o.group.attached)
      (o.group.behind ++ back.flatMap (Group.arguments text)) = o.value := by
  cases o with
  | switch f =>
    rw [Written.group, List.append_nil]
    exact argumentValue_switch hdash _ back
  | attached f v => exact argumentValue_attached _ ho _
  | separate f v =>
    rw [Written.group, List.append_nil, List.cons_append, argumentValue_bare]
    exact ownArgument_escape ho

section
variable [DecidableEq ι]

/-- **Where an option is found**: where the first one with the flag stands. -/
theorem find_commandLine (hfree : PrefixFree text) (hdash : Dashed text) (os : List (Written ι)) (i : ι) :
    match os.find? (fun o => o.flag = i) with
    | none => find (text i) (commandLine text os) = none
    | some o => ∃ back : List (Group ι Char), find (text i) (commandLine text os) =
        some (text i ++ o.group.attached, o.group.behind ++ back.flatMap (Group.arguments text)) := by
  have hsilent : ∀ g ∈ os.map Written.group, g.Silent text := by
    intro g hg
    obtain ⟨o, -, rfl⟩ := List.mem_map.mp hg
    exact group_silent hdash o
  have hflag : (fun g : Group ι Char => decide (g.flag = i)) ∘ Written.group = fun o : Written ι => decide (o.flag = i) := by
    funext o
    cases o <;> rfl
  have hfind := find_groups hfree hsilent i
  rw [List.find?_map, hflag] at hfind
  cases hos : os.find? fun o => o.flag = i with
  | none =>
    rw [hos] at hfind
    exact hfind
  | some o =>
    rw [hos] at hfind
    exact hfind

/-- **What `GetArgv` reads**: the value of the first option with the flag. -/
theorem getArgv_commandLine (hfree : PrefixFree text) (hdash : Dashed text) {os : List (Written ι)}
    (hos : ∀ o ∈ os, o.Ok) (i : ι) :
    getArgv (commandLine text os) (text i) = (given os i).getD [] := by
  have hfind := find_commandLine hfree hdash os i
  rw [getArgv_eq, given]
  cases h : os.find? fun o => o.flag = i with
  | none =>
    rw [h] at hfind
    rw [hfind]
    rfl
  | some o =>
    rw [h] at hfind
    obtain ⟨back, hback⟩ := hfind
    have hflag : o.flag = i := by
      simpa using List.find?_some h
    rw [hback]
    subst hflag
    exact argumentValue_group hdash (hos o (List.mem_of_find?_eq_some h)) back

/-- **What `HaveArgv` tells**: whether there is an option with the flag. -/
theorem haveArgv_commandLine (hfree : PrefixFree text) (hdash : Dashed text) (os : List (Written ι)) (i : ι) :
    haveArgv (commandLine text os) (text i) = (given os i).isSome := by
  have hfind := find_commandLine hfree hdash os i
  rw [haveArgv_eq, given]
  cases h : os.find? fun o => o.flag = i with
  | none =>
    rw [h] at hfind
    rw [hfind]
    rfl
  | some o =>
    rw [h] at hfind
    obtain ⟨back, hback⟩ := hfind
    rw [hback]
    rfl

end

end

/-! ## Numbers -/

/-- The text of a number. -/
def numeral (n : Int32) : CString := printInt n.toInt

theorem numeral_ne_nil (n : Int32) : numeral n ≠ [] := printInt_ne_nil _

theorem isDigit_or_minus_of_mem_numeral {n : Int32} {c : Char} (h : c ∈ numeral n) : c.isDigit ∨ c = '-' := by
  unfold numeral at h
  cases hn : n.toInt with
  | ofNat k =>
    rw [hn] at h
    exact Or.inl (isDigit_of_mem_printNat h)
  | negSucc k =>
    rw [hn] at h
    rcases List.mem_cons.mp h with hminus | hdigit
    · exact Or.inr hminus
    · exact Or.inl (isDigit_of_mem_printNat hdigit)

/-- **`toInt` undoes `%d`.** -/
theorem numeral_toInt (n : Int32) : (numeral n).toInt = n := by
  have hlo := n.le_toInt
  have hhi := n.toInt_lt
  have hnum : strtol (numeral n) = n.toInt := by
    apply scanSigned_printInt
    · exact le_trans (by decide) hlo
    · exact le_trans hhi.le (by decide)
  rw [← Int32.toInt_inj, toInt_eq (numeral_ne_nil n), hnum]
  apply Int.bmod_eq_of_le
  · omega
  · omega

/-- A number that is given and not 0, or the default. -/
def orDefault {α : Type} [OfNat α 0] [DecidableEq α] (default : α) (n : Option α) : α :=
  (n.filter (· ≠ 0)).getD default

theorem orDefault_eq {α : Type} [OfNat α 0] [DecidableEq α] (default : α) (n : Option α) :
    (if n.getD 0 = 0 then default else n.getD 0) = orDefault default n := by
  cases n with
  | none => exact if_pos rfl
  | some x =>
    by_cases hx : x = 0
    · simp [orDefault, Option.filter, hx]
    · simp [orDefault, Option.filter, hx]

/-- A number that is not given is read as 0. -/
theorem toInt_option (n : Option Int32) : toInt ((n.map numeral).getD []) = n.getD 0 := by
  cases n with
  | none => rfl
  | some x => exact numeral_toInt x

end UdpPingPong
