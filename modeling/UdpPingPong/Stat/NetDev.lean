import Mathlib.Data.Nat.ModEq
import UdpPingPong.Lib.Stdio
import UdpPingPong.Stat.SystemStat
import UdpPingPong.Text

/- The counters of the network interfaces, read from /proc/net/dev.

   1. `sampleNetwork`: the loop over the lines. The buffer stands outside of the
      loop and keeps its text when nothing is read;
   2. `DevLine` and `DevFile`: what the kernel writes, the lines of interfaces and
      other lines without a colon;
   3. `sampleBuffer_shows`: a buffer that shows a line is counted as that line, and
      still shows it afterwards, with its tabs replaced;
   4. `sampleNetwork_eq`: the whole file. An interface with a name of one character
      is skipped, and a last line that ends in a newline is counted twice;
   5. `totals_eq_iff`: when the totals are the sums of the columns. -/
namespace UdpPingPong
open Stdio CString

/-! ## The loop -/

/-- How sampling fails: a token that is not there, or a file closed twice. -/
inductive SampleFailure where
  | outOfBounds
  | closedTwice
deriving DecidableEq

/-- `tok[i]`. -/
def token (tok : List CString) (i : Nat) : Except SampleFailure CString :=
  match tok[i]? with
  | some t => .ok t
  | none => .error .outOfBounds

/-- The four counters from `tok[i]` on. -/
def Network.ofTokens (tok : List CString) (i : Nat) : Except SampleFailure Network := do
  let bytes ← token tok i
  let packets ← token tok (i + 1)
  let errs ← token tok (i + 2)
  let drop ← token tok (i + 3)
  return { bytes := toUnsignedLong bytes, packets := toUnsignedLong packets
           errs := toUnsignedLong errs, drop := toUnsignedLong drop }

def Network.add (n k : Network) : Network :=
  { bytes := n.bytes + k.bytes, packets := n.packets + k.packets, errs := n.errs + k.errs, drop := n.drop + k.drop }

/-- An interface added to the map and to the totals. What the map has under the name stays. -/
def addInterface (r : InterfaceMap × Interface) (nif : Interface) : InterfaceMap × Interface :=
  (r.1.insertIfNew nif.name nif,
   { r.2 with receive := r.2.receive.add nif.receive, transmit := r.2.transmit.add nif.transmit })

/-- The variables of the loop. -/
structure Sample where
  buffer : CString
  result : InterfaceMap × Interface

/-- What follows `gets`. -/
def sampleBuffer (s : Sample) : Except SampleFailure Sample := do
  let buffer := trim s.buffer
  let t := instr ':' buffer
  if 1 < t then
    let name := buffer.take t.toNat
    let buffer := replace '\t' ' ' buffer
    let tok := strTok ' ' buffer
    let receive ← Network.ofTokens tok 1
    let transmit ← Network.ofTokens tok 9
    return { buffer, result := addInterface s.result { name, receive, transmit } }
  else return { s with buffer }

/-- The body of the loop, with what `fgets` returned. -/
def sampleLine (line : Option (List Char)) (s : Sample) : Except SampleFailure Sample :=
  sampleBuffer { s with buffer := line.elim s.buffer cString }

def sampleNetwork (content : List Char) (interfaces : InterfaceMap) (total : Interface) :
    Except SampleFailure (InterfaceMap × Interface) := do
  let total := { total with receive := {}, transmit := {} }
  let s ← whileNotEof (show 2 ≤ 2048 by decide) sampleLine (.ofText content) ⟨[], (interfaces, total)⟩
  return s.result

/-! ## The file -/

/-- White space and a number below 2^64. -/
structure Column where
  gap : CString
  digits : CString
  gap_ne : gap ≠ []
  gap_blank : ∀ c ∈ gap, c = ' ' ∨ c = '\t'
  digits_ne : digits ≠ []
  digits_ok : ∀ c ∈ digits, c.isDigit
  small : Nat.ofDigitChars 10 digits 0 < 2 ^ 64

def Column.text (c : Column) : CString := c.gap ++ c.digits

def Column.value (c : Column) : UInt64 := UInt64.ofNat (Nat.ofDigitChars 10 c.digits 0)

/-- A line of an interface: its name, padded in front, a colon and sixteen columns. -/
structure IfaceLine where
  pad : CString
  name : CString
  columns : Vector Column 16
  pad_blank : ∀ c ∈ pad, c = ' ' ∨ c = '\t'
  name_ok : ∀ c ∈ name, c ≠ ':' ∧ c ≠ '\x00' ∧ Decimal.isSpace c = false

namespace IfaceLine

def columnTexts (l : IfaceLine) : CString := l.columns.toList.flatMap Column.text

/-- The line without its padding. -/
def core (l : IfaceLine) : CString := l.name ++ ':' :: l.columnTexts

def text (l : IfaceLine) : CString := l.pad ++ l.core

/-- The number in column `i`. -/
def value (l : IfaceLine) (i : Fin 16) : UInt64 := (l.columns.get i).value

/-- The interface with the counters of the line. -/
def interface (l : IfaceLine) : Interface :=
  { name := l.name
    receive := { bytes := l.value 0, packets := l.value 1, errs := l.value 2, drop := l.value 3 }
    transmit := { bytes := l.value 8, packets := l.value 9, errs := l.value 10, drop := l.value 11 } }

end IfaceLine

inductive DevLine where
  | iface (l : IfaceLine)
  | other (text : List Char) (no_colon : ':' ∉ text) (no_newline : '\n' ∉ text)

namespace DevLine

def empty : DevLine := other [] List.not_mem_nil List.not_mem_nil

def text : DevLine → List Char
  | iface l => l.text
  | other text _ _ => text

def interface? : DevLine → Option Interface
  | iface l => some l.interface
  | other _ _ _ => none

end DevLine

/-- Lines that end in a newline, and one that does not. -/
structure DevFile where
  lines : List DevLine
  tail : Option DevLine
  short : ∀ l ∈ lines ++ tail.toList, l.text.length < 2047
  tail_ne : ∀ l ∈ tail, l.text ≠ []

namespace DevFile

def content (f : DevFile) : List Char :=
  f.lines.flatMap (fun l => l.text ++ ['\n']) ++ f.tail.elim [] DevLine.text

/-- The interfaces of the file, in order. -/
def interfaces (f : DevFile) : List Interface := (f.lines ++ f.tail.toList).filterMap DevLine.interface?

end DevFile

/-! ## One line -/

theorem toUnsignedLong_digits (c : Column) : toUnsignedLong c.digits = c.value := by
  have hle : Nat.ofDigitChars 10 c.digits 0 ≤ 2 ^ 64 - 1 := Nat.le_pred_of_lt c.small
  rw [toUnsignedLong, if_neg c.digits_ne, Decimal.scanNat_digits c.digits_ne c.digits_ok hle]
  rfl

theorem isSpace_of_isBlank {c : Char} (h : isBlank c) : Decimal.isSpace c := by
  simp only [isBlank, Bool.or_eq_true, decide_eq_true_eq] at h
  rcases h with ((h | h) | h) | rfl
  · simp [Decimal.isSpace, h]
  · simp [Decimal.isSpace, h]
  · have hc : c = ' ' := by rw [← Char.ofNat_toNat c, h]
    rw [hc]
    rfl
  · rfl

theorem not_isBlank_of_isDigit {c : Char} (h : c.isDigit) : ¬ isBlank c := by
  intro hb
  have hs := isSpace_of_isBlank hb
  rw [Decimal.not_isSpace_of_isDigit h] at hs
  cases hs

theorem isBlank_of_gap {c : Char} (h : c = ' ' ∨ c = '\t') : isBlank c := by
  rcases h with rfl | rfl <;> rfl

/-- No blank is left of a number, and blanks only of a gap. -/
theorem replace_column (c : Column) : replace '\t' ' ' c.text = replace '\t' ' ' c.gap ++ c.digits := by
  rw [Column.text, replace_append]
  congr 1
  apply replace_of_not_mem
  intro h
  exact absurd (c.digits_ok _ h) (by decide)

theorem replace_gap (c : Column) : ∀ x ∈ replace '\t' ' ' c.gap, x = ' ' := by
  intro x hx
  obtain ⟨y, hy, rfl⟩ := List.mem_map.mp hx
  rcases c.gap_blank y hy with rfl | rfl <;> rfl

/-- A word with columns behind it. -/
theorem strTok_columns {w : CString} (hne : w ≠ []) (hw : ' ' ∉ w) (cs : List Column) :
    strTok ' ' (w ++ replace '\t' ' ' (cs.flatMap Column.text)) = w :: cs.map Column.digits := by
  induction cs generalizing w with
  | nil =>
    rw [List.flatMap_nil]
    exact (congrArg (strTok ' ') (List.append_nil w)).trans (strTok_word hne hw)
  | cons c cs ih =>
    have hgap : replace '\t' ' ' c.gap ≠ [] := by
      intro h
      exact c.gap_ne (List.map_eq_nil_iff.mp h)
    have hdigits : ' ' ∉ c.digits := by
      intro h
      exact absurd (c.digits_ok _ h) (by decide)
    calc strTok ' ' (w ++ replace '\t' ' ' ((c :: cs).flatMap Column.text))
        = strTok ' ' (w ++ (replace '\t' ' ' c.gap ++ (c.digits ++ replace '\t' ' ' (cs.flatMap Column.text)))) := by
          rw [List.flatMap_cons, replace_append, replace_column, List.append_assoc]
      _ = w :: strTok ' ' (c.digits ++ replace '\t' ' ' (cs.flatMap Column.text)) :=
          strTok_word_append hne hw hgap (replace_gap c) _
      _ = w :: c.digits :: cs.map Column.digits := by rw [ih c.digits_ne hdigits]

theorem ofTokens_eq {tok : List CString} {i : Nat} {a b c d : Column} (ha : token tok i = .ok a.digits)
    (hb : token tok (i + 1) = .ok b.digits) (hc : token tok (i + 2) = .ok c.digits)
    (hd : token tok (i + 3) = .ok d.digits) :
    Network.ofTokens tok i =
      .ok { bytes := a.value, packets := b.value, errs := c.value, drop := d.value } := by
  simp only [Network.ofTokens, ha, hb, hc, hd, bind, Except.bind, pure, Except.pure, toUnsignedLong_digits]

/-- Columns end in a digit. -/
theorem isDigit_of_getLast? (cs : List Column) : ∀ c ∈ (cs.flatMap Column.text).getLast?, c.isDigit := by
  intro c hc
  rcases List.eq_nil_or_concat' cs with rfl | ⟨cs, x, rfl⟩
  · cases hc
  · have hlast : c ∈ x.digits.getLast? := by
      simpa [Column.text, List.getLast?_append, x.digits_ne] using hc
    exact x.digits_ok c (List.mem_of_getLast? hlast)

namespace IfaceLine
variable (l : IfaceLine)

/-- The line as it stands in the buffer when it is counted: tabs are blanks. -/
def kept : CString := replace '\t' ' ' l.core

theorem name_plain {c : Char} (hc : c = ' ' ∨ c = '\t' ∨ c = ':' ∨ c = '\x00') : c ∉ l.name := by
  intro h
  obtain ⟨hcolon, hzero, hspace⟩ := l.name_ok c h
  rcases hc with rfl | rfl | rfl | rfl
  · cases hspace
  · cases hspace
  · exact hcolon rfl
  · exact hzero rfl

/-- The line is made of its name, white space, a colon and digits. -/
theorem not_mem_text {c : Char} (hname : c ∉ l.name) (hblank : ¬ (c = ' ' ∨ c = '\t')) (hcolon : c ≠ ':')
    (hdigit : ¬ c.isDigit) : c ∉ l.text := by
  have hcolumns : c ∉ l.columnTexts := by
    intro h
    obtain ⟨x, -, hx⟩ := List.mem_flatMap.mp h
    rcases List.mem_append.mp hx with hgap | hdigits
    · exact hblank (x.gap_blank _ hgap)
    · exact hdigit (x.digits_ok _ hdigits)
  simp only [text, core, List.mem_append, List.mem_cons, not_or]
  exact ⟨fun h => hblank (l.pad_blank _ h), hname, hcolon, hcolumns⟩

theorem zero_not_mem : '\x00' ∉ l.text :=
  l.not_mem_text (l.name_plain (by simp)) (by decide) (by decide) (by decide)

theorem newline_not_mem : '\n' ∉ l.text := by
  refine l.not_mem_text ?_ (by decide) (by decide) (by decide)
  intro h
  exact absurd (l.name_ok _ h).2.2 (by decide)

theorem kept_eq : l.kept = l.name ++ ':' :: replace '\t' ' ' l.columnTexts := by
  rw [kept, core, replace_append, replace_of_not_mem (l.name_plain (by simp))]
  rfl

/-- The tokens of a counted line: the name with its colon, and the columns. -/
theorem strTok_kept : strTok ' ' l.kept = (l.name ++ [':']) :: l.columns.toList.map Column.digits := by
  have hw : ' ' ∉ l.name ++ [':'] := by
    rw [List.mem_append, not_or]
    exact ⟨l.name_plain (by simp), by decide⟩
  rw [kept_eq, List.append_cons]
  exact strTok_columns (by simp) hw l.columns.toList

/-- What the tokens say. -/
theorem tokens_interface (name : CString) :
    Network.ofTokens (name :: l.columns.toList.map Column.digits) 1 = .ok l.interface.receive ∧
      Network.ofTokens (name :: l.columns.toList.map Column.digits) 9 = .ok l.interface.transmit := by
  have htoken : ∀ i : Fin 16, token (name :: l.columns.toList.map Column.digits) (i + 1) =
      .ok (l.columns.get i).digits := by
    intro i
    simp [token, Vector.get]
  exact ⟨ofTokens_eq (htoken 0) (htoken 1) (htoken 2) (htoken 3),
    ofTokens_eq (htoken 8) (htoken 9) (htoken 10) (htoken 11)⟩

theorem solid_core : Solid l.core := by
  refine ⟨?_, ?_, ?_⟩
  · simp [core]
  · intro c hc hb
    cases hname : l.name with
    | nil =>
      rw [core, hname] at hc
      obtain rfl := Option.some.inj hc
      cases hb
    | cons x name =>
      rw [core, hname] at hc
      obtain rfl := Option.some.inj hc
      have hspace := (l.name_ok x (by simp [hname])).2.2
      rw [isSpace_of_isBlank hb] at hspace
      cases hspace
  · intro c hc hb
    rw [core, List.getLast?_append, List.getLast?_cons] at hc
    obtain rfl := Option.some.inj hc
    cases hlast : l.columnTexts.getLast? with
    | none =>
      rw [hlast] at hb
      cases hb
    | some x =>
      rw [hlast] at hb
      exact not_isBlank_of_isDigit (isDigit_of_getLast? _ x hlast) hb

/-- A line in the buffer, with or without its newline, is cut to its core. -/
theorem trim_text {back : CString} (hback : ∀ c ∈ back, isBlank c) : trim (l.text ++ back) = l.core :=
  trim_solid l.solid_core (fun c hc => isBlank_of_gap (l.pad_blank c hc)) hback

theorem trim_kept : trim l.kept = l.kept := (l.solid_core.replace rfl).trim_eq

end IfaceLine

/-! ## The buffer -/

namespace DevLine

/-- The trimmed buffer shows a line: an interface and its tokens, or no colon. -/
def Shows : DevLine → CString → Prop
  | iface l, b => ∃ rest, trim b = l.name ++ ':' :: rest ∧ replace '\t' ' ' (trim b) = l.kept
  | other _ _ _, b => ':' ∉ trim b

/-- What a line adds: nothing if the colon stands in one of the first two places. -/
def counted : DevLine → List Interface
  | iface l => if 1 < l.name.length then [l.interface] else []
  | other _ _ _ => []

theorem shows_text (l : DevLine) {back : List Char} (hback : back = [] ∨ back = ['\n']) :
    l.Shows (cString (l.text ++ back)) := by
  cases l with
  | iface l =>
    have hzero : ∀ c ∈ l.text ++ back, c ≠ '\x00' := by
      intro c hc hnul
      subst hnul
      rcases List.mem_append.mp hc with h | h
      · exact l.zero_not_mem h
      · rcases hback with rfl | rfl
        · cases h
        · exact absurd h (by decide)
    have hblank : ∀ c ∈ back, isBlank c := by
      rcases hback with rfl | rfl <;> simp [isBlank]
    have hstring : cString (l.text ++ back) = l.text ++ back :=
      List.takeWhile_eq_self_iff.mpr fun c hc => decide_eq_true (hzero c hc)
    rw [Shows, text, hstring, l.trim_text hblank]
    exact ⟨l.columnTexts, rfl, rfl⟩
  | other text hcolon hnewline =>
    intro hmem
    have hsub : (trim (cString (text ++ back))).Sublist (text ++ back) :=
      (trim_sublist _).trans (List.takeWhile_sublist _)
    rcases List.mem_append.mp (hsub.subset hmem) with h | h
    · exact hcolon h
    · rcases hback with rfl | rfl
      · cases h
      · exact absurd h (by decide)

end DevLine

/-- **A shown line is counted**, and the buffer shows it still. -/
theorem sampleBuffer_shows {l : DevLine} {s : Sample} (h : l.Shows s.buffer) :
    ∃ b, sampleBuffer s = .ok ⟨b, l.counted.foldl addInterface s.result⟩ ∧ l.Shows b := by
  cases l with
  | iface l =>
    obtain ⟨rest, htrim, hkept⟩ := h
    have hinstr : instr ':' (trim s.buffer) = l.name.length := by
      rw [htrim]
      exact instr_append (l.name_plain (by simp)) rest
    by_cases hlen : 1 < l.name.length
    · refine ⟨l.kept, ?_, replace '\t' ' ' l.columnTexts, ?_, ?_⟩
      · have hname : (trim s.buffer).take l.name.length = l.name := by
          rw [htrim, List.take_left]
        have hlen' : (1 : Int) < l.name.length := by exact_mod_cast hlen
        obtain ⟨hreceive, htransmit⟩ := l.tokens_interface (l.name ++ [':'])
        simp only [sampleBuffer, hinstr, if_pos hlen', hkept, l.strTok_kept, hreceive, htransmit,
          Int.toNat_natCast, hname, bind, Except.bind, pure, Except.pure, DevLine.counted, if_pos hlen]
        rfl
      · rw [l.trim_kept, l.kept_eq]
      · rw [l.trim_kept]
        exact replace_of_not_mem (not_mem_replace (by decide) _)
    · refine ⟨trim s.buffer, ?_, rest, ?_, ?_⟩
      · have hlen' : ¬ (1 : Int) < l.name.length := by exact_mod_cast hlen
        simp only [sampleBuffer, hinstr, if_neg hlen', pure, Except.pure, DevLine.counted, if_neg hlen]
        rfl
      · rw [trim_trim, htrim]
      · rw [trim_trim, hkept]
  | other text hcolon hnewline =>
    refine ⟨trim s.buffer, ?_, ?_⟩
    · have hneg : ¬ (1 : Int) < -1 := by decide
      simp only [sampleBuffer, instr_of_not_mem h, if_neg hneg, pure, Except.pure, DevLine.counted]
      rfl
    · rw [DevLine.Shows, trim_trim]
      exact h

/-! ## The file -/

namespace DevFile
variable (f : DevFile)

/-- The line that is counted twice: the last one, if it ends in a newline. -/
def readTwice : List Interface :=
  if f.tail.isSome then [] else f.lines.getLast?.elim [] DevLine.counted

/-- What is added to the totals, in order. -/
def processed : List Interface := (f.lines ++ f.tail.toList).flatMap DevLine.counted ++ f.readTwice

/-- The interfaces that are skipped. -/
def skipped : List Interface := f.interfaces.filter fun nif => nif.name.length ≤ 1

end DevFile

/-- The lines in front of the last newline; the buffer shows the last of them. -/
theorem sampleLines_eq (lines : List DevLine) {s : Sample} {first : DevLine} (h₀ : first.Shows s.buffer) :
    ∃ b, (lines.map DevLine.text).foldlM (fun s l => sampleLine (some (l ++ ['\n'])) s) s =
        .ok ⟨b, (lines.flatMap DevLine.counted).foldl addInterface s.result⟩ ∧
      (lines.getLast?.getD first).Shows b := by
  induction lines using List.reverseRecOn with
  | nil => exact ⟨s.buffer, rfl, h₀⟩
  | append_singleton lines l ih =>
    obtain ⟨b, hb, -⟩ := ih
    obtain ⟨b', hb', hshows⟩ := sampleBuffer_shows
      (s := ⟨cString (l.text ++ ['\n']), (lines.flatMap DevLine.counted).foldl addInterface s.result⟩)
      (l.shows_text (.inr rfl))
    refine ⟨b', ?_, ?_⟩
    · rw [List.map_append, List.foldlM_append, hb, List.flatMap_append, List.foldl_append,
        List.flatMap_singleton, List.map_singleton]
      exact (bind_pure (sampleBuffer _)).trans hb'
    · rw [List.getLast?_concat]
      exact hshows

theorem DevLine.newline_not_mem (l : DevLine) : '\n' ∉ l.text := by
  cases l with
  | iface l => exact l.newline_not_mem
  | other text hcolon hnewline => exact hnewline

/-- The line the buffer shows in the last round of the loop. -/
def DevFile.lastRead (f : DevFile) : DevLine := f.tail.getD (f.lines.getLast?.getD DevLine.empty)

theorem DevFile.processed_eq (f : DevFile) :
    f.processed = f.lines.flatMap DevLine.counted ++ f.lastRead.counted := by
  rw [processed, readTwice, lastRead]
  cases f.tail with
  | none => cases f.lines.getLast? <;> simp [DevLine.counted, DevLine.empty]
  | some l => simp

/-- **What sampling a file does.** -/
theorem sampleNetwork_eq (f : DevFile) (interfaces : InterfaceMap) (total : Interface) :
    sampleNetwork f.content interfaces total =
      .ok (f.processed.foldl addInterface (interfaces, { total with receive := {}, transmit := {} })) := by
  have hfits : ∀ l ∈ f.lines ++ f.tail.toList, Fits 2048 l.text := fun l hl => ⟨l.newline_not_mem, f.short l hl⟩
  have hlines : ∀ t ∈ f.lines.map DevLine.text, Fits 2048 t := by
    intro t ht
    obtain ⟨l, hl, rfl⟩ := List.mem_map.mp ht
    exact hfits l (List.mem_append_left _ hl)
  have htail : Fits 2048 (f.tail.elim [] DevLine.text) := by
    cases ht : f.tail with
    | none => exact ⟨List.not_mem_nil, by decide⟩
    | some l => exact hfits l (by simp [ht])
  have hcontent : f.content = (f.lines.map DevLine.text).flatMap (· ++ ['\n']) ++ f.tail.elim [] DevLine.text := by
    rw [DevFile.content, List.flatMap_map]
  generalize htotal : ({ total with receive := {}, transmit := {} } : Interface) = start
  have hempty : DevLine.empty.Shows [] := List.not_mem_nil
  obtain ⟨b, hb, hshows⟩ := sampleLines_eq f.lines (s := ⟨[], (interfaces, start)⟩) hempty
  generalize hread : (if f.tail.elim [] DevLine.text = [] then none else some (f.tail.elim [] DevLine.text)) = read
  -- in the last round the buffer shows the text behind the last newline, or still the last line
  have hlast : f.lastRead.Shows (read.elim b cString) := by
    rw [DevFile.lastRead, ← hread]
    cases ht : f.tail with
    | none => exact hshows
    | some l =>
      have htext := l.shows_text (.inl rfl)
      rw [List.append_nil] at htext
      rw [Option.elim_some, if_neg (f.tail_ne l ht)]
      exact htext
  obtain ⟨b', hb', -⟩ := sampleBuffer_shows (s := ⟨read.elim b cString, _⟩) hlast
  rw [sampleNetwork, hcontent, htotal, whileNotEof_lines hlines htail, hb, hread, f.processed_eq, List.foldl_append]
  exact congrArg (· >>= fun s => pure s.result) hb'

/-! ## The totals -/

/-- The eight counters of an interface. -/
def counters : List (Interface → UInt64) :=
  [fun i => i.receive.bytes, fun i => i.receive.packets, fun i => i.receive.errs, fun i => i.receive.drop,
   fun i => i.transmit.bytes, fun i => i.transmit.packets, fun i => i.transmit.errs, fun i => i.transmit.drop]

/-- The sum of a counter over some interfaces. -/
def columnSum (c : Interface → UInt64) (nifs : List Interface) : Nat := (nifs.map fun nif => (c nif).toNat).sum

section
variable {c : Interface → UInt64}

theorem columnSum_append (nifs nifs' : List Interface) :
    columnSum c (nifs ++ nifs') = columnSum c nifs + columnSum c nifs' := by
  simp [columnSum]

theorem counter_addInterface (hc : c ∈ counters) (r : InterfaceMap × Interface) (nif : Interface) :
    (c (addInterface r nif).2).toNat ≡ (c r.2).toNat + (c nif).toNat [MOD 2 ^ 64] := by
  have hadd : ∀ x y : UInt64, (x + y).toNat ≡ x.toNat + y.toNat [MOD 2 ^ 64] := by
    intro x y
    rw [UInt64.toNat_add]
    exact Nat.mod_modEq _ _
  simp only [counters, List.mem_cons, List.not_mem_nil, or_false] at hc
  rcases hc with rfl | rfl | rfl | rfl | rfl | rfl | rfl | rfl
  all_goals exact hadd _ _

theorem counter_foldl (hc : c ∈ counters) (nifs : List Interface) (r : InterfaceMap × Interface) :
    (c (nifs.foldl addInterface r).2).toNat ≡ (c r.2).toNat + columnSum c nifs [MOD 2 ^ 64] := by
  induction nifs generalizing r with
  | nil => exact Nat.ModEq.refl _
  | cons nif nifs ih =>
    calc (c (nifs.foldl addInterface (addInterface r nif)).2).toNat
        ≡ (c (addInterface r nif).2).toNat + columnSum c nifs [MOD 2 ^ 64] := ih (addInterface r nif)
      _ ≡ (c r.2).toNat + (c nif).toNat + columnSum c nifs [MOD 2 ^ 64] :=
          (counter_addInterface hc r nif).add_right _
      _ = (c r.2).toNat + columnSum c (nif :: nifs) := by
          rw [columnSum, columnSum, List.map_cons, List.sum_cons, Nat.add_assoc]

theorem counter_cleared (hc : c ∈ counters) (total : Interface) :
    (c { total with receive := {}, transmit := {} }).toNat = 0 := by
  simp only [counters, List.mem_cons, List.not_mem_nil, or_false] at hc
  rcases hc with rfl | rfl | rfl | rfl | rfl | rfl | rfl | rfl
  all_goals rfl

end

theorem counted_eq_filter (lines : List DevLine) : lines.flatMap DevLine.counted =
    (lines.filterMap DevLine.interface?).filter fun nif => 1 < nif.name.length := by
  induction lines with
  | nil => rfl
  | cons l lines ih =>
    rw [List.flatMap_cons, ih, List.filterMap_cons]
    cases l with
    | iface l => by_cases h : 1 < l.name.length <;> simp [DevLine.counted, DevLine.interface?, IfaceLine.interface, h]
    | other text hcolon hnewline => rfl

/-- An interface is counted or skipped. -/
theorem DevFile.counted_or_skipped (f : DevFile) (c : Interface → UInt64) :
    columnSum c f.interfaces =
      columnSum c ((f.lines ++ f.tail.toList).flatMap DevLine.counted) + columnSum c f.skipped := by
  have hskipped : f.skipped = f.interfaces.filter fun nif => !decide (1 < nif.name.length) := by
    rw [skipped]
    congr 1
    funext nif
    rw [← decide_not, decide_eq_decide, Nat.not_lt]
  have hperm := List.filter_append_perm (fun nif : Interface => decide (1 < nif.name.length)) f.interfaces
  rw [counted_eq_filter, hskipped, ← columnSum_append]
  exact (hperm.map _).sum_eq.symm

/-- **When the totals are right**: in each of the eight columns, what was skipped and what was counted
    twice make the same sum modulo 2^64. -/
theorem totals_eq_iff (f : DevFile) (interfaces : InterfaceMap) (total : Interface) :
    (∃ r, sampleNetwork f.content interfaces total = .ok r ∧
        ∀ c ∈ counters, (c r.2).toNat ≡ columnSum c f.interfaces [MOD 2 ^ 64]) ↔
      ∀ c ∈ counters, columnSum c f.skipped ≡ columnSum c f.readTwice [MOD 2 ^ 64] := by
  have hsum : ∀ c ∈ counters, (c (f.processed.foldl addInterface
        (interfaces, { total with receive := {}, transmit := {} })).2).toNat ≡
      columnSum c ((f.lines ++ f.tail.toList).flatMap DevLine.counted) + columnSum c f.readTwice [MOD 2 ^ 64] := by
    intro c hc
    have h := counter_foldl hc f.processed (interfaces, { total with receive := {}, transmit := {} })
    rwa [counter_cleared hc, Nat.zero_add, DevFile.processed, columnSum_append] at h
  simp only [sampleNetwork_eq, Except.ok.injEq, exists_eq_left']
  refine forall₂_congr fun c hc => ?_
  rw [f.counted_or_skipped]
  refine ⟨?_, ?_⟩
  · intro h
    exact Nat.ModEq.add_left_cancel' _ (h.symm.trans (hsum c hc))
  · intro h
    exact (hsum c hc).trans (h.symm.add_left _)

/-- White space and a 5. -/
def five : Column :=
  { gap := [' '], digits := ['5'], gap_ne := List.cons_ne_nil _ _, digits_ne := List.cons_ne_nil _ _
    gap_blank := List.forall_mem_singleton.mpr (.inl rfl), digits_ok := List.forall_mem_singleton.mpr rfl
    small := by decide }

/-- An interface with a 5 in every column. -/
def fives (name : CString) (h : ∀ c ∈ name, c ≠ ':' ∧ c ≠ '\x00' ∧ Decimal.isSpace c = false) : IfaceLine :=
  { pad := [], name, columns := Vector.replicate 16 five, pad_blank := by simp, name_ok := h }

def loLine : IfaceLine := fives ['l', 'o'] (by
  intro c hc
  rcases List.mem_pair.mp hc with rfl | rfl <;> decide)

/-- One interface, in a line that ends in a newline. -/
def loFile : DevFile :=
  { lines := [.iface loLine], tail := none, short := List.forall_mem_singleton.mpr (by decide +kernel)
    tail_ne := by simp }

/-- The last line is counted twice. -/
theorem last_line_counted_twice :
    loFile.content = "lo: 5 5 5 5 5 5 5 5 5 5 5 5 5 5 5 5\n".toList ∧
      (∃ r, sampleNetwork loFile.content ∅ {} = .ok r ∧ r.2.receive.bytes = 10) ∧
      columnSum (fun i => i.receive.bytes) loFile.interfaces = 5 :=
  ⟨by decide +kernel, ⟨_, sampleNetwork_eq loFile ∅ {}, by decide +kernel⟩, by decide +kernel⟩

end UdpPingPong
