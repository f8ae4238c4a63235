import Mathlib.Data.List.Basic
import Mathlib.Tactic.Common

/- Reading a text line by line through a buffered stream.

   1. `fgets`: at most `num - 1` characters, up to a newline and with it; nothing
      is read only at the end of the text. Running out of text sets the flag
      that `feof` asks for;
   2. `whileNotEof`: a loop that asks `feof` first and then reads. It ends, for a
      read takes a character or sets the flag. `reads`: what it reads, over which it is
      a fold (`whileNotEof_eq_foldlM`);
   3. `whileNotEof_lines`: on a text of lines that fit the buffer, the loop sees
      every line once, and once more nothing if the last line ended in a newline;
   4. `pieces n s`: a text cut after every `n` characters. `reads_line` and `reads_tail`: a
      line of any length is read in its pieces. -/
namespace Stdio

/-- What is left to read, and the end-of-file flag. -/
structure Stream where
  rest : List Char
  eof : Bool

/-- A stream that was just opened. -/
def Stream.ofText (text : List Char) : Stream := ⟨text, false⟩

/-- At most `n` characters up to a newline, the text behind them, and whether the text ran out. -/
def readLine : Nat → List Char → List Char × List Char × Bool
  | 0, s => ([], s, false)
  | _ + 1, [] => ([], [], true)
  | n + 1, c :: s =>
    if c = '\n' then ([c], s, false)
    else
      let r := readLine n s
      (c :: r.1, r.2)

/-- `fgets(buffer, num, f)`, `none` for a null pointer: then the buffer is unchanged. -/
def fgets (num : Nat) (f : Stream) : Option (List Char) × Stream :=
  let r := readLine (num - 1) f.rest
  (if r.1 = [] ∧ r.2.2 then none else some r.1, ⟨r.2.1, f.eof || r.2.2⟩)

/-! ## Reading -/

variable {n num : Nat}

/-- A read takes a character or runs out of text. -/
theorem readLine_progress (hn : n ≠ 0) (s : List Char) :
    (readLine n s).2.2 = true ∨ (readLine n s).2.1.length < s.length := by
  induction s generalizing n with
  | nil =>
    obtain ⟨n, rfl⟩ := Nat.exists_eq_succ_of_ne_zero hn
    exact .inl rfl
  | cons c s ih =>
    obtain ⟨n, rfl⟩ := Nat.exists_eq_succ_of_ne_zero hn
    simp only [readLine]
    split
    · exact .inr (by simp)
    · rcases Nat.eq_zero_or_pos n with rfl | hpos
      · exact .inr (by simp [readLine])
      · rcases ih (Nat.ne_of_gt hpos) with h | h
        · exact .inl h
        · exact .inr (Nat.lt_succ_of_lt h)

theorem readLine_line {l : List Char} (hl : '\n' ∉ l) (hlen : l.length < n) (s : List Char) :
    readLine n (l ++ '\n' :: s) = (l ++ ['\n'], s, false) := by
  induction l generalizing n with
  | nil =>
    obtain ⟨n, rfl⟩ := Nat.exists_eq_succ_of_ne_zero (Nat.ne_of_gt hlen)
    simp [readLine]
  | cons c l ih =>
    obtain ⟨n, rfl⟩ := Nat.exists_eq_succ_of_ne_zero (Nat.ne_of_gt (Nat.zero_lt_of_lt hlen))
    rw [List.mem_cons, not_or] at hl
    rw [List.cons_append, readLine, if_neg (Ne.symm hl.1), ih hl.2 (Nat.lt_of_succ_lt_succ hlen)]
    rfl

theorem readLine_tail {l : List Char} (hl : '\n' ∉ l) (hlen : l.length < n) :
    readLine n l = (l, [], true) := by
  induction l generalizing n with
  | nil =>
    obtain ⟨n, rfl⟩ := Nat.exists_eq_succ_of_ne_zero (Nat.ne_of_gt hlen)
    rfl
  | cons c l ih =>
    obtain ⟨n, rfl⟩ := Nat.exists_eq_succ_of_ne_zero (Nat.ne_of_gt (Nat.zero_lt_of_lt hlen))
    rw [List.mem_cons, not_or] at hl
    rw [readLine, if_neg (Ne.symm hl.1), ih hl.2 (Nat.lt_of_succ_lt_succ hlen)]

/-- A line fits the buffer with its newline. -/
def Fits (num : Nat) (l : List Char) : Prop := '\n' ∉ l ∧ l.length < num - 1

theorem fgets_line {l : List Char} (h : Fits num l) (s : List Char) :
    fgets num (.ofText (l ++ '\n' :: s)) = (some (l ++ ['\n']), .ofText s) := by
  simp [fgets, Stream.ofText, readLine_line h.1 h.2]

theorem fgets_tail {l : List Char} (h : Fits num l) :
    fgets num (.ofText l) = (if l = [] then none else some l, ⟨[], true⟩) := by
  simp [fgets, Stream.ofText, readLine_tail h.1 h.2]

/-! ## The loop -/

/-- What is left to do: a read makes it smaller. -/
def Stream.measure (f : Stream) : Nat := if f.eof then 0 else f.rest.length + 1

theorem fgets_measure (hnum : 2 ≤ num) {f : Stream} (hf : ¬ f.eof) :
    (fgets num f).2.measure < f.measure := by
  have hn : num - 1 ≠ 0 := by omega
  rw [Bool.not_eq_true] at hf
  rcases readLine_progress hn f.rest with h | h
  · simp [Stream.measure, fgets, hf, h]
  · simp only [Stream.measure, fgets, hf, Bool.false_or]
    split <;> simp [h]

variable {m : Type → Type} [Monad m] {σ : Type}

/-- `while (!feof(f)) body(fgets(buffer, num, f))`. -/
def whileNotEof (hnum : 2 ≤ num) (body : Option (List Char) → σ → m σ) (f : Stream) (s : σ) : m σ :=
  if _ : f.eof then pure s
  else body (fgets num f).1 s >>= whileNotEof hnum body (fgets num f).2
termination_by f.measure
decreasing_by next hf => exact fgets_measure hnum hf

variable {hnum : 2 ≤ num} {body : Option (List Char) → σ → m σ}

/-- What the loop reads, one after the other. -/
def reads (hnum : 2 ≤ num) (f : Stream) : List (Option (List Char)) :=
  if _ : f.eof then []
  else (fgets num f).1 :: reads hnum (fgets num f).2
termination_by f.measure
decreasing_by next hf => exact fgets_measure hnum hf

/-- **The loop is a fold over its reads.** -/
theorem whileNotEof_eq_foldlM (f : Stream) (s : σ) :
    whileNotEof hnum body f s = (reads hnum f).foldlM (fun s p => body p s) s := by
  induction f using reads.induct hnum generalizing s with
  | case1 f hf =>
    rw [whileNotEof, dif_pos hf, reads, dif_pos hf]
    rfl
  | case2 f hf ih =>
    rw [whileNotEof, dif_neg hf, reads, dif_neg hf, List.foldlM_cons]
    congr 1
    funext t
    exact ih t

theorem reads_end (text : List Char) : reads hnum ⟨text, true⟩ = [] := by
  rw [reads, dif_pos rfl]

theorem reads_ofText (text : List Char) :
    reads hnum (.ofText text) = (fgets num (.ofText text)).1 :: reads hnum (fgets num (.ofText text)).2 := by
  have hf : ¬ (Stream.ofText text).eof = true := Bool.false_ne_true
  rw [reads, dif_neg hf]

/-! ## Lines that fit -/

/-- Every line is read once, and at last the text behind the last newline, or nothing if there is none. -/
theorem reads_lines {lines : List (List Char)} {tail : List Char} (hlines : ∀ l ∈ lines, Fits num l)
    (htail : Fits num tail) : reads hnum (.ofText (lines.flatMap (· ++ ['\n']) ++ tail)) =
      lines.map (fun l => some (l ++ ['\n'])) ++ [if tail = [] then none else some tail] := by
  induction lines with
  | nil =>
    rw [List.flatMap_nil, List.nil_append, reads_ofText, fgets_tail htail, reads_end]
    rfl
  | cons l lines ih =>
    rw [List.forall_mem_cons] at hlines
    have htext : (l :: lines).flatMap (· ++ ['\n']) ++ tail =
        l ++ '\n' :: (lines.flatMap (· ++ ['\n']) ++ tail) := by
      simp
    rw [htext, reads_ofText, fgets_line hlines.1, ih hlines.2]
    rfl

/-- **What the loop sees** of a text of lines: every line once, and at last the text behind the last
    newline, or nothing if there is none. -/
theorem whileNotEof_lines [LawfulMonad m] {lines : List (List Char)} {tail : List Char}
    (hlines : ∀ l ∈ lines, Fits num l) (htail : Fits num tail) (s : σ) :
    whileNotEof hnum body (.ofText (lines.flatMap (· ++ ['\n']) ++ tail)) s =
      lines.foldlM (fun s l => body (some (l ++ ['\n'])) s) s >>=
        body (if tail = [] then none else some tail) := by
  rw [whileNotEof_eq_foldlM, reads_lines hlines htail, List.foldlM_append, List.foldlM_map]
  congr 1
  funext t
  rw [List.foldlM_cons]
  calc body (if tail = [] then none else some tail) t >>= (fun t => [].foldlM (fun s p => body p s) t)
      = body (if tail = [] then none else some tail) t >>= pure := rfl
    _ = body (if tail = [] then none else some tail) t := bind_pure _

/-! ## Lines of any length -/

/-- A text cut after every `n` characters. -/
def pieces (n : Nat) (s : List Char) : List (List Char) :=
  if _ : n = 0 ∨ s = [] then [] else s.take n :: pieces n (s.drop n)
termination_by s.length
decreasing_by
  next h =>
    have hpos := List.length_pos_iff.mpr fun h0 => h (.inr h0)
    rw [List.length_drop]
    omega

theorem pieces_nil (n : Nat) : pieces n [] = [] := by
  rw [pieces, dif_pos (.inr rfl)]

theorem pieces_of_le {s : List Char} (hs : s ≠ []) (hle : s.length ≤ n) : pieces n s = [s] := by
  have hpos := List.length_pos_iff.mpr hs
  rw [pieces, dif_neg (not_or.mpr ⟨by omega, hs⟩), List.take_of_length_le hle, List.drop_of_length_le hle, pieces_nil]

theorem pieces_of_ge {s : List Char} (hn : n ≠ 0) (hge : n ≤ s.length) :
    pieces n s = s.take n :: pieces n (s.drop n) := by
  have hs : s ≠ [] := by
    intro h0
    rw [h0, List.length_nil] at hge
    omega
  rw [pieces, dif_neg (not_or.mpr ⟨hn, hs⟩)]

/-- The first piece of a text that begins with a long one. -/
theorem pieces_append {l : List Char} (hn : n ≠ 0) (hle : n ≤ l.length) (back : List Char) :
    pieces n (l ++ back) = l.take n :: pieces n (l.drop n ++ back) := by
  have hge : n ≤ (l ++ back).length := by
    rw [List.length_append]
    exact Nat.le_add_right_of_le hle
  rw [pieces_of_ge hn hge, List.take_append_of_le_length hle, List.drop_append_of_le_length hle]

theorem pieces_snoc {l : List Char} (hlt : l.length < n) (c : Char) : pieces n (l ++ [c]) = [l ++ [c]] := by
  apply pieces_of_le (by simp)
  rw [List.length_append, List.length_singleton]
  exact hlt

theorem pieces_flatten (hn : n ≠ 0) (s : List Char) : (pieces n s).flatten = s := by
  induction s using pieces.induct n with
  | case1 s h =>
    rw [h.resolve_left hn, pieces_nil]
    rfl
  | case2 s h ih => rw [pieces, dif_neg h, List.flatten_cons, ih, List.take_append_drop]

/-- A read that the buffer cuts off in front of the end of the line. -/
theorem readLine_full {l : List Char} (hl : '\n' ∉ l) (hlen : n ≤ l.length) (rest : List Char) :
    readLine n (l ++ rest) = (l.take n, l.drop n ++ rest, false) := by
  induction l generalizing n with
  | nil =>
    obtain rfl : n = 0 := Nat.le_zero.mp hlen
    rfl
  | cons c l ih =>
    cases n with
    | zero => rfl
    | succ n =>
      rw [List.mem_cons, not_or] at hl
      rw [List.cons_append, readLine, if_neg (Ne.symm hl.1), ih hl.2 (Nat.le_of_succ_le_succ hlen)]
      rfl

theorem fgets_full {l : List Char} (hl : '\n' ∉ l) (hlen : num - 1 ≤ l.length) (rest : List Char) :
    fgets num (.ofText (l ++ rest)) = (some (l.take (num - 1)), .ofText (l.drop (num - 1) ++ rest)) := by
  simp [fgets, Stream.ofText, readLine_full hl hlen]

/-- **A line is read in its pieces**, the newline in the last one. -/
theorem reads_line {l : List Char} (hl : '\n' ∉ l) (s : List Char) :
    reads hnum (.ofText (l ++ '\n' :: s)) = (pieces (num - 1) (l ++ ['\n'])).map some ++ reads hnum (.ofText s) := by
  induction hm : l.length using Nat.strongRecOn generalizing l with
  | ind m ih =>
    rcases Nat.lt_or_ge l.length (num - 1) with hshort | hlong
    · rw [reads_ofText, fgets_line ⟨hl, hshort⟩, pieces_snoc hshort]
      rfl
    · have hdrop : '\n' ∉ l.drop (num - 1) := fun h => hl (List.mem_of_mem_drop h)
      have hless : (l.drop (num - 1)).length < m := by
        rw [List.length_drop]
        omega
      rw [reads_ofText, fgets_full hl hlong, ih _ hless hdrop rfl, pieces_append (by omega) hlong]
      rfl

/-- **The text behind the last newline** is read in its pieces too. A read of nothing follows if the last
    piece fills the buffer, or there is none. -/
theorem reads_tail {l : List Char} (hl : '\n' ∉ l) :
    reads hnum (.ofText l) = (pieces (num - 1) l).map some ++ if num - 1 ∣ l.length then [none] else [] := by
  induction hm : l.length using Nat.strongRecOn generalizing l with
  | ind m ih =>
    rcases Nat.lt_or_ge l.length (num - 1) with hshort | hlong
    · rw [reads_ofText, fgets_tail ⟨hl, hshort⟩, reads_end]
      by_cases hnil : l = []
      · subst hnil
        obtain rfl : 0 = m := hm
        rw [pieces_nil, if_pos rfl, if_pos (Nat.dvd_zero _)]
        rfl
      · have hpos := List.length_pos_iff.mpr hnil
        rw [pieces_of_le hnil (Nat.le_of_lt hshort), if_neg hnil, if_neg (Nat.not_dvd_of_pos_of_lt (by omega) (by omega))]
        rfl
    · have hdrop : '\n' ∉ l.drop (num - 1) := fun h => hl (List.mem_of_mem_drop h)
      have hless : (l.drop (num - 1)).length < m := by
        rw [List.length_drop]
        omega
      have hdvd : num - 1 ∣ (l.drop (num - 1)).length ↔ num - 1 ∣ m := by
        rw [List.length_drop, hm]
        exact Nat.dvd_sub_iff_left (by omega) (Nat.dvd_refl _)
      have hfull := fgets_full hl hlong []
      rw [List.append_nil, List.append_nil] at hfull
      rw [reads_ofText, hfull, ih _ hless hdrop rfl, pieces_of_ge (by omega) hlong]
      simp only [hdvd]
      rfl

end Stdio
