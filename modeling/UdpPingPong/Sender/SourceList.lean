import UdpPingPong.Lib.Stdio
import UdpPingPong.Text

/- The file of source addresses: `UDPSender::readSourceIPList`.

   Every read of the loop is trimmed, and added to the list unless it is empty or begins
   with '#'. A read is at most 1023 characters, the default of `gets`, so a longer line is
   read in pieces, and every piece is taken for a line.

   1. `readSourceIPList_eq`: the loop adds the entries of the pieces of all lines;
   2. `sources_line`: the pieces of a line have the entry of the line exactly when
      the line is `Undivided`;
   3. `source_list_iff`: the list gets the lines of the file exactly when all of them
      are. A line of up to 1023 characters always is (`undivided_of_le`). -/
namespace UdpPingPong

open Stdio CString

/-- What is added to the list. -/
def isSource (ip : CString) : Bool := ip ≠ [] && ip.head? ≠ some '#'

/-- The body of the loop. The exception at the end of the file leaves the list as it is. -/
def readSourceLine (line : Option (List Char)) (sourceIpList : List CString) :
    Except (List CString) (List CString) :=
  match line with
  | none => .error sourceIpList
  | some b =>
    let ip := trim (cString b)
    if isSource ip then .ok (sourceIpList ++ [ip]) else .ok sourceIpList

def readSourceIPList (content : List Char) (sourceIpList : List CString) : List CString :=
  match whileNotEof (show 2 ≤ 1024 by decide) readSourceLine (.ofText content) sourceIpList with
  | .ok l => l
  | .error l => l

/-- The entries of some lines. -/
def sources (lines : List CString) : List CString := (lines.map trim).filter isSource

/-- A line that can be read in pieces without harm: of a comment every piece is a comment or blank,
    and of another line one piece at most is not blank. -/
def Undivided (line : CString) : Prop :=
  if (trim line).head? = some '#' then ∀ p ∈ pieces 1023 line, isSource (trim p) = false
  else ((pieces 1023 line).filter fun p => trim p ≠ []).length ≤ 1

/-! ## Entries of pieces -/

theorem sources_append (ps qs : List CString) : sources (ps ++ qs) = sources ps ++ sources qs := by
  rw [sources, List.map_append, List.filter_append]
  rfl

theorem sources_cons (p : CString) (ps : List CString) : sources (p :: ps) = sources [p] ++ sources ps :=
  sources_append [p] ps

theorem sources_blank {p : CString} (h : trim p = []) (ps : List CString) : sources (p :: ps) = sources ps := by
  rw [sources, List.map_cons, h]
  rfl

theorem sources_entry {p : CString} (hne : trim p ≠ []) (hcomment : (trim p).head? ≠ some '#') (ps : List CString) :
    sources (p :: ps) = trim p :: sources ps := by
  have hsource : isSource (trim p) = true := by
    simp [isSource, hne, hcomment]
  rw [sources, List.map_cons, List.filter_cons_of_pos hsource]
  rfl

theorem sources_eq_nil_of_blank {ps : List CString} (h : ∀ p ∈ ps, trim p = []) : sources ps = [] := by
  induction ps with
  | nil => rfl
  | cons p ps ih =>
    rw [List.forall_mem_cons] at h
    rw [sources_blank h.1, ih h.2]

/-- **A text that is no comment, and its pieces**: they have its entry if only one of them is not blank,
    and else more entries. -/
theorem sources_pieces {ps : List CString} (hcomment : (trim ps.flatten).head? ≠ some '#') :
    (sources [ps.flatten]).length ≤ (sources ps).length ∧
      (sources ps = sources [ps.flatten] ↔ (ps.filter fun p => trim p ≠ []).length ≤ 1) := by
  induction ps with
  | nil => exact ⟨Nat.zero_le _, by simp [sources_blank (show trim [] = [] from rfl)]⟩
  | cons p ps ih =>
    rw [List.flatten_cons] at hcomment ⊢
    by_cases hp : trim p = []
    · -- a blank piece in front changes nothing
      have htrim : trim (p ++ ps.flatten) = trim ps.flatten := trim_blanks_append (trim_eq_nil_iff.mp hp) _
      have hsame : sources [p ++ ps.flatten] = sources [ps.flatten] := by
        rw [sources, List.map_singleton, htrim]
        rfl
      rw [htrim] at hcomment
      rw [hsame, sources_blank hp, List.filter_cons_of_neg (by simp [hp])]
      exact ih hcomment
    · -- the first piece that is not blank has an entry, which is that of the text if nothing follows
      have hhead := head?_trim_append hp ps.flatten
      have hne : trim (p ++ ps.flatten) ≠ [] := by
        intro hnil
        rw [trim_eq_nil_iff, List.forall_mem_append] at hnil
        exact hp (trim_eq_nil_iff.mpr hnil.1)
      rw [sources_entry hne hcomment, sources_entry hp (by rwa [← hhead]), List.filter_cons_of_pos (by simp [hp])]
      refine ⟨Nat.succ_le_succ (Nat.zero_le _), ?_⟩
      have hrest : (p :: ps.filter fun q => trim q ≠ []).length ≤ 1 ↔ trim ps.flatten = [] := by
        show _ + 1 ≤ 0 + 1 ↔ _
        rw [Nat.add_le_add_iff_right, Nat.le_zero, List.length_eq_zero_iff, List.filter_eq_nil_iff,
          trim_flatten_eq_nil_iff]
        simp
      refine Iff.trans ?_ hrest.symm
      refine ⟨?_, ?_⟩
      · intro h
        exact (trim_append_eq_iff hp _).mp (List.cons.inj h).1.symm
      · intro h
        rw [(trim_append_eq_iff hp _).mpr h, sources_eq_nil_of_blank (trim_flatten_eq_nil_iff.mp h)]
        rfl

theorem undivided_nil : Undivided [] := by
  rw [Undivided, pieces_nil]
  exact Nat.zero_le 1

/-- A line that is read at once. -/
theorem undivided_of_le {l : CString} (h : l.length ≤ 1023) : Undivided l := by
  by_cases hnil : l = []
  · rw [hnil]
    exact undivided_nil
  · rw [Undivided, pieces_of_le hnil h]
    split
    · next hcomment =>
      intro p hp
      rw [List.mem_singleton.mp hp]
      simp [isSource, hcomment]
    · exact List.length_filter_le _ [l]

/-- The pieces of a line have no fewer entries than the line, and the same exactly if it is undivided. -/
theorem sources_line (l : CString) : (sources [l]).length ≤ (sources (pieces 1023 l)).length ∧
    (sources (pieces 1023 l) = sources [l] ↔ Undivided l) := by
  have hflatten : (pieces 1023 l).flatten = l := pieces_flatten (by decide) l
  by_cases hcomment : (trim l).head? = some '#'
  · have hnone : sources [l] = [] := by
      simp [sources, isSource, hcomment]
    rw [Undivided, if_pos hcomment, hnone]
    refine ⟨Nat.zero_le _, ?_⟩
    simp [sources, List.filter_eq_nil_iff]
  · rw [← hflatten] at hcomment
    have h := sources_pieces hcomment
    rw [hflatten] at h hcomment
    rw [Undivided, if_neg hcomment]
    exact h

/-- The newline of a line has no entry. -/
theorem sources_pieces_newline {n : Nat} (hn : n ≠ 0) (l : CString) :
    sources (pieces n (l ++ ['\n'])) = sources (pieces n l) := by
  have hnewline : ∀ c ∈ ['\n'], isBlank c := by
    intro c hc
    rw [List.mem_singleton.mp hc]
    rfl
  induction hm : l.length using Nat.strong_induction_on generalizing l with
  | _ m ih =>
    rcases Nat.lt_or_ge l.length n with hshort | hlong
    · rw [pieces_snoc hshort]
      by_cases hnil : l = []
      · rw [hnil, pieces_nil]
        rfl
      · rw [pieces_of_le hnil hshort.le]
        simp only [sources, List.map_cons, List.map_nil, trim_append_blanks l hnewline]
    · have hless : (l.drop n).length < m := by
        rw [List.length_drop]
        omega
      calc sources (pieces n (l ++ ['\n']))
          = sources [l.take n] ++ sources (pieces n (l.drop n ++ ['\n'])) := by
            rw [pieces_append hn hlong, sources_cons]
        _ = sources [l.take n] ++ sources (pieces n (l.drop n)) := by rw [ih _ hless _ rfl]
        _ = sources (pieces n l) := by rw [pieces_of_ge hn hlong, ← sources_cons]

/-! ## The loop -/

/-- Reads that end in a piece, or in nothing. -/
theorem foldlM_readSourceLine {ps : List CString} (hzero : ∀ p ∈ ps, '\x00' ∉ p) (list : List CString) :
    (ps.map some).foldlM (fun list p => readSourceLine p list) list = .ok (list ++ sources ps) := by
  induction ps generalizing list with
  | nil =>
    show Except.ok list = .ok (list ++ [])
    rw [List.append_nil]
  | cons p ps ih =>
    rw [List.forall_mem_cons] at hzero
    have hstring : cString p = p := by
      rw [cString, List.takeWhile_eq_self_iff]
      intro c hc
      simp only [ne_eq, decide_eq_true_eq]
      intro h0
      rw [h0] at hc
      exact hzero.1 hc
    have hstep : readSourceLine (some p) list = .ok (list ++ sources [p]) := by
      simp only [readSourceLine, hstring, sources, List.map_singleton, List.filter_singleton]
      cases isSource (trim p) <;> simp
    rw [List.map_cons, List.foldlM_cons, hstep]
    have hrest := ih hzero.2 (list ++ sources [p])
    rw [List.append_assoc, ← sources_append] at hrest
    exact hrest

/-- **What is read of a file**: the pieces of its lines. -/
theorem reads_sources {content : List Char} (hzero : '\x00' ∉ content) : ∃ ps last,
    reads (show 2 ≤ 1024 by decide) (.ofText content) = ps.map some ++ last ∧ (last = [] ∨ last = [none]) ∧
      (∀ p ∈ ps, '\x00' ∉ p) ∧ sources ps = (content.splitOn '\n').flatMap fun l => sources (pieces 1023 l) := by
  have hmem : ∀ {s : CString}, '\x00' ∉ s → ∀ p ∈ pieces 1023 s, '\x00' ∉ p := by
    intro s hs p hp h0
    apply hs
    rw [← pieces_flatten (n := 1023) (by decide) s]
    exact List.mem_flatten.mpr ⟨p, hp, h0⟩
  induction hm : content.length using Nat.strong_induction_on generalizing content with
  | _ m ih =>
    by_cases hnl : '\n' ∈ content
    · obtain ⟨l, s, rfl, hl⟩ := List.eq_append_cons_of_mem hnl
      rw [List.mem_append, List.mem_cons, not_or, not_or] at hzero
      obtain ⟨ps, last, hreads, hlast, hps, hsources⟩ :=
        ih s.length (by rw [← hm, List.length_append, List.length_cons]; omega) hzero.2.2 rfl
      refine ⟨pieces 1023 (l ++ ['\n']) ++ ps, last, ?_, hlast, ?_, ?_⟩
      · rw [reads_line hl, hreads, List.map_append, List.append_assoc]
      · rw [List.forall_mem_append]
        refine ⟨hmem ?_, hps⟩
        rw [List.mem_append, not_or]
        exact ⟨hzero.1, by decide⟩
      · rw [sources_append, hsources, sources_pieces_newline (by decide),
          List.splitOn_append_cons_self_of_not_mem hl, List.flatMap_cons]
    · refine ⟨pieces 1023 content, _, reads_tail hnl, ?_, hmem hzero, ?_⟩
      · split
        · exact .inr rfl
        · exact .inl rfl
      · rw [List.splitOn_eq_singleton hnl, List.flatMap_singleton]

/-- **The loop adds the entries of the pieces of all lines.** -/
theorem readSourceIPList_eq {content : List Char} (hzero : '\x00' ∉ content) (list : List CString) :
    readSourceIPList content list = list ++ (content.splitOn '\n').flatMap fun l => sources (pieces 1023 l) := by
  obtain ⟨ps, last, hreads, hlast, hps, hsources⟩ := reads_sources hzero
  rw [readSourceIPList, whileNotEof_eq_foldlM, hreads, List.foldlM_append, foldlM_readSourceLine hps, ← hsources]
  rcases hlast with rfl | rfl
  · rfl
  · rfl

/-! ## The lines -/

/-- Two texts put together of parts of which those of one are never shorter. -/
theorem flatMap_eq_iff {α β : Type} {f g : α → List β} {l : List α} (h : ∀ x ∈ l, (g x).length ≤ (f x).length) :
    l.flatMap f = l.flatMap g ↔ ∀ x ∈ l, f x = g x := by
  have hlength : ∀ {l : List α}, (∀ x ∈ l, (g x).length ≤ (f x).length) →
      (l.flatMap g).length ≤ (l.flatMap f).length := by
    intro l
    induction l with
    | nil => simp
    | cons x l ih =>
      intro h
      rw [List.forall_mem_cons] at h
      rw [List.flatMap_cons, List.flatMap_cons, List.length_append, List.length_append]
      exact Nat.add_le_add h.1 (ih h.2)
  induction l with
  | nil => simp
  | cons x l ih =>
    rw [List.forall_mem_cons] at h
    have hrest : l.flatMap f = l.flatMap g ↔ ∀ x ∈ l, f x = g x := ih h.2
    rw [List.flatMap_cons, List.flatMap_cons, List.forall_mem_cons, ← hrest]
    refine ⟨?_, ?_⟩
    · intro heq
      have htotal := congrArg List.length heq
      rw [List.length_append, List.length_append] at htotal
      have hle := hlength h.2
      exact List.append_inj heq (by omega)
    · intro heq
      rw [heq.1, heq.2]

/-- **When the list gets the lines of the file**: every line is undivided. -/
theorem source_list_iff (content : List Char) (hzero : '\x00' ∉ content) (sourceIpList : List CString) :
    readSourceIPList content sourceIpList =
        sourceIpList ++ ((content.splitOn '\n').map trim).filter isSource ↔
      ∀ line ∈ content.splitOn '\n', Undivided line := by
  have hlines : sources (content.splitOn '\n') = (content.splitOn '\n').flatMap fun l => sources [l] := by
    induction content.splitOn '\n' with
    | nil => rfl
    | cons l ls ih =>
      rw [List.flatMap_cons, ← ih]
      exact sources_append [l] ls
  rw [readSourceIPList_eq hzero, List.append_cancel_left_eq]
  show _ = sources (content.splitOn '\n') ↔ _
  rw [hlines, flatMap_eq_iff fun l _ => (sources_line l).1]
  simp only [(sources_line _).2]

/-- A file with a comment, a blank line and an address, added to another one. -/
theorem source_list_iff_comment :
    ('\x00' ∉ "# office\n\n 10.0.0.2\n".toList ∧
      ∀ line ∈ "# office\n\n 10.0.0.2\n".toList.splitOn '\n', Undivided line) ∧
      readSourceIPList "# office\n\n 10.0.0.2\n".toList ["10.0.0.1".toList] =
        ["10.0.0.1".toList, "10.0.0.2".toList] := by
  have hzero : '\x00' ∉ "# office\n\n 10.0.0.2\n".toList := by decide
  have hsplit : "# office\n\n 10.0.0.2\n".toList.splitOn '\n' =
      ["# office".toList, [], " 10.0.0.2".toList, []] := by decide
  have hlines : ∀ line ∈ "# office\n\n 10.0.0.2\n".toList.splitOn '\n', Undivided line := by
    intro line hline
    rw [hsplit] at hline
    refine undivided_of_le (Nat.le_trans ?_ (show 9 ≤ 1023 by decide))
    fin_cases hline <;> decide
  have hlist := (source_list_iff _ hzero ["10.0.0.1".toList]).mpr hlines
  rw [hsplit] at hlist
  refine ⟨⟨hzero, hlines⟩, hlist.trans ?_⟩
  decide

/-- A comment of more than 1023 characters: what is read second looks like an address. -/
def longComment : CString := '#' :: List.replicate 1022 ' ' ++ "10.0.0.1".toList

theorem comment_becomes_source :
    ('\x00' ∉ longComment ∧ longComment.splitOn '\n' = [longComment] ∧ (trim longComment).head? = some '#') ∧
      ((longComment.splitOn '\n').map trim).filter isSource = [] ∧
      readSourceIPList longComment [] = ["10.0.0.1".toList] := by
  have hmem : ∀ {c}, c ∉ '#' :: ' ' :: "10.0.0.1".toList → c ∉ longComment := by
    intro c hc hlong
    rw [longComment, List.cons_append, List.mem_cons, List.mem_append, List.mem_replicate] at hlong
    rw [List.mem_cons, List.mem_cons, not_or, not_or] at hc
    rcases hlong with h | h | h
    · exact hc.1 h
    · exact hc.2.1 h.2
    · exact hc.2.2 h
  have hzero : '\x00' ∉ longComment := hmem (by decide)
  have hsplit : longComment.splitOn '\n' = [longComment] := List.splitOn_eq_singleton (hmem (by decide))
  have hfirst : trim ('#' :: List.replicate 1022 ' ') = ['#'] := by
    have hblanks : ∀ c ∈ List.replicate 1022 ' ', isBlank c := by
      intro c hc
      rw [List.eq_of_mem_replicate hc]
      rfl
    exact trim_append_blanks ['#'] hblanks
  have hcomment : (trim longComment).head? = some '#' := by
    rw [longComment, head?_trim_append (by rw [hfirst]; exact List.cons_ne_nil _ _), hfirst]
    rfl
  have hpieces : pieces 1023 longComment = ['#' :: List.replicate 1022 ' ', "10.0.0.1".toList] := by
    have hlength : ('#' :: List.replicate 1022 ' ').length = 1023 := by
      rw [List.length_cons, List.length_replicate]
    rw [longComment, pieces_append (by decide) hlength.ge, List.take_of_length_le hlength.le,
      List.drop_of_length_le hlength.le, List.nil_append, pieces_of_le (by decide) (by decide)]
  refine ⟨⟨hzero, hsplit, hcomment⟩, ?_, ?_⟩
  · rw [hsplit, List.map_singleton, List.filter_singleton]
    simp [isSource, hcomment]
  · calc readSourceIPList longComment []
        = sources (pieces 1023 longComment) := by
          rw [readSourceIPList_eq hzero, hsplit, List.flatMap_singleton, List.nil_append]
      _ = sources ['#' :: List.replicate 1022 ' '] ++ sources ["10.0.0.1".toList] := by
          rw [hpieces, sources_cons]
      _ = ["10.0.0.1".toList] := by
          rw [sources, List.map_singleton, hfirst]
          decide

end UdpPingPong
