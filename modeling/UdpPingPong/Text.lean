import UdpPingPong.Stat.Key

/- The text functions that read arguments and lines.

   1. `explodeAll` and `strTok`: a text cut at a delimiter, with the empty parts
      and without them; `explodeLoop_eq`: what the loop of `Array::explode` finds;
   2. `instr`, `trim`, `replace` for a single character;
   3. `strTok_delimiters` and `strTok_word_append`: delimiters in front are dropped,
      a word in front of a delimiter is the first part;
   4. `trim_solid`: what stands between blanks is kept; `trim_append_eq_iff`: a text put
      behind another is cut off again exactly if it is blank. -/
namespace UdpPingPong

/-- A text in front of its terminating 0. -/
def cString (b : List Char) : CString := b.takeWhile (· ≠ '\x00')

namespace CString

/-- `Array::explode`: the parts between the delimiters, empty ones too. An empty text has no part. -/
def explodeAll (delimiter : Char) (text : CString) : List CString :=
  if text = [] then [] else text.splitOn delimiter

/-- `StrTok`: the parts that are not empty. -/
def strTok (div : Char) (string : CString) : List CString := (explodeAll div string).filter (· ≠ [])

/-- `String::instr`: the first position, or -1. -/
def instr (needle : Char) (s : CString) : Int :=
  match s.findIdx? (· = needle) with
  | some p => p
  | none => -1

/-- A character that `trim` cuts off. -/
def isBlank (c : Char) : Bool := c.toNat = 13 || c.toNat = 10 || c.toNat = 32 || c = '\t'

/-- `String::trim`. -/
def trim (s : CString) : CString := (s.dropWhile isBlank).rdropWhile isBlank

/-- `String::replace` for texts of one character. -/
def replace (search replacement : Char) (s : CString) : CString :=
  s.map fun c => if c = search then replacement else c

/-! ## Cutting a text -/

variable {d : Char}

/-- The loop of `Array::explode` for a delimiter of one character: `strstr` finds the next one in what
    is left of the text, `count` parts have been found. -/
def explodeLoop (delimiter : Char) (limit : Nat) (skipemptylines : Bool) (count : Nat) (etext : CString) :
    List CString :=
  match h : etext.findIdx? (· = delimiter) with
  | some p =>
    if p = 0 ∧ skipemptylines then explodeLoop delimiter limit skipemptylines count (etext.drop 1)
    else if 0 < limit ∧ limit ≤ count then []
    else etext.take p :: explodeLoop delimiter limit skipemptylines (count + 1) (etext.drop (p + 1))
  | none =>
    if skipemptylines = false ∨ etext ≠ [] then
      if limit = 0 ∨ count + 1 ≤ limit then [etext] else []
    else []
termination_by etext.length
decreasing_by
  all_goals
    obtain ⟨hp, -⟩ := List.findIdx?_eq_some_iff_getElem.mp h
    rw [List.length_drop]
    omega

/-- `Array::explode` with all its arguments. -/
def arrayExplode (delimiter : Char) (limit : Nat) (skipemptylines : Bool) (text : CString) : List CString :=
  if text = [] then [] else explodeLoop delimiter limit skipemptylines 0 text

/-- The first delimiter cuts the text. -/
theorem splitOn_of_findIdx? {s : CString} {p : Nat} (h : s.findIdx? (· = d) = some p) :
    s.splitOn d = s.take p :: (s.drop (p + 1)).splitOn d := by
  obtain ⟨hp, hd, hbefore⟩ := List.findIdx?_eq_some_iff_getElem.mp h
  have hcut : s = s.take p ++ d :: s.drop (p + 1) := by
    rw [← of_decide_eq_true hd, List.getElem_cons_drop, List.take_append_drop]
  have hnot : d ∉ s.take p := by
    intro hmem
    obtain ⟨i, hi, hget⟩ := List.mem_iff_getElem.mp hmem
    rw [List.getElem_take] at hget
    rw [List.length_take] at hi
    exact hbefore i (by omega) (decide_eq_true hget)
  conv_lhs => rw [hcut]
  exact List.splitOn_append_cons_self_of_not_mem hnot _

theorem splitOn_of_findIdx?_none {s : CString} (h : s.findIdx? (· = d) = none) : s.splitOn d = [s] := by
  apply List.splitOn_eq_singleton
  intro hmem
  exact absurd (List.findIdx?_eq_none_iff.mp h d hmem) (by simp)

/-- **The loop of `Array::explode`** without a limit, with the empty parts and without them. -/
theorem explodeLoop_eq (d : Char) (skipemptylines : Bool) (count : Nat) (s : CString) :
    explodeLoop d 0 skipemptylines count s =
      if skipemptylines then (s.splitOn d).filter (· ≠ []) else s.splitOn d := by
  induction hn : s.length using Nat.strong_induction_on generalizing count s with
  | _ n ih =>
    rw [explodeLoop]
    split
    · next p hp =>
      have hlt : p < s.length := (List.findIdx?_eq_some_iff_getElem.mp hp).1
      have hdrop : (s.drop (p + 1)).length < n := by
        rw [List.length_drop]
        omega
      rw [splitOn_of_findIdx? hp]
      split
      · next h =>
        obtain ⟨rfl, hskip⟩ := h
        rw [ih _ hdrop count _ rfl]
        simp [hskip]
      · next h =>
        rw [if_neg (by omega), ih _ hdrop (count + 1) _ rfl]
        cases skipemptylines with
        | true =>
          have htake : s.take p ≠ [] := by
            intro h0
            rcases List.take_eq_nil_iff.mp h0 with rfl | rfl
            · exact h ⟨rfl, rfl⟩
            · exact absurd hlt (Nat.not_lt_zero p)
          simp [htake]
        | false => rfl
    · next hnone =>
      rw [splitOn_of_findIdx?_none hnone]
      cases skipemptylines with
      | true => by_cases hs : s = [] <;> simp [hs]
      | false => simp

/-- The parts between delimiters. -/
theorem length_splitOn (d : Char) (s : CString) : (s.splitOn d).length = s.count d + 1 := by
  induction s with
  | nil => simp
  | cons c s ih =>
    rw [List.splitOn_cons_eq_if_modifyHead]
    split
    · next h => simp [ih, List.count_cons, h]
    · next h => simp [ih, List.count_cons, h]

theorem not_mem_of_mem_splitOn {d : Char} {s : CString} : ∀ r ∈ s.splitOn d, d ∉ r := by
  induction s with
  | nil => simp
  | cons c s ih =>
    rw [List.splitOn_cons_eq_if_modifyHead]
    split
    · simpa using ih
    · next hc =>
      -- the first part gets one character more, which is no delimiter
      obtain ⟨x, xs, hparts⟩ := List.exists_cons_of_ne_nil (List.splitOn_ne_nil d s)
      rw [hparts, List.forall_mem_cons] at ih
      rw [hparts, List.modifyHead_cons, List.forall_mem_cons]
      refine ⟨?_, ih.2⟩
      intro hmem
      rcases List.mem_cons.mp hmem with h | h
      · exact hc (by simp [h])
      · exact ih.1 h

theorem arrayExplode_eq (d : Char) (s : CString) : arrayExplode d 0 false s = explodeAll d s := by
  unfold arrayExplode explodeAll
  rw [explodeLoop_eq]
  rfl


theorem strTok_eq (s : CString) : strTok d s = (s.splitOn d).filter (· ≠ []) := by
  unfold strTok explodeAll
  split
  · next h =>
    rw [h, List.splitOn_nil]
    rfl
  · rfl

/-- A delimiter separates. -/
theorem strTok_append (x y : CString) : strTok d (x ++ d :: y) = strTok d x ++ strTok d y := by
  rw [strTok_eq, strTok_eq, strTok_eq, List.splitOn_append_cons_self, List.filter_append]

theorem strTok_delimiter (s : CString) : strTok d (d :: s) = strTok d s := strTok_append [] s

/-- Delimiters in front are dropped. -/
theorem strTok_delimiters {gap : CString} (h : ∀ c ∈ gap, c = d) (s : CString) :
    strTok d (gap ++ s) = strTok d s := by
  induction gap with
  | nil => rfl
  | cons c gap ih =>
    rw [List.forall_mem_cons] at h
    rw [List.cons_append, h.1, strTok_delimiter]
    exact ih h.2

theorem strTok_word {w : CString} (hne : w ≠ []) (hw : d ∉ w) : strTok d w = [w] := by
  rw [strTok_eq, List.splitOn_eq_singleton hw]
  exact List.filter_eq_self.mpr (by simpa using hne)

/-- A word, delimiters, and a text behind them. -/
theorem strTok_word_append {w gap : CString} (hne : w ≠ []) (hw : d ∉ w) (hgap : gap ≠ [])
    (h : ∀ c ∈ gap, c = d) (s : CString) : strTok d (w ++ (gap ++ s)) = w :: strTok d s := by
  obtain ⟨c, gap, rfl⟩ := List.exists_cons_of_ne_nil hgap
  rw [List.forall_mem_cons] at h
  rw [List.cons_append, h.1, strTok_append, strTok_word hne hw, strTok_delimiters h.2]
  rfl

/-- What stands in parts that were joined. -/
theorem mem_intercalate {ps : List CString} {c : Char} (h : c ∈ [d].intercalate ps) : c = d ∨ ∃ x ∈ ps, c ∈ x := by
  induction ps with
  | nil => exact absurd h List.not_mem_nil
  | cons x xs ih =>
    cases xs with
    | nil => exact Or.inr ⟨x, List.mem_cons_self, by simpa using h⟩
    | cons y ys =>
      rw [List.intercalate_cons_cons, List.append_assoc, List.mem_append] at h
      rcases h with hx | hrest
      · exact Or.inr ⟨x, List.mem_cons_self, hx⟩
      · rcases List.mem_cons.mp hrest with hd | hys
        · exact Or.inl hd
        · rcases ih hys with hd | hmem
          · exact Or.inl hd
          · obtain ⟨z, hz, hc⟩ := hmem
            exact Or.inr ⟨z, List.mem_cons_of_mem x hz, hc⟩

/-! ## Trimming and searching -/

theorem trim_sublist (s : CString) : (trim s).Sublist s :=
  (List.rdropWhile_prefix isBlank _).sublist.trans (List.dropWhile_suffix isBlank).sublist

theorem rdropWhile_append {p : Char → Bool} {s back : CString} (hback : ∀ c ∈ back, p c)
    (hlast : ∀ c ∈ s.getLast?, ¬ p c) : (s ++ back).rdropWhile p = s := by
  induction back using List.reverseRecOn with
  | nil =>
    rw [List.append_nil, List.rdropWhile_eq_self_iff]
    intro h
    exact hlast _ (List.getLast?_eq_getLast_of_ne_nil h)
  | append_singleton back c ih =>
    rw [List.forall_mem_append] at hback
    rw [← List.append_assoc, List.rdropWhile_concat_pos _ _ _ (hback.2 c (List.mem_singleton_self c))]
    exact ih hback.1

/-- A text that starts and ends with something other than a blank. -/
structure Solid (s : CString) : Prop where
  ne : s ≠ []
  first : ∀ c ∈ s.head?, ¬ isBlank c
  last : ∀ c ∈ s.getLast?, ¬ isBlank c

/-- Blanks are cut off on both sides. -/
theorem trim_solid {front core back : CString} (h : Solid core) (hfront : ∀ c ∈ front, isBlank c)
    (hback : ∀ c ∈ back, isBlank c) : trim (front ++ core ++ back) = core := by
  obtain ⟨c, rest, rfl⟩ := List.exists_cons_of_ne_nil h.ne
  calc trim (front ++ (c :: rest) ++ back)
      = ((c :: (rest ++ back)).dropWhile isBlank).rdropWhile isBlank := by
        rw [trim, List.append_assoc, List.dropWhile_append_of_pos hfront, List.cons_append]
    _ = (c :: rest ++ back).rdropWhile isBlank := by
        rw [List.dropWhile_cons_of_neg (h.first c rfl), List.cons_append]
    _ = c :: rest := rdropWhile_append hback h.last

theorem Solid.trim_eq {s : CString} (h : Solid s) : trim s = s := by
  have := @trim_solid [] s [] h (by simp) (by simp)
  rwa [List.nil_append, List.append_nil] at this

theorem trim_nil_or_solid (s : CString) : trim s = [] ∨ Solid (trim s) := by
  by_cases hne : trim s = []
  · exact .inl hne
  · refine .inr ⟨hne, ?_, ?_⟩
    · intro c hc
      obtain ⟨t, ht⟩ := List.rdropWhile_prefix isBlank (s.dropWhile isBlank)
      have hhead : (s.dropWhile isBlank).head? = some c := by
        have hc' : (List.rdropWhile isBlank (s.dropWhile isBlank)).head? = some c := hc
        rw [← ht, List.head?_append, hc', Option.some_or]
      have hfirst := List.head?_dropWhile_not isBlank s
      rw [hhead] at hfirst
      exact Bool.eq_false_iff.mp hfirst
    · intro c hc
      rw [Option.mem_def, List.getLast?_eq_some_getLast hne] at hc
      obtain rfl := Option.some.inj hc
      exact List.rdropWhile_last_not _ _ hne

theorem trim_trim (s : CString) : trim (trim s) = trim s := by
  rcases trim_nil_or_solid s with h | h
  · rw [h]
    rfl
  · exact h.trim_eq

/-- What `trim` cuts off are blanks. -/
theorem trim_split (s : CString) :
    ∃ front back, s = front ++ trim s ++ back ∧ (∀ c ∈ front, isBlank c) ∧ ∀ c ∈ back, isBlank c := by
  refine ⟨s.takeWhile isBlank, (s.dropWhile isBlank).rtakeWhile isBlank, ?_, ?_, ?_⟩
  · rw [trim, List.append_assoc, List.rdropWhile_append_rtakeWhile, List.takeWhile_append_dropWhile]
  · intro c hc
    exact List.mem_takeWhile_imp hc
  · intro c hc
    exact List.mem_rtakeWhile_imp hc

theorem trim_eq_nil_iff {s : CString} : trim s = [] ↔ ∀ c ∈ s, isBlank c := by
  refine ⟨?_, ?_⟩
  · intro h
    obtain ⟨front, back, hs, hfront, hback⟩ := trim_split s
    rw [h, List.append_nil] at hs
    rw [hs, List.forall_mem_append]
    exact ⟨hfront, hback⟩
  · intro h
    rw [trim, List.dropWhile_eq_nil_iff.mpr h, List.rdropWhile_nil]

/-- Blanks behind a text change nothing. -/
theorem trim_append_blanks (s : CString) {back : CString} (hback : ∀ c ∈ back, isBlank c) :
    trim (s ++ back) = trim s := by
  rcases trim_nil_or_solid s with hnil | hsolid
  · rw [hnil, trim_eq_nil_iff, List.forall_mem_append]
    exact ⟨trim_eq_nil_iff.mp hnil, hback⟩
  · obtain ⟨front, back', hs, hfront, hback'⟩ := trim_split s
    conv_lhs => rw [hs, List.append_assoc]
    apply trim_solid hsolid hfront
    rw [List.forall_mem_append]
    exact ⟨hback', hback⟩

/-- Blanks in front of a text change nothing. -/
theorem trim_blanks_append {front : CString} (hfront : ∀ c ∈ front, isBlank c) (s : CString) :
    trim (front ++ s) = trim s := by
  rw [trim, List.dropWhile_append_of_pos hfront]
  rfl

/-- A text behind one that is not blank is trimmed at its end only. -/
theorem trim_append {s : CString} (h : trim s ≠ []) (t : CString) :
    ∃ back, (∀ c ∈ back, isBlank c) ∧ trim (s ++ t) = (trim s ++ (back ++ t)).rdropWhile isBlank := by
  obtain ⟨front, back, hs, hfront, hback⟩ := trim_split s
  have hsolid : Solid (trim s) := (trim_nil_or_solid s).resolve_left h
  refine ⟨back, hback, ?_⟩
  obtain ⟨c, rest, hc⟩ := List.exists_cons_of_ne_nil h
  have hfirst : ¬ isBlank c := hsolid.first c (by rw [hc]; rfl)
  rw [hc] at hs ⊢
  calc trim (s ++ t)
      = trim (front ++ (c :: rest ++ (back ++ t))) := by rw [hs, List.append_assoc, List.append_assoc]
    _ = trim (c :: rest ++ (back ++ t)) := trim_blanks_append hfront _
    _ = (c :: rest ++ (back ++ t)).rdropWhile isBlank := by
        rw [trim, List.cons_append, List.dropWhile_cons_of_neg hfirst]

/-- The first character that is not blank stays the first. -/
theorem head?_trim_append {s : CString} (h : trim s ≠ []) (t : CString) :
    (trim (s ++ t)).head? = (trim s).head? := by
  obtain ⟨back, -, htrim⟩ := trim_append h t
  obtain ⟨c, rest, hc⟩ := List.exists_cons_of_ne_nil h
  have hsolid : Solid (trim s) := (trim_nil_or_solid s).resolve_left h
  have hne : trim (s ++ t) ≠ [] := by
    intro hnil
    rw [htrim, List.rdropWhile_eq_nil_iff, List.forall_mem_append, hc, List.forall_mem_cons] at hnil
    exact hsolid.first c (by rw [hc]; rfl) hnil.1.1
  obtain ⟨u, hu⟩ := List.rdropWhile_prefix isBlank (l := trim s ++ (back ++ t))
  rw [← htrim] at hu
  have hhead := congrArg List.head? hu
  obtain ⟨d, tail, hd⟩ := List.exists_cons_of_ne_nil hne
  rw [hd, hc] at hhead
  rw [hd, hc]
  exact hhead

/-- Nothing is added to a text exactly by blanks. -/
theorem trim_append_eq_iff {s : CString} (h : trim s ≠ []) (t : CString) :
    trim (s ++ t) = trim s ↔ trim t = [] := by
  refine ⟨?_, ?_⟩
  · intro heq
    obtain ⟨back, -, htrim⟩ := trim_append h t
    have hsplit : List.rdropWhile isBlank (trim s ++ (back ++ t)) ++ List.rtakeWhile isBlank (trim s ++ (back ++ t)) =
        trim s ++ (back ++ t) := List.rdropWhile_append_rtakeWhile
    rw [← htrim, heq, List.append_cancel_left_eq] at hsplit
    rw [trim_eq_nil_iff]
    intro c hc
    apply List.mem_rtakeWhile_imp (l := trim s ++ (back ++ t))
    rw [hsplit]
    exact List.mem_append_right back hc
  · intro ht
    exact trim_append_blanks s (trim_eq_nil_iff.mp ht)

theorem trim_flatten_eq_nil_iff {ps : List CString} : trim ps.flatten = [] ↔ ∀ p ∈ ps, trim p = [] := by
  simp only [trim_eq_nil_iff, List.mem_flatten]
  refine ⟨?_, ?_⟩
  · intro h p hp c hc
    exact h c ⟨p, hp, hc⟩
  · intro h c hc
    obtain ⟨p, hp, hmem⟩ := hc
    exact h p hp c hmem

theorem instr_of_not_mem {c : Char} {s : CString} (h : c ∉ s) : instr c s = -1 := by
  have hnone : s.findIdx? (· = c) = none := by
    rw [List.findIdx?_eq_none_iff]
    intro x hx
    simp only [decide_eq_false_iff_not]
    intro h0
    subst h0
    exact h hx
  rw [instr, hnone]

theorem instr_append {c : Char} {s : CString} (h : c ∉ s) (t : CString) : instr c (s ++ c :: t) = s.length := by
  have hsome : (s ++ c :: t).findIdx? (· = c) = some s.length := by
    induction s with
    | nil => rw [List.nil_append, List.findIdx?_cons, decide_eq_true rfl, if_pos rfl, List.length_nil]
    | cons x s ih =>
      rw [List.mem_cons, not_or] at h
      rw [List.cons_append, List.findIdx?_cons, ih h.2]
      simp [Ne.symm h.1]
  rw [instr, hsome]

theorem replace_append (a b : Char) (s t : CString) : replace a b (s ++ t) = replace a b s ++ replace a b t :=
  List.map_append

theorem replace_of_not_mem {a b : Char} {s : CString} (h : a ∉ s) : replace a b s = s := by
  have hid : replace a b s = s.map id := by
    apply List.map_congr_left
    intro c hc
    apply if_neg
    intro h0
    subst h0
    exact h hc
  rw [hid, List.map_id]

theorem not_mem_replace {a b : Char} (h : b ≠ a) (s : CString) : a ∉ replace a b s := by
  intro hmem
  obtain ⟨c, -, hc⟩ := List.mem_map.mp hmem
  split at hc
  · exact h hc
  · next hne => exact hne hc

/-- Replacing blanks changes neither end of a solid text. -/
theorem Solid.replace {a b : Char} {s : CString} (ha : isBlank a) (h : Solid s) : Solid (replace a b s) := by
  have hkeep : ∀ c, ¬ isBlank c → (if c = a then b else c) = c := by
    intro c hc
    apply if_neg
    intro h0
    subst h0
    exact hc ha
  refine ⟨?_, ?_, ?_⟩
  · exact fun hnil => h.ne (List.map_eq_nil_iff.mp hnil)
  · intro c hc
    rw [CString.replace, List.head?_map, Option.mem_def, Option.map_eq_some_iff] at hc
    obtain ⟨x, hx, rfl⟩ := hc
    rw [hkeep x (h.first x hx)]
    exact h.first x hx
  · intro c hc
    rw [CString.replace, List.getLast?_map, Option.mem_def, Option.map_eq_some_iff] at hc
    obtain ⟨x, hx, rfl⟩ := hc
    rw [hkeep x (h.last x hx)]
    exact h.last x hx

end CString

end UdpPingPong
