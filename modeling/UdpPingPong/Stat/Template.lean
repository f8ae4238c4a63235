import UdpPingPong.Stat.Import
import UdpPingPong.Stat.MapArray
import UdpPingPong.Text

/- The array as text: `AssocArray::toTemplate` and `AssocArray::fromTemplate`.

   The export writes a line for every line of every string, with the path of its key in
   front. The import appends the lines of one key to each other.

   1. `toTemplate`, `fromTemplate` and `append`, for delimiters of one character;
   2. `texts`: the strings of an array with their paths. An empty string has no line, so
      `pruned` is what the text keeps of an array;
   3. `template_adds`: a text read into an array where its keys are not in use yet;
   4. `template_round_trip`: a text read into an empty array. -/
namespace UdpPingPong

open CString

namespace AssocArray

/-- The node that `findInternal` finds along a path gets another value. -/
def setNode : List CString → Variant → AssocArray → AssocArray
  | [], _, a => a
  | firstkey :: rest, var, a =>
    let value := if rest = [] then var else .ofArray (setNode rest var (a.sub firstkey))
    { a with tree := KeyList.replace ArrayKey.compare firstkey value a.tree }

/-- `AssocArray::append`. -/
def append (key value concat : CString) (a : AssocArray) : Except ArrayException AssocArray := do
  match ← findInternal key a with
  | none => setString key value a
  | some (.string s) => return setNode key.explode (.string (s ++ concat ++ value)) a
  | some _ => throw (.typeConversion [])

mutual

/-- `toTemplate` for one value, `name` is what stands in front of the split character. -/
def templateOfValue (linedelimiter splitchar : Char) (name : CString) : Variant → CString
  | .string value =>
    (arrayExplode '\n' 0 false value).flatMap fun tok => name ++ splitchar :: tok ++ [linedelimiter]
  | .assocArray _ tree =>
    templateOfTree linedelimiter splitchar (if name ≠ [] then name ++ ['/'] else []) tree

/-- The loop of `toTemplate`. -/
def templateOfTree (linedelimiter splitchar : Char) (key : CString) : List (CString × Variant) → CString
  | [] => []
  | (first, p) :: tree =>
    templateOfValue linedelimiter splitchar (key ++ first) p ++
      templateOfTree linedelimiter splitchar key tree

end

/-- `toTemplate`: the text is put behind `s`, every key gets `name` in front. -/
def toTemplate (linedelimiter splitchar : Char) (s name : CString) (a : AssocArray) : CString :=
  s ++ templateOfValue linedelimiter splitchar name (.ofArray a)

/-- One line of `fromTemplate`, with the number of lines read so far. -/
def readLine (splitchar : Char) (concat : CString) (dotrim : Bool) (a : AssocArray) (rows : Nat)
    (line : CString) : Except ArrayException (AssocArray × Nat) :=
  let row := trim line
  if row ≠ [] ∧ row.head? ≠ some '#' then
    let p := instr splitchar line
    if 0 < p then do
      let key := trim (line.take p.toNat)
      let value := line.drop (p.toNat + 1)
      let value := if dotrim then trim value else value
      let a ← if concat ≠ [] then append key value concat a else setString key value a
      return (a, rows + 1)
    else return (a, rows)
  else return (a, rows)

def fromTemplate (linedelimiter splitchar : Char) (concat : CString) (dotrim : Bool) (templ : CString)
    (a : AssocArray) : Except ArrayException (AssocArray × Nat) :=
  (arrayExplode linedelimiter 0 false templ).foldlM (fun r line => readLine splitchar concat dotrim r.1 r.2 line) (a, 0)

/-! ## What a text keeps -/

mutual

/-- The strings of a value that have a text, with their paths. -/
def texts : Variant → List (List CString × CString)
  | .string value => if value = [] then [] else [([], value)]
  | .assocArray _ tree => textsOfTree tree

def textsOfTree : List (CString × Variant) → List (List CString × CString)
  | [] => []
  | (key, a) :: tree => (texts a).map (fun w => (key :: w.1, w.2)) ++ textsOfTree tree

end

mutual

/-- A value without the entries that have no text, and with its counters counted again. -/
def pruned : Variant → Variant
  | .string value => .string value
  | .assocArray _ tree => .assocArray (countKeys (prunedTree tree) 0) (prunedTree tree)

def prunedTree : List (CString × Variant) → List (CString × Variant)
  | [] => []
  | (key, a) :: tree => if texts a = [] then prunedTree tree else (key, pruned a) :: prunedTree tree

end

/-- A key that can be read back from a line: nothing of it is cut off, and it ends neither the line
    nor the name. -/
structure LegibleKey (k : CString) : Prop where
  solid : Solid k
  newline : '\n' ∉ k
  equals : '=' ∉ k

/-- Legible keys on every level. -/
inductive Legible : Variant → Prop
  | string (s : CString) : Legible (.string s)
  | assocArray (m : UInt64) (t : List (CString × Variant)) (keys : ∀ e ∈ t, LegibleKey e.1)
      (below : ∀ e ∈ t, Legible e.2) : Legible (.assocArray m t)

/-- A path whose lines are no comments. -/
structure LegiblePath (q : List CString) : Prop where
  plain : PlainPath q
  keys : ∀ k ∈ q, LegibleKey k
  mark : ∀ k ∈ q.head?, k.head? ≠ some '#'

/-! ## Names -/

section
variable {q : List CString} {k : CString}

theorem implode_ne_nil (hne : q ≠ []) (h : ∀ k ∈ q, k ≠ []) : implode q ≠ [] := by
  obtain ⟨k, q, rfl⟩ := List.exists_cons_of_ne_nil hne
  have hk := h k List.mem_cons_self
  cases q with
  | nil => simpa [implode] using hk
  | cons l q => simp [implode, hk]

theorem implode_cons (hne : q ≠ []) : implode (k :: q) = k ++ '/' :: implode q := by
  rw [implode, List.intercalate_cons_of_ne_nil hne, List.append_assoc]
  rfl

/-- The key that `toTemplate` puts in front goes on with the next key. -/
theorem implode_concat (h : ∀ k ∈ q, k ≠ []) :
    (if implode q ≠ [] then implode q ++ ['/'] else []) ++ k = implode (q ++ [k]) := by
  induction q with
  | nil => simp [implode]
  | cons l q ih =>
    have hne := implode_ne_nil (List.cons_ne_nil l q) h
    rw [List.forall_mem_cons] at h
    rw [if_pos hne]
    by_cases hq : q = []
    · subst hq
      simp [implode]
    · have hrest := ih h.2
      rw [if_pos (implode_ne_nil hq h.2)] at hrest
      rw [implode_cons hq, List.cons_append, implode_cons (by simp), ← hrest]
      simp

theorem mem_implode {c : Char} (h : c ∈ implode q) : c = '/' ∨ ∃ k ∈ q, c ∈ k := mem_intercalate h

theorem solid_implode (hne : q ≠ []) (h : ∀ k ∈ q, LegibleKey k) : Solid (implode q) := by
  induction q with
  | nil => exact absurd rfl hne
  | cons k q ih =>
    rw [List.forall_mem_cons] at h
    by_cases hq : q = []
    · subst hq
      simpa [implode] using h.1.solid
    · have hrest := ih hq h.2
      obtain ⟨c, l, hc⟩ := List.exists_cons_of_ne_nil h.1.solid.ne
      rw [implode_cons hq]
      refine ⟨by simp, ?_, ?_⟩
      · intro d hd
        apply h.1.solid.first d
        rwa [hc] at hd ⊢
      · intro d hd
        apply hrest.last d
        have hlast : (k ++ '/' :: implode q).getLast? = (implode q).getLast? := by
          rw [List.getLast?_append, List.getLast?_cons, List.getLast?_eq_some_getLast hrest.ne]
          rfl
        rwa [hlast] at hd

/-- The name of a legible path. -/
theorem LegiblePath.explode (h : LegiblePath q) : (implode q).explode = q :=
  explode_implode h.plain.1 fun k hk => (h.plain.2 k hk).1

theorem LegiblePath.solid (h : LegiblePath q) : Solid (implode q) := solid_implode h.plain.1 h.keys

theorem LegiblePath.newline (h : LegiblePath q) : '\n' ∉ implode q := by
  intro hmem
  rcases mem_implode hmem with hc | ⟨k, hk, hc⟩
  · exact absurd hc (by decide)
  · exact (h.keys k hk).newline hc

theorem LegiblePath.equals (h : LegiblePath q) : '=' ∉ implode q := by
  intro hmem
  rcases mem_implode hmem with hc | ⟨k, hk, hc⟩
  · exact absurd hc (by decide)
  · exact (h.keys k hk).equals hc

theorem LegiblePath.head (h : LegiblePath q) : (implode q).head? ≠ some '#' := by
  obtain ⟨k, rest, rfl⟩ := List.exists_cons_of_ne_nil h.plain.1
  obtain ⟨c, l, hc⟩ := List.exists_cons_of_ne_nil (h.keys k List.mem_cons_self).solid.ne
  have hmark := h.mark k rfl
  by_cases hrest : rest = []
  · subst hrest
    simpa [implode] using hmark
  · rw [hc] at hmark
    rw [implode_cons hrest, hc]
    exact hmark

end

/-! ## One line -/

section
variable {q : List CString} {key value concat : CString} {v w : Variant} {a : AssocArray}

theorem setNode_createPath (hq : ∀ k ∈ q, Plain k) : setNode q w (createPath q v a) = createPath q w a := by
  induction q generalizing a with
  | nil => rfl
  | cons k q ih =>
    rw [List.forall_mem_cons] at hq
    have hvalue : (if q = [] then w else .ofArray (setNode q w ((createPath (k :: q) v a).sub k))) =
        if q = [] then w else .ofArray (createPath q w (a.sub k)) := by
      split
      · rfl
      · next hr => rw [sub_createPath_below hq.1 hr rfl, ih hq.2]
    simp only [setNode, hvalue]
    simp only [createPath, nextKey_of_plain hq.1, KeyList.replace_put ArrayKey.compare_eq_iff]

/-- A new key gets the value. -/
theorem append_new (hne : key.explode ≠ []) (h : findPath key.explode a = none) :
    append key value concat a = .ok (createPath key.explode (.string value) a) := by
  rw [append, findInternal, if_neg hne, h]
  exact createTree_eq hne (.string value) a

/-- A key that has just been written gets the value behind what it has. -/
theorem append_written {s : CString} (h : PlainPath key.explode) :
    append key value concat (createPath key.explode (.string s) a) =
      .ok (createPath key.explode (.string (s ++ concat ++ value)) a) := by
  have hfound := findPath_createPath_same h.plain h.1 (.string s) a
  rw [append, findInternal_eq hfound]
  show Except.ok (setNode key.explode _ (createPath key.explode _ a)) = _
  rw [setNode_createPath h.plain]

/-- The line of a legible path is appended to what is there. -/
theorem readLine_name (h : LegiblePath q) (hconcat : concat ≠ []) (rows : Nat) (tok : CString) :
    readLine '=' concat false a rows (implode q ++ '=' :: tok) = do
      let b ← append (implode q) tok concat a
      return (b, rows + 1) := by
  have hsolid := h.solid
  have htrim : trim (implode q) ≠ [] := by
    rw [hsolid.trim_eq]
    exact hsolid.ne
  have hhead := head?_trim_append htrim ('=' :: tok)
  rw [hsolid.trim_eq] at hhead
  have hrow : trim (implode q ++ '=' :: tok) ≠ [] ∧ (trim (implode q ++ '=' :: tok)).head? ≠ some '#' := by
    rw [hhead]
    refine ⟨?_, h.head⟩
    intro hnil
    rw [hnil] at hhead
    exact hsolid.ne (List.head?_eq_none_iff.mp hhead.symm)
  have hpos : 0 < ((implode q).length : Int) := by
    have := List.length_pos_iff.mpr hsolid.ne
    omega
  have hvalue : (implode q ++ '=' :: tok).drop ((implode q).length + 1) = tok := by
    rw [List.drop_append, List.drop_eq_nil_of_le (by omega), List.nil_append]
    simp
  rw [readLine]
  simp only [if_pos hrow, instr_append h.equals, if_pos hpos, Int.toNat_natCast, List.take_left', hvalue,
    hsolid.trim_eq, if_pos hconcat, Bool.false_eq_true, if_false]

end

/-! ## The lines of a text -/

/-- The lines of a string. -/
def lines (q : List CString) (s : CString) : List CString := (s.splitOn '\n').map fun tok => implode q ++ '=' :: tok

/-- A default reading of a line. -/
abbrev readDefault (r : AssocArray × Nat) (line : CString) : Except ArrayException (AssocArray × Nat) :=
  readLine '=' ['\n'] false r.1 r.2 line

section
variable {q : List CString} {a : AssocArray} {s : CString}

theorem intercalate_join (d : Char) (s p : CString) (ps : List CString) :
    [d].intercalate ((s ++ [d] ++ p) :: ps) = [d].intercalate (s :: p :: ps) := by
  cases ps with
  | nil => simp
  | cons x ps => simp only [List.intercalate_cons_cons, List.append_assoc]

/-- The further lines of a string are put behind the first. -/
theorem readLines_behind (h : LegiblePath q) (ps : List CString) (s : CString) (rows : Nat) :
    (ps.map fun tok => implode q ++ '=' :: tok).foldlM readDefault (createPath q (.string s) a, rows) =
      .ok (createPath q (.string (['\n'].intercalate (s :: ps))) a, rows + ps.length) := by
  induction ps generalizing s rows with
  | nil => simp [pure, Except.pure]
  | cons p ps ih =>
    have happend : append (implode q) p ['\n'] (createPath q (.string s) a) =
        .ok (createPath q (.string (s ++ ['\n'] ++ p)) a) := by
      have hplain := h.plain
      rw [← h.explode] at hplain
      have hwritten : append (implode q) p ['\n'] (createPath (implode q).explode (.string s) a) = _ :=
        append_written hplain
      rwa [h.explode] at hwritten
    rw [List.map_cons, List.foldlM_cons, readDefault, readLine_name h (List.cons_ne_nil _ _), happend]
    show (ps.map _).foldlM readDefault _ = _
    rw [ih, intercalate_join, List.length_cons]
    congr 2
    omega

/-- **The lines of one string** under a key that is not in use. -/
theorem readLines_text (h : LegiblePath q) (hnew : findPath q a = none) (s : CString) (rows : Nat) :
    (lines q s).foldlM readDefault (a, rows) =
      .ok (createPath q (.string s) a, rows + (lines q s).length) := by
  obtain ⟨p, ps, hps⟩ := List.exists_cons_of_ne_nil (List.splitOn_ne_nil '\n' s)
  have hjoin : ['\n'].intercalate (p :: ps) = s := by rw [← hps, List.intercalate_splitOn]
  have hfirst : append (implode q) p ['\n'] a = .ok (createPath q (.string p) a) := by
    have hne : (implode q).explode ≠ [] := by
      rw [h.explode]
      exact h.plain.1
    rw [append_new hne (by rw [h.explode]; exact hnew), h.explode]
  rw [lines, hps, List.map_cons, List.foldlM_cons, readDefault, readLine_name h (List.cons_ne_nil _ _), hfirst]
  show (ps.map _).foldlM readDefault _ = _
  rw [readLines_behind h, hjoin, List.length_cons, List.length_map]
  congr 2
  omega

/-- The lines of strings of which no two meet. -/
theorem readLines_texts {ws : List (List CString × CString)} (hlegible : ∀ w ∈ ws, LegiblePath w.1)
    (hpart : ws.Pairwise fun w u => Part w.1 u.1) (hnew : ∀ w ∈ ws, findPath w.1 a = none) (rows : Nat) :
    (ws.flatMap fun w => lines w.1 w.2).foldlM readDefault (a, rows) =
      .ok (writes (ws.map fun w => (w.1, .string w.2)) a, rows + (ws.map fun w => w.2.count '\n' + 1).sum) := by
  induction ws generalizing a rows with
  | nil => simp [pure, Except.pure, writes]
  | cons w ws ih =>
    rw [List.forall_mem_cons] at hlegible hnew
    rw [List.pairwise_cons] at hpart
    have hrest : ∀ u ∈ ws, findPath u.1 (createPath w.1 (.string w.2) a) = none := by
      intro u hu
      rw [findPath_createPath_other hlegible.1.plain.plain (hpart.1 u hu).symm]
      exact hnew.2 u hu
    rw [List.flatMap_cons, List.foldlM_append, readLines_text hlegible.1 hnew.1]
    show (ws.flatMap _).foldlM readDefault _ = _
    rw [ih hlegible.2 hpart.2 hrest, List.map_cons, List.map_cons, writes_cons, List.sum_cons, lines,
      List.length_map, length_splitOn, Nat.add_assoc]

/-- No line has an end of line in it. -/
theorem newline_not_mem_lines {ws : List (List CString × CString)} (hlegible : ∀ w ∈ ws, LegiblePath w.1) :
    ∀ l ∈ ws.flatMap fun w => lines w.1 w.2, '\n' ∉ l := by
  intro l hl
  obtain ⟨w, hw, hmem⟩ := List.mem_flatMap.mp hl
  obtain ⟨tok, htok, rfl⟩ := List.mem_map.mp hmem
  rw [List.mem_append, List.mem_cons]
  intro hbad
  rcases hbad with hbad | hbad | hbad
  · exact (hlegible w hw).newline hbad
  · exact absurd hbad (by decide)
  · exact not_mem_of_mem_splitOn tok htok hbad

/-- Lines, each with its end, are cut again at their ends. -/
theorem explodeAll_lines {d : Char} {ls : List CString} (h : ∀ l ∈ ls, d ∉ l) :
    explodeAll d (ls.flatMap fun l => l ++ [d]) = if ls = [] then [] else ls ++ [[]] := by
  have hcut : (ls.flatMap fun l => l ++ [d]).splitOn d = ls ++ [[]] := by
    induction ls with
    | nil => simp
    | cons l ls ih =>
      rw [List.forall_mem_cons] at h
      rw [List.flatMap_cons, List.append_assoc]
      show (l ++ d :: ls.flatMap fun l => l ++ [d]).splitOn d = _
      rw [List.splitOn_append_cons_self_of_not_mem h.1, ih h.2, List.cons_append]
  rw [explodeAll, hcut]
  cases ls with
  | nil => rfl
  | cons l ls => simp

/-- The text behind the last end of line is empty, and is not read. -/
theorem fromTemplate_lines {ls : List CString} (h : ∀ l ∈ ls, '\n' ∉ l) :
    fromTemplate '\n' '=' ['\n'] false (ls.flatMap fun l => l ++ ['\n']) a = ls.foldlM readDefault (a, 0) := by
  rw [fromTemplate, arrayExplode_eq, explodeAll_lines h]
  split
  · next hnil => rw [hnil]
  · rw [List.foldlM_append]
    show (ls.foldlM readDefault (a, 0) >>= pure) = _
    exact bind_pure _

end

/-! ## The text of an array -/

theorem textsOfTree_eq_flatMap (t : List (CString × Variant)) :
    textsOfTree t = t.flatMap fun e => (texts e.2).map fun w => (e.1 :: w.1, w.2) := by
  induction t with
  | nil => rfl
  | cons e t ih => rw [textsOfTree, ih, List.flatMap_cons]

mutual

/-- The text of a value below the path `q`. -/
theorem templateOfValue_eq (q : List CString) (hq : ∀ k ∈ q, k ≠ []) : ∀ v : Variant, Legible v →
    templateOfValue '\n' '=' (implode q) v =
      (texts v).flatMap fun w => (lines (q ++ w.1) w.2).flatMap fun l => l ++ ['\n']
  | .string s => by
    intro _
    rw [templateOfValue, arrayExplode_eq, explodeAll, texts]
    split
    · rfl
    · simp [lines, List.flatMap_map]
  | .assocArray m t => by
    intro h
    cases h with | assocArray _ _ hkeys hbelow =>
    rw [templateOfValue, texts]
    exact templateOfTree_eq q hq t fun e he => ⟨hkeys e he, hbelow e he⟩

theorem templateOfTree_eq (q : List CString) (hq : ∀ k ∈ q, k ≠ []) : ∀ t : List (CString × Variant),
    (∀ e ∈ t, LegibleKey e.1 ∧ Legible e.2) →
    templateOfTree '\n' '=' (if implode q ≠ [] then implode q ++ ['/'] else []) t =
      (textsOfTree t).flatMap fun w => (lines (q ++ w.1) w.2).flatMap fun l => l ++ ['\n']
  | [] => fun _ => rfl
  | (key, a) :: t => by
    intro h
    rw [List.forall_mem_cons] at h
    have hkey : ∀ k ∈ q ++ [key], k ≠ [] := by
      rw [List.forall_mem_append, List.forall_mem_singleton]
      exact ⟨hq, h.1.1.solid.ne⟩
    rw [templateOfTree, textsOfTree, implode_concat hq, templateOfValue_eq (q ++ [key]) hkey a h.1.2,
      templateOfTree_eq q hq t h.2, List.flatMap_append, List.flatMap_map]
    simp

end

section
variable {v : Variant} {q : List CString}

theorem textsOfTree_ne_nil (t : List (CString × Variant)) : ∀ w ∈ textsOfTree t, w.1 ≠ [] := by
  intro w hw
  rw [textsOfTree_eq_flatMap] at hw
  obtain ⟨e, -, hmem⟩ := List.mem_flatMap.mp hw
  obtain ⟨u, -, rfl⟩ := List.mem_map.mp hmem
  exact List.cons_ne_nil _ _

theorem texts_keys (hordered : Ordered v) (hlegible : Legible v) :
    ∀ w ∈ texts v, ∀ k ∈ w.1, (IsPart k ∧ Plain k) ∧ LegibleKey k := by
  induction hordered with
  | string s =>
    intro w hw
    rw [texts] at hw
    split at hw
    · cases hw
    · rw [List.mem_singleton.mp hw]
      simp
  | assocArray m t keys sorted below ih =>
    cases hlegible with | assocArray _ _ hkeys hbelow =>
    intro w hw
    rw [texts, textsOfTree_eq_flatMap] at hw
    obtain ⟨e, he, hmem⟩ := List.mem_flatMap.mp hw
    obtain ⟨u, hu, rfl⟩ := List.mem_map.mp hmem
    rw [List.forall_mem_cons]
    exact ⟨⟨keys e he, hkeys e he⟩, ih e he (hbelow e he) u hu⟩

/-- The paths of the strings part, as each key is there once. -/
theorem texts_part (h : Ordered v) : (texts v).Pairwise fun w u => Part w.1 u.1 := by
  induction h with
  | string s =>
    rw [texts]
    split
    · exact List.Pairwise.nil
    · exact List.pairwise_singleton _ _
  | assocArray m t keys sorted below ih =>
    rw [texts, textsOfTree_eq_flatMap, List.pairwise_flatMap]
    refine ⟨?_, ?_⟩
    · intro e he
      exact List.pairwise_map.mpr ((ih e he).imp fun h => Or.inr h)
    · apply sorted.imp
      intro e x hgt w hw u hu
      obtain ⟨w, -, rfl⟩ := List.mem_map.mp hw
      obtain ⟨u, -, rfl⟩ := List.mem_map.mp hu
      refine Or.inl ?_
      intro hsame
      rw [(ArrayKey.compare_eq_iff x.1 e.1).mpr hsame.symm] at hgt
      cases hgt

theorem Part.append {p p' : List CString} (h : Part p p') : Part (q ++ p) (q ++ p') := by
  induction q with
  | nil => exact h
  | cons k q ih => exact Or.inr ih

end

section
variable {a c : AssocArray} {q : List CString} (hordered : Ordered (.ofArray a))
include hordered

/-- Below a path that lines can hold the paths of an array are such paths. -/
theorem texts_below (hlegible : Legible (.ofArray a)) (hq : ∀ k ∈ q, (IsPart k ∧ Plain k) ∧ LegibleKey k) :
    ∀ w ∈ texts (.ofArray a), PlainPath (q ++ w.1) ∧ ∀ k ∈ q ++ w.1, LegibleKey k := by
  intro w hw
  have hkeys : ∀ k ∈ q ++ w.1, (IsPart k ∧ Plain k) ∧ LegibleKey k := by
    rw [List.forall_mem_append]
    exact ⟨hq, texts_keys hordered hlegible w hw⟩
  have hne : q ++ w.1 ≠ [] := by
    intro hnil
    exact textsOfTree_ne_nil a.tree w hw (List.append_eq_nil_iff.mp hnil).2
  exact ⟨⟨hne, fun k hk => (hkeys k hk).1⟩, fun k hk => (hkeys k hk).2⟩

theorem texts_below_part : (texts (.ofArray a)).Pairwise fun w u => Part (q ++ w.1) (q ++ u.1) :=
  (texts_part hordered).imp fun h => h.append

/-- **What the import writes**: every string of the array below `q`, as if it had been set there. -/
theorem fromTemplate_writes (hlegible : Legible (.ofArray a)) (hq : ∀ k ∈ q, (IsPart k ∧ Plain k) ∧ LegibleKey k)
    (hmark : ∀ w ∈ texts (.ofArray a), ∀ k ∈ (q ++ w.1).head?, k.head? ≠ some '#')
    (hnew : ∀ w ∈ texts (.ofArray a), findPath (q ++ w.1) c = none) :
    fromTemplate '\n' '=' ['\n'] false (toTemplate '\n' '=' [] (implode q) a) c =
      .ok (writes ((texts (.ofArray a)).map fun w => (q ++ w.1, .string w.2)) c,
        ((texts (.ofArray a)).map fun w => w.2.count '\n' + 1).sum) := by
  let ws := (texts (.ofArray a)).map fun w => (q ++ w.1, w.2)
  have hbelow := texts_below hordered hlegible hq
  have hpath : ∀ w ∈ ws, LegiblePath w.1 :=
    List.forall_mem_map.mpr fun w hw => ⟨(hbelow w hw).1, (hbelow w hw).2, hmark w hw⟩
  have hpart : ws.Pairwise fun w u => Part w.1 u.1 := List.pairwise_map.mpr (texts_below_part hordered)
  have hnone : ∀ w ∈ ws, findPath w.1 c = none := List.forall_mem_map.mpr hnew
  have htext : toTemplate '\n' '=' [] (implode q) a =
      (ws.flatMap fun w => lines w.1 w.2).flatMap fun l => l ++ ['\n'] := by
    rw [toTemplate, templateOfValue_eq q (fun k hk => (hq k hk).1.1.1) _ hlegible, List.nil_append,
      List.flatMap_assoc, List.flatMap_map]
  calc fromTemplate '\n' '=' ['\n'] false (toTemplate '\n' '=' [] (implode q) a) c
      = (ws.flatMap fun w => lines w.1 w.2).foldlM readDefault (c, 0) := by
        rw [htext, fromTemplate_lines (newline_not_mem_lines hpath)]
    _ = .ok (writes (ws.map fun w => (w.1, .string w.2)) c, 0 + (ws.map fun w => w.2.count '\n' + 1).sum) :=
        readLines_texts hpath hpart hnone 0
    _ = _ := by
        rw [Nat.zero_add, List.map_map, List.map_map]
        rfl

end

/-- **A text is read into an array in which its keys are not in use.** Every string is there below `q`,
    and what is elsewhere is as before. The keys are those of a set `S` on which the comparison is an
    order, and the array is in order before and after, so the search tree does the same. -/
theorem template_adds {a c : AssocArray} {q : List CString} {S : CString → Prop}
    (hS : KeyList.TransOn ArrayKey.compare S) (hc : OrderedIn S (.ofArray c)) (hordered : Ordered (.ofArray a))
    (hlegible : Legible (.ofArray a)) (hq : ∀ k ∈ q, ((IsPart k ∧ Plain k) ∧ LegibleKey k) ∧ S k)
    (hkeys : ∀ w ∈ texts (.ofArray a), ∀ k ∈ w.1, S k)
    (hmark : ∀ w ∈ texts (.ofArray a), ∀ k ∈ (q ++ w.1).head?, k.head? ≠ some '#')
    (hnew : ∀ w ∈ texts (.ofArray a), findPath (q ++ w.1) c = none) :
    ∃ d, fromTemplate '\n' '=' ['\n'] false (toTemplate '\n' '=' [] (implode q) a) c =
        .ok (d, ((texts (.ofArray a)).map fun w => w.2.count '\n' + 1).sum) ∧
      (∀ w ∈ texts (.ofArray a), getString (implode (q ++ w.1)) d = .ok w.2) ∧
      (∀ r, (∀ w ∈ texts (.ofArray a), Part r (q ++ w.1)) → findPath r d = findPath r c) ∧
      OrderedIn S (.ofArray d) := by
  have hpathq : ∀ k ∈ q, (IsPart k ∧ Plain k) ∧ LegibleKey k := fun k hk => (hq k hk).1
  have hplain : ∀ u ∈ (texts (.ofArray a)).map fun w => (q ++ w.1, Variant.string w.2), PlainPath u.1 :=
    List.forall_mem_map.mpr fun w hw => (texts_below hordered hlegible hpathq w hw).1
  have hpart : ((texts (.ofArray a)).map fun w => (q ++ w.1, Variant.string w.2)).Pairwise fun w u => Part w.1 u.1 :=
    List.pairwise_map.mpr (texts_below_part hordered)
  refine ⟨_, fromTemplate_writes hordered hlegible hpathq hmark hnew, ?_, ?_, ?_⟩
  · intro w hw
    have hmem := List.mem_map_of_mem (f := fun w => (q ++ w.1, Variant.string w.2)) hw
    have hpath := hplain _ hmem
    apply getString_eq
    rw [explode_implode hpath.1 fun k hk => (hpath.2 k hk).1]
    exact findPath_writes hplain hpart hmem c
  · intro r hr
    exact findPath_writes_other hplain (List.forall_mem_map.mpr hr) c
  · have hin : ∀ w ∈ texts (.ofArray a), ∀ k ∈ q ++ w.1, S k := by
      intro w hw
      rw [List.forall_mem_append]
      exact ⟨fun k hk => (hq k hk).2, hkeys w hw⟩
    apply OrderedIn.writes hS _ _ hc
    · intro u hu k hk
      refine ⟨?_, (hplain u hu).plain k hk⟩
      obtain ⟨w, hw, rfl⟩ := List.mem_map.mp hu
      exact hin w hw k hk
    · exact List.forall_mem_map.mpr fun w _ => OrderedIn.string w.2

/-- An array with an empty string and a string of two lines. -/
def notes : AssocArray :=
  ⟨0, [("empty".toList, .string []), ("net".toList, .assocArray 0 [("rx".toList, .string "20\n21".toList)])]⟩

theorem Ordered.notes : Ordered (.ofArray notes) := by
  have hnet : Ordered (.assocArray 0 [("rx".toList, .string "20\n21".toList)]) :=
    .assocArray _ _ (by decide) (List.pairwise_singleton _ _) (by simpa using Ordered.string _)
  exact .assocArray _ _ (by decide) (by decide) (by simpa [AssocArray.notes] using ⟨Ordered.string _, hnet⟩)

theorem Legible.notes : Legible (.ofArray notes) := by
  have hkey : ∀ k ∈ ["empty".toList, "net".toList, "rx".toList], LegibleKey k := by
    simp only [List.forall_mem_cons, List.not_mem_nil, false_imp_iff, implies_true, and_true]
    refine ⟨⟨⟨?_, ?_, ?_⟩, ?_, ?_⟩, ⟨⟨?_, ?_, ?_⟩, ?_, ?_⟩, ⟨⟨?_, ?_, ?_⟩, ?_, ?_⟩⟩ <;> simp [isBlank]
  have hnet : Legible (.assocArray 0 [("rx".toList, .string "20\n21".toList)]) :=
    .assocArray _ _ (by simpa using hkey _ (by simp)) (by simpa using Legible.string _)
  refine .assocArray _ _ ?_ (by simpa [AssocArray.notes] using ⟨Legible.string _, hnet⟩)
  intro e he
  apply hkey
  revert e
  decide

/-- Keys of letters. -/
theorem orderly_notes : ∀ k ∈ ["count".toList, "net".toList, "rx".toList], ArrayKey.Orderly k := by
  have hhead : ∀ k ∈ ["count".toList, "net".toList, "rx".toList],
      k.head? = some 'c' ∨ k.head? = some 'n' ∨ k.head? = some 'r' := by decide
  intro k hk
  rcases hhead k hk with h | h | h
  · exact .inr ⟨'c', h, by decide⟩
  · exact .inr ⟨'n', h, by decide⟩
  · exact .inr ⟨'r', h, by decide⟩

theorem OrderedIn.nested : OrderedIn ArrayKey.Orderly (.ofArray nested) := by
  have hnet : OrderedIn ArrayKey.Orderly (.assocArray 0 [("rx".toList, .string "20".toList)]) :=
    .assocArray _ _ (by simpa using orderly_notes _ (by simp)) (List.pairwise_singleton _ _)
      (by simpa using OrderedIn.string _)
  refine .assocArray _ _ ?_ (List.pairwise_pair.mpr (by decide)) ?_
  · exact List.forall_mem_cons.mpr ⟨orderly_notes _ (by simp), List.forall_mem_singleton.mpr (orderly_notes _ (by simp))⟩
  · exact List.forall_mem_cons.mpr ⟨OrderedIn.string _, List.forall_mem_singleton.mpr hnet⟩

theorem template_adds_notes : ∃ d,
    fromTemplate '\n' '=' ['\n'] false (toTemplate '\n' '=' [] "net".toList notes) nested = .ok (d, 2) ∧
      getString "net/net/rx".toList d = .ok "20\n21".toList ∧
      findPath ["count".toList] d = findPath ["count".toList] nested := by
  have hnet : LegibleKey "net".toList :=
    ⟨⟨by simp, by simp [isBlank], by simp [isBlank]⟩, by simp, by simp⟩
  obtain ⟨d, hread, htexts, hrest, -⟩ := template_adds (q := ["net".toList]) (c := nested) ArrayKey.transOn_orderly
    OrderedIn.nested Ordered.notes Legible.notes
    (List.forall_mem_singleton.mpr ⟨⟨by decide, hnet⟩, orderly_notes _ (by simp)⟩)
    (fun w hw k hk => orderly_notes k (by revert k w; decide)) (by decide) (by decide)
  exact ⟨d, hread, htexts (["net".toList, "rx".toList], "20\n21".toList) (by decide), hrest _ (by decide)⟩

/-! ## Into an empty array -/

section
variable {k : CString} {a : AssocArray}

/-- To count a key again changes nothing. -/
theorem nextKey_nextKey (hk : Plain k) (m : UInt64) : (nextKey k (nextKey k m).2).2 = (nextKey k m).2 := by
  simp only [nextKey, if_neg hk]
  split
  · -- behind the key, also where the counter starts again from 0
    split <;> rfl
  · rfl

/-- Writes below a key are one write of what they make of the array below it. -/
theorem writes_below {ws : List (List CString × Variant)} (hk : Plain k) (hne : ws ≠ [])
    (hw : ∀ w ∈ ws, w.1 ≠ []) : writes (ws.map fun w => (k :: w.1, w.2)) a =
      ⟨(nextKey k a.maxint).2, KeyList.put ArrayKey.compare k (.ofArray (writes ws (a.sub k))) a.tree⟩ := by
  induction ws generalizing a with
  | nil => exact absurd rfl hne
  | cons w ws ih =>
    rw [List.forall_mem_cons] at hw
    have hfirst : createPath (k :: w.1) w.2 a = ⟨(nextKey k a.maxint).2,
        KeyList.put ArrayKey.compare k (.ofArray (createPath w.1 w.2 (a.sub k))) a.tree⟩ := by
      simp only [createPath, nextKey_of_plain hk, if_neg hw.1]
    rw [List.map_cons, writes_cons, writes_cons]
    by_cases hrest : ws = []
    · subst hrest
      rw [hfirst]
      rfl
    · rw [ih hrest hw.2, sub_createPath_below hk hw.1 rfl, hfirst]
      simp only [nextKey_nextKey hk, KeyList.put_put ArrayKey.compare_eq_iff]

/-- Below a greatest key there is nothing yet. -/
theorem sub_last (h : ∀ e ∈ a.tree, ArrayKey.compare k e.1 = .gt) : a.sub k = {} := by
  have hnone : a.entry k = none := by
    apply (KeyList.find?_eq_none ArrayKey.compare_eq_iff).mpr
    intro e he hsame
    have hgt := h e he
    rw [(ArrayKey.compare_eq_iff k e.1).mpr hsame.symm] at hgt
    cases hgt
  simp only [sub, hnone]

/-- The strings of a value, as writes below a key. -/
def textWrites (k : CString) (v : Variant) : List (List CString × Variant) :=
  (texts v).map fun w => (k :: w.1, .string w.2)

/-- A value is stored at the end as what it keeps. -/
def StoredLast (v : Variant) : Prop :=
  ∀ (k : CString) (a : AssocArray), Plain k → (∀ e ∈ a.tree, ArrayKey.compare k e.1 = .gt) → texts v ≠ [] →
    writes (textWrites k v) a = ⟨(nextKey k a.maxint).2, a.tree ++ [(k, pruned v)]⟩

/-- Entries in order, all of them greater than what is there, are stored behind it. -/
theorem writes_tree {t : List (CString × Variant)} (hkeys : ∀ e ∈ t, IsPart e.1 ∧ Plain e.1)
    (hsorted : t.Pairwise fun e x => ArrayKey.compare x.1 e.1 = .gt) (hstored : ∀ e ∈ t, StoredLast e.2)
    (ha : ∀ x ∈ t, ∀ e ∈ a.tree, ArrayKey.compare x.1 e.1 = .gt) :
    writes ((textsOfTree t).map fun w => (w.1, .string w.2)) a =
      ⟨countKeys (prunedTree t) a.maxint, a.tree ++ prunedTree t⟩ := by
  induction t generalizing a with
  | nil => simp [textsOfTree, prunedTree, countKeys, writes]
  | cons x t ih =>
    rw [List.forall_mem_cons] at hkeys hstored ha
    rw [List.pairwise_cons] at hsorted
    have hsplit : (textsOfTree (x :: t)).map (fun w => (w.1, Variant.string w.2)) =
        textWrites x.1 x.2 ++ (textsOfTree t).map fun w => (w.1, .string w.2) := by
      rw [textsOfTree, List.map_append, List.map_map]
      rfl
    rw [hsplit, writes_append, prunedTree]
    by_cases hnone : texts x.2 = []
    · rw [if_pos hnone, textWrites, hnone]
      exact ih hkeys.2 hsorted.2 hstored.2 ha.2
    · have hlast := hstored.1 x.1 a hkeys.1.2 ha.1 hnone
      have htail : ∀ y ∈ t, ∀ e ∈ (writes (textWrites x.1 x.2) a).tree, ArrayKey.compare y.1 e.1 = .gt := by
        intro y hy e he
        rw [hlast] at he
        rcases List.mem_append.mp he with he | he
        · exact ha.2 y hy e he
        · rw [List.mem_singleton.mp he]
          exact hsorted.1 y hy
      rw [if_neg hnone, ih hkeys.2 hsorted.2 hstored.2 htail, hlast]
      simp [countKeys]

theorem Ordered.storedLast {v : Variant} (h : Ordered v) : StoredLast v := by
  induction h with
  | string s =>
    intro k a hk hlast htext
    have hs : s ≠ [] := by
      intro hs
      exact htext (by rw [texts, if_pos hs])
    rw [textWrites, texts, if_neg hs]
    exact createPath_last hk hlast
  | assocArray m t keys sorted below ih =>
    intro k a hk hlast htext
    have hwrites : textWrites k (.assocArray m t) =
        ((textsOfTree t).map fun w => (w.1, Variant.string w.2)).map fun w => (k :: w.1, w.2) := by
      rw [textWrites, texts, List.map_map]
      rfl
    have htree := writes_tree (a := {}) keys sorted ih (fun _ _ e he => absurd he List.not_mem_nil)
    rw [hwrites, writes_below hk, sub_last hlast, htree, KeyList.put_last hlast]
    · rfl
    · simpa [texts] using htext
    · intro w hw
      obtain ⟨u, hu, rfl⟩ := List.mem_map.mp hw
      exact textsOfTree_ne_nil t u hu

end

/-- Nothing is lost in the text: no entry on any level is without a string that has a text. -/
inductive Full : Variant → Prop
  | string (s : CString) : Full (.string s)
  | assocArray (m : UInt64) (t : List (CString × Variant)) (some : ∀ e ∈ t, texts e.2 ≠ [])
      (below : ∀ e ∈ t, Full e.2) : Full (.assocArray m t)

theorem length_uncountedTree (t : List (CString × Variant)) : (uncountedTree t).length = t.length := by
  induction t with
  | nil => rfl
  | cons e t ih => rw [uncountedTree, List.length_cons, List.length_cons, ih]

theorem length_prunedTree_le (t : List (CString × Variant)) : (prunedTree t).length ≤ t.length := by
  induction t with
  | nil => exact Nat.le_refl _
  | cons e t ih =>
    rw [prunedTree, List.length_cons]
    split
    · omega
    · rw [List.length_cons]
      omega

mutual

/-- The text keeps an array exactly if nothing is lost. -/
theorem pruned_eq_iff : ∀ v : Variant, uncounted (pruned v) = uncounted v ↔ Full v
  | .string s => iff_of_true rfl (.string s)
  | .assocArray m t => by
    rw [pruned, uncounted, uncounted, Variant.assocArray.injEq, eq_self, true_and, prunedTree_eq_iff t]
    refine ⟨?_, ?_⟩
    · intro h
      exact .assocArray m t (fun e he => (h e he).1) fun e he => (h e he).2
    · intro h
      cases h with | assocArray _ _ hsome hbelow =>
      exact fun e he => ⟨hsome e he, hbelow e he⟩

theorem prunedTree_eq_iff : ∀ t : List (CString × Variant),
    uncountedTree (prunedTree t) = uncountedTree t ↔ ∀ e ∈ t, texts e.2 ≠ [] ∧ Full e.2
  | [] => by simp [prunedTree, uncountedTree]
  | (key, a) :: t => by
    rw [prunedTree, List.forall_mem_cons, uncountedTree]
    by_cases hnone : texts a = []
    · -- the entry is left out, so one is missing
      rw [if_pos hnone]
      refine iff_of_false ?_ fun h => h.1.1 hnone
      intro h
      have hlen := congrArg List.length h
      have hle := length_prunedTree_le t
      rw [length_uncountedTree, List.length_cons, length_uncountedTree] at hlen
      omega
    · rw [if_neg hnone, uncountedTree, List.cons.injEq, Prod.mk.injEq, eq_self, true_and, pruned_eq_iff a,
        prunedTree_eq_iff t]
      simp [hnone]

end

/-- **A text read into an empty array.** What comes back is the array without the entries that have no
    text, and it is the array itself, up to the counters for "[]" keys, exactly if there are none. -/
theorem template_round_trip {a : AssocArray} (hordered : Ordered (.ofArray a)) (hlegible : Legible (.ofArray a))
    (hmark : ∀ e ∈ a.tree, e.1.head? ≠ some '#') :
    ∃ b rows, fromTemplate '\n' '=' ['\n'] false (toTemplate '\n' '=' [] [] a) {} = .ok (b, rows) ∧
      Variant.ofArray b = pruned (.ofArray a) ∧
      (uncounted (.ofArray b) = uncounted (.ofArray a) ↔ Full (.ofArray a)) := by
  have hfirst : ∀ w ∈ texts (.ofArray a), ∀ k ∈ ([] ++ w.1).head?, k.head? ≠ some '#' := by
    intro w hw k hk
    rw [Variant.ofArray, texts, textsOfTree_eq_flatMap] at hw
    obtain ⟨e, he, hmem⟩ := List.mem_flatMap.mp hw
    obtain ⟨u, -, rfl⟩ := List.mem_map.mp hmem
    cases hk
    exact hmark e he
  have hread := fromTemplate_writes (q := []) (c := {}) hordered hlegible (fun k hk => absurd hk List.not_mem_nil)
    hfirst fun w _ => findPath_empty _
  have hstored : writes ((texts (.ofArray a)).map fun w => ([] ++ w.1, .string w.2)) {} =
      ⟨countKeys (prunedTree a.tree) 0, prunedTree a.tree⟩ := by
    cases hordered with | assocArray _ _ keys sorted below =>
    exact writes_tree (a := {}) keys sorted (fun e he => (below e he).storedLast)
      fun _ _ e he => absurd he List.not_mem_nil
  rw [hstored] at hread
  exact ⟨_, _, hread, rfl, pruned_eq_iff (.ofArray a)⟩

theorem template_round_trip_notes :
    ∃ b rows, fromTemplate '\n' '=' ['\n'] false (toTemplate '\n' '=' [] [] notes) {} = .ok (b, rows) ∧
      Variant.ofArray b = pruned (.ofArray notes) ∧ uncounted (.ofArray b) ≠ uncounted (.ofArray notes) := by
  obtain ⟨b, rows, hread, hb, hiff⟩ := template_round_trip Ordered.notes Legible.notes (by decide)
  refine ⟨b, rows, hread, hb, ?_⟩
  rw [Ne, hiff]
  intro hfull
  cases hfull with | assocArray _ _ hsome _ =>
  exact hsome ("empty".toList, .string []) (by simp [notes]) rfl

end AssocArray

end UdpPingPong
