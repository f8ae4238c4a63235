import Mathlib.Data.List.Basic

/- Command lines whose options are found by how an argument begins.

   An option is looked up from its flag by the first argument that begins with the
   flag. Behind that argument may stand others that belong to the option.

   1. `find`: the first argument that begins with a text, and the arguments behind it;
   2. `PrefixFree`: no flag begins another one;
   3. `find_groups`: on a command line of options, whose further arguments begin with
      no flag, a flag is found exactly at the first option that has it. -/
namespace Options

variable {ι α : Type}

/-- The first argument that begins with a text, and the arguments behind it. -/
def find [DecidableEq α] (text : List α) : List (List α) → Option (List α × List (List α))
  | [] => none
  | a :: rest => if text <+: a then some (a, rest) else find text rest

/-- No flag begins another one. -/
def PrefixFree (text : ι → List α) : Prop := ∀ i j, text i <+: text j → i = j

/-- An option on the command line: what follows its flag in the same argument, and the arguments
    that belong to it. -/
structure Group (ι α : Type) where
  flag : ι
  attached : List α
  behind : List (List α)

section
variable (text : ι → List α)

def Group.arguments (g : Group ι α) : List (List α) := (text g.flag ++ g.attached) :: g.behind

/-- No argument behind the first one begins with a flag. -/
def Group.Silent (g : Group ι α) : Prop := ∀ v ∈ g.behind, ∀ i, ¬ text i <+: v

end

variable {text : ι → List α}

theorem prefixFree_of_all (all : List ι) (hall : ∀ i, i ∈ all)
    (h : ∀ i ∈ all, ∀ j ∈ all, text i <+: text j → i = j) : PrefixFree text :=
  fun i j => h i (hall i) j (hall j)

/-- A flag that an argument with another flag begins with is that flag. -/
theorem PrefixFree.eq_of_append (hfree : PrefixFree text) {i j : ι} {attached : List α}
    (h : text i <+: text j ++ attached) : i = j := by
  rcases List.prefix_or_prefix_of_prefix h (List.prefix_append (text j) attached) with hij | hji
  · exact hfree i j hij
  · exact (hfree j i hji).symm

section
variable [DecidableEq α]

theorem find_append {i : ι} {front : List (List α)} (h : ∀ v ∈ front, ¬ text i <+: v) (back : List (List α)) :
    find (text i) (front ++ back) = find (text i) back := by
  induction front with
  | nil => rfl
  | cons a front ih =>
    rw [List.forall_mem_cons] at h
    rw [List.cons_append, find, if_neg h.1, ih h.2]

/-- The options of another flag are passed over. -/
theorem find_of_ne (hfree : PrefixFree text) {g : Group ι α} (hg : g.Silent text) {i : ι} (hne : g.flag ≠ i)
    (back : List (List α)) : find (text i) (g.arguments text ++ back) = find (text i) back := by
  apply find_append
  intro v hv
  rcases List.mem_cons.mp hv with hhead | hbehind
  · rw [hhead]
    intro h
    exact hne (hfree.eq_of_append h).symm
  · exact hg v hbehind i

theorem find_of_eq (g : Group ι α) (back : List (List α)) :
    find (text g.flag) (g.arguments text ++ back) = some (text g.flag ++ g.attached, g.behind ++ back) := by
  rw [Group.arguments, List.cons_append, find, if_pos (List.prefix_append _ _)]

/-- **Where a flag is found**: at the first option that has it. -/
theorem find_groups [DecidableEq ι] (hfree : PrefixFree text) {gs : List (Group ι α)} (hgs : ∀ g ∈ gs, g.Silent text) (i : ι) :
    match gs.find? (fun g => g.flag = i) with
    | none => find (text i) (gs.flatMap (Group.arguments text)) = none
    | some g => ∃ back : List (Group ι α), find (text i) (gs.flatMap (Group.arguments text)) =
        some (text i ++ g.attached, g.behind ++ back.flatMap (Group.arguments text)) := by
  induction gs with
  | nil => rfl
  | cons g gs ih =>
    rw [List.forall_mem_cons] at hgs
    rw [List.flatMap_cons]
    by_cases hflag : g.flag = i
    · rw [List.find?_cons_of_pos (by simpa using hflag)]
      refine ⟨gs, ?_⟩
      rw [← hflag]
      exact find_of_eq g _
    · rw [List.find?_cons_of_neg (by simpa using hflag), find_of_ne hfree hgs.1 hflag]
      exact ih hgs.2

end

end Options
