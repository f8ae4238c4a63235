import Mathlib.Algebra.BigOperators.Group.Finset.Piecewise
import Mathlib.Algebra.Ring.Int.Defs
import Mathlib.Data.List.Induction
import Mathlib.Tactic.Common

/- Runs of a partial step function.

   A system is given by `step : σ → ε → Option σ`: from a state and one event to
   the next state, or `none` where the event cannot happen. An interleaving of
   several parties is one list of events, so a fact about every list of events
   is a fact about every order of their steps.

   1. `Runs step s es t`: the events `es`, taken in order from `s`, lead to `t`;
   2. `Runs.trace_induct` and `Runs.invariant`: what every step keeps, every run keeps;
      `Runs.simulates`: what every step matches, every run matches;
   3. `Along step ok s es`: every event of the run meets a condition on the state
      it is taken in; `Runs.invariant_along` carries an invariant through such runs,
      and `Runs.along_of_invariant` another condition that follows from it;
   4. `spent step cost s es`: a cost summed over the steps of a run, and
      `Runs.balance`, which accounts for a quantity every step changes by its cost;
   5. `emitted step out s es`: what the steps of a run put out; `Runs.refines`: a run of
      another system, if every step puts one out;
   6. `stepAt step`: independent parties, interleaved. `Runs.proj` gives each party its
      own run, `Runs.lift` makes a run of one party a run of all, `sum_map_set` and
      `sum_eventsOf` add up what the parties have and do. -/
namespace Exec

variable {σ ε : Type}

/-- The events `es`, taken in order from `s`, lead to `t`. -/
def Runs (step : σ → ε → Option σ) (s : σ) (es : List ε) (t : σ) : Prop :=
  es.foldlM step s = some t

instance [DecidableEq σ] (step : σ → ε → Option σ) (s : σ) (es : List ε) (t : σ) :
    Decidable (Runs step s es t) :=
  inferInstanceAs (Decidable (es.foldlM step s = some t))

section
variable {step : σ → ε → Option σ} {s t u : σ} {e : ε} {es fs : List ε}

@[simp] theorem runs_nil : Runs step s [] t ↔ s = t := by
  simp [Runs]

@[simp] theorem runs_cons : Runs step s (e :: es) t ↔ ∃ u, step s e = some u ∧ Runs step u es t := by
  simp [Runs, List.foldlM_cons, Option.bind_eq_some_iff]

theorem runs_append : Runs step s (es ++ fs) t ↔ ∃ u, Runs step s es u ∧ Runs step u fs t := by
  simp [Runs, List.foldlM_append, Option.bind_eq_some_iff]

theorem runs_snoc : Runs step s (es ++ [e]) t ↔ ∃ u, Runs step s es u ∧ step u e = some t := by
  simp [runs_append]

theorem Runs.single (h : step s e = some t) : Runs step s [e] t :=
  runs_cons.mpr ⟨t, h, runs_nil.mpr rfl⟩

theorem Runs.append (h₁ : Runs step s es t) (h₂ : Runs step t fs u) : Runs step s (es ++ fs) u :=
  runs_append.mpr ⟨t, h₁, h₂⟩

theorem Runs.snoc (h₁ : Runs step s es t) (h₂ : step t e = some u) : Runs step s (es ++ [e]) u :=
  runs_snoc.mpr ⟨t, h₁, h₂⟩

/-- **Induction over a run**, for facts about the events so far and the state they lead to. -/
theorem Runs.trace_induct {P : List ε → σ → Prop} (h0 : P [] s)
    (hstep : ∀ es t e u, Runs step s es t → P es t → step t e = some u → P (es ++ [e]) u) :
    ∀ {es t}, Runs step s es t → P es t := by
  intro es
  induction es using List.reverseRecOn with
  | nil =>
    intro t h
    rw [← runs_nil.mp h]
    exact h0
  | append_singleton es e ih =>
    intro t h
    obtain ⟨u, hu, hs⟩ := runs_snoc.mp h
    exact hstep es u e t hu (ih hu) hs

/-- **The simulation rule**: if every step of one system is matched by a step of another, every run is
    matched by a run. -/
theorem Runs.simulates {τ φ : Type} {step' : τ → φ → Option τ} {R : σ → τ → Prop} {f : ε → φ}
    (hstep : ∀ s e t a, R s a → step s e = some t → ∃ b, step' a (f e) = some b ∧ R t b)
    {a : τ} (ha : R s a) (h : Runs step s es t) : ∃ b, Runs step' a (es.map f) b ∧ R t b := by
  induction es generalizing s a with
  | nil =>
    obtain rfl := runs_nil.mp h
    exact ⟨a, runs_nil.mpr rfl, ha⟩
  | cons e es ih =>
    obtain ⟨u, hu, hr⟩ := runs_cons.mp h
    obtain ⟨b, hb, hub⟩ := hstep s e u a ha hu
    obtain ⟨c, hc, htc⟩ := ih hub hr
    exact ⟨c, runs_cons.mpr ⟨b, hb, hc⟩, htc⟩

/-- **The invariant rule**: what holds at the start and is kept by every step holds after every run. -/
theorem Runs.invariant {I : σ → Prop} (h0 : I s)
    (hstep : ∀ t e u, I t → step t e = some u → I u) (h : Runs step s es t) : I t :=
  Runs.trace_induct (P := fun _ t => I t) h0 (fun _ t e u _ hi hs => hstep t e u hi hs) h

end

/-! ## Conditions along a run -/

/-- Every event of the run from `s` meets `ok` in the state it is taken in. -/
def Along (step : σ → ε → Option σ) (ok : σ → ε → Prop) : σ → List ε → Prop
  | _, [] => True
  | s, e :: es => ok s e ∧ ∀ t, step s e = some t → Along step ok t es

section
variable {step : σ → ε → Option σ} {ok : σ → ε → Prop} {s t : σ} {e : ε} {es fs : List ε}

instance [∀ s e, Decidable (ok s e)] : ∀ s es, Decidable (Along step ok s es)
  | _, [] => .isTrue trivial
  | s, e :: es => match h : step s e with
    | some t =>
      have : Decidable (Along step ok t es) := instDecidableAlong t es
      decidable_of_iff (ok s e ∧ Along step ok t es) (by simp [Along, h])
    | none => decidable_of_iff (ok s e) (by simp [Along, h])

theorem along_append (h : Runs step s es t) :
    Along step ok s (es ++ fs) ↔ Along step ok s es ∧ Along step ok t fs := by
  induction es generalizing s with
  | nil => simp [Along, runs_nil.mp h]
  | cons e es ih =>
    obtain ⟨u, hu, hr⟩ := runs_cons.mp h
    simp only [List.cons_append, Along, hu, Option.some.injEq, forall_eq', ih hr, and_assoc]

theorem along_snoc (h : Runs step s es t) :
    Along step ok s (es ++ [e]) ↔ Along step ok s es ∧ ok t e := by
  rw [along_append h]
  simp [Along]

theorem along_and {ok' : σ → ε → Prop} : ∀ {s : σ} {es : List ε},
    Along step (fun s e => ok s e ∧ ok' s e) s es ↔ Along step ok s es ∧ Along step ok' s es
  | _, [] => by simp [Along]
  | s, e :: es => by
    simp only [Along, along_and]
    refine ⟨?_, ?_⟩
    · intro h
      obtain ⟨⟨h, h'⟩, hs⟩ := h
      exact ⟨⟨h, fun t ht => (hs t ht).1⟩, h', fun t ht => (hs t ht).2⟩
    · intro h
      obtain ⟨⟨h, hs⟩, h', hs'⟩ := h
      exact ⟨⟨h, h'⟩, fun t ht => ⟨hs t ht, hs' t ht⟩⟩

theorem along_of_true : ∀ (s : σ) (es : List ε), Along step (fun _ _ => True) s es
  | _, [] => trivial
  | _, _ :: es => ⟨trivial, fun t _ => along_of_true t es⟩

/-- A condition on a step that does not look at the step. -/
theorem along_const_or {p : Prop} : Along step (fun s e => p ∨ ok s e) s es ↔ p ∨ Along step ok s es := by
  by_cases hp : p
  · simp [hp, along_of_true]
  · simp [hp]

/-- Conditions that agree on every step of the run agree along it. -/
theorem Runs.along_iff {ok' : σ → ε → Prop} (h : Runs step s es t)
    (hiff : ∀ fs e u, fs ++ [e] <+: es → Runs step s fs u → (ok u e ↔ ok' u e)) :
    Along step ok s es ↔ Along step ok' s es := by
  apply Runs.trace_induct (P := fun es _ => (∀ fs e u, fs ++ [e] <+: es → Runs step s fs u → (ok u e ↔ ok' u e)) →
    (Along step ok s es ↔ Along step ok' s es)) _ _ h hiff
  · intro _
    exact Iff.rfl
  · intro es t e u hr ih _ hiff
    rw [along_snoc hr, along_snoc hr, hiff es e t (List.prefix_refl _) hr]
    rw [ih fun fs f v hfs => hiff fs f v (hfs.trans (List.prefix_append es [e]))]

/-- What an invariant says of each step holds along every list of events. -/
theorem along_of_invariant {I : σ → Prop} (hstep : ∀ t e u, I t → step t e = some u → I u)
    (hok : ∀ t e, I t → ok t e) (h0 : I s) (es : List ε) : Along step ok s es := by
  induction es generalizing s with
  | nil => trivial
  | cons e es ih => exact ⟨hok s e h0, fun t ht => ih (hstep s e t h0 ht)⟩

/-- The invariant rule for runs whose steps all meet a condition. -/
theorem Runs.invariant_along {I : σ → Prop} (h0 : I s)
    (hstep : ∀ t e u, I t → ok t e → step t e = some u → I u)
    (h : Runs step s es t) (ha : Along step ok s es) : I t := by
  apply Runs.trace_induct (P := fun es t => Along step ok s es → I t) (fun _ => h0) _ h ha
  intro es t e u hr ih hs ha
  obtain ⟨ha', hok⟩ := (along_snoc hr).mp ha
  exact hstep t e u (ih ha') hok hs

/-- What the invariant says of each step holds along the run. -/
theorem Runs.along_of_invariant {I : σ → Prop} {safe : σ → ε → Prop} (h0 : I s)
    (hstep : ∀ t e u, I t → ok t e → step t e = some u → I u)
    (hsafe : ∀ t e u, I t → step t e = some u → safe t e)
    (h : Runs step s es t) (ha : Along step ok s es) : Along step safe s es := by
  apply Runs.trace_induct (P := fun es _ => Along step ok s es → Along step safe s es) (fun ha => ha) _ h ha
  intro es t e u hr ih hs ha
  obtain ⟨ha', -⟩ := (along_snoc hr).mp ha
  exact (along_snoc hr).mpr ⟨ih ha', hsafe t e u (hr.invariant_along h0 hstep ha') hs⟩

end

/-! ## Costs along a run -/

/-- The costs of the steps of the run from `s`, summed. -/
def spent (step : σ → ε → Option σ) (cost : σ → ε → Nat) : σ → List ε → Nat
  | _, [] => 0
  | s, e :: es => cost s e + match step s e with
    | some t => spent step cost t es
    | none => 0

section
variable {step : σ → ε → Option σ} {cost : σ → ε → Nat} {s t : σ} {e : ε} {es : List ε}

theorem spent_snoc (h : Runs step s es t) :
    spent step cost s (es ++ [e]) = spent step cost s es + cost t e := by
  induction es generalizing s with
  | nil =>
    rw [runs_nil.mp h]
    cases hs : step t e <;> simp [spent, hs]
  | cons f es ih =>
    obtain ⟨u, hu, hr⟩ := runs_cons.mp h
    simp only [List.cons_append, spent, hu, ih hr, Nat.add_assoc]

/-- Nothing is spent exactly when no step of the run costs anything. -/
theorem spent_eq_zero (h : Runs step s es t) :
    spent step cost s es = 0 ↔ Along step (fun s e => cost s e = 0) s es := by
  apply Runs.trace_induct (P := fun es _ => spent step cost s es = 0 ↔
    Along step (fun s e => cost s e = 0) s es) (by simp [spent, Along]) _ h
  intro es t e u hr ih _
  rw [spent_snoc hr, along_snoc hr, Nat.add_eq_zero_iff, ih]

/-- **Bookkeeping**: if an invariant `I` holds along the run and every step moves `m` by its
    cost, the run moves `m` by what it spent. -/
theorem Runs.balance {I : σ → Prop} {m : σ → Int} (h0 : I s)
    (hI : ∀ t e u, I t → step t e = some u → I u)
    (hm : ∀ t e u, I t → step t e = some u → m u = m t + cost t e)
    (h : Runs step s es t) : m t = m s + spent step cost s es := by
  apply Runs.trace_induct (P := fun es t => m t = m s + spent step cost s es) (by simp [spent]) _ h
  intro es t e u hr ih hs
  have hinv : I t := hr.invariant h0 hI
  rw [hm t e u hinv hs, spent_snoc hr, ih]
  push_cast
  omega

end

/-! ## Outputs along a run -/

/-- What the steps of the run from `s` put out, in order. -/
def emitted {β : Type} (step : σ → ε → Option σ) (out : σ → ε → List β) : σ → List ε → List β
  | _, [] => []
  | s, e :: es => out s e ++ match step s e with
    | some t => emitted step out t es
    | none => []

theorem emitted_snoc {β : Type} {step : σ → ε → Option σ} {out : σ → ε → List β} {s t : σ} {e : ε}
    {es : List ε} (h : Runs step s es t) :
    emitted step out s (es ++ [e]) = emitted step out s es ++ out t e := by
  induction es generalizing s with
  | nil =>
    rw [runs_nil.mp h]
    cases hs : step t e <;> simp [emitted, hs]
  | cons f es ih =>
    obtain ⟨u, hu, hr⟩ := runs_cons.mp h
    simp only [List.cons_append, emitted, hu, ih hr, List.append_assoc]

/-- **The refinement rule**: if what every step puts out is a run of another system between what is seen
    of the two states, what a run puts out is one, from its first state to its last. -/
theorem Runs.refines {τ φ : Type} {step : σ → ε → Option σ} {step' : τ → φ → Option τ} {out : σ → ε → List φ}
    {seen : σ → τ} (hstep : ∀ s e t, step s e = some t → Runs step' (seen s) (out s e) (seen t)) {s t : σ}
    {es : List ε} (h : Runs step s es t) : Runs step' (seen s) (emitted step out s es) (seen t) := by
  induction es generalizing s with
  | nil =>
    rw [runs_nil.mp h]
    exact runs_nil.mpr rfl
  | cons e es ih =>
    obtain ⟨u, hu, hr⟩ := runs_cons.mp h
    simp only [emitted, hu]
    exact (hstep s e u hu).append (ih hr)

/-! ## Independent parties -/

/-- A step of party `p.1` among several that share no state. -/
def stepAt (step : σ → ε → Option σ) (ss : List σ) (p : Nat × ε) : Option (List σ) :=
  match ss[p.1]? with
  | some s => (step s p.2).map (ss.set p.1)
  | none => none

/-- What party `i` does. -/
def eventsOf (i : Nat) (es : List (Nat × ε)) : List ε :=
  es.filterMap fun p => if p.1 = i then some p.2 else none

theorem eventsOf_append (i : Nat) (es fs : List (Nat × ε)) :
    eventsOf i (es ++ fs) = eventsOf i es ++ eventsOf i fs := List.filterMap_append

theorem mem_eventsOf {x : Nat × ε} {es : List (Nat × ε)} (h : x ∈ es) : x.2 ∈ eventsOf x.1 es :=
  List.mem_filterMap.mpr ⟨x, h, if_pos rfl⟩

@[simp] theorem eventsOf_map_self (i : Nat) (es : List ε) : eventsOf i (es.map fun e => (i, e)) = es := by
  simp [eventsOf]

@[simp] theorem eventsOf_map_other {i j : Nat} (h : j ≠ i) (es : List ε) :
    eventsOf i (es.map fun e => (j, e)) = [] := by
  simp [eventsOf, h]

theorem eventsOf_snoc_self (i : Nat) (es : List (Nat × ε)) (e : ε) :
    eventsOf i (es ++ [(i, e)]) = eventsOf i es ++ [e] := by
  simp [eventsOf]

theorem eventsOf_snoc_other {i j : Nat} (h : j ≠ i) (es : List (Nat × ε)) (e : ε) :
    eventsOf i (es ++ [(j, e)]) = eventsOf i es := by
  simp [eventsOf, h]

section
variable {step : σ → ε → Option σ} {ss ss' : List σ} {s t : σ} {e : ε} {i : Nat}

theorem stepAt_eq_some {p : Nat × ε} : stepAt step ss p = some ss' ↔
    ∃ s t, ss[p.1]? = some s ∧ step s p.2 = some t ∧ ss' = ss.set p.1 t := by
  unfold stepAt
  cases hs : ss[p.1]? <;> simp [eq_comm]

/-- Each party takes its own run. -/
theorem Runs.proj {es : List (Nat × ε)} (h : Runs (stepAt step) ss es ss') :
    ss'.length = ss.length ∧
      ∀ i s, ss[i]? = some s → ∃ t, ss'[i]? = some t ∧ Runs step s (eventsOf i es) t := by
  apply Runs.trace_induct (P := fun es ss' => ss'.length = ss.length ∧
    ∀ i s, ss[i]? = some s → ∃ t, ss'[i]? = some t ∧ Runs step s (eventsOf i es) t) _ _ h
  · exact ⟨rfl, fun i s hs => ⟨s, hs, runs_nil.mpr rfl⟩⟩
  · intro es us p us' _ hes hstep
    obtain ⟨j, e⟩ := p
    obtain ⟨hlen, ih⟩ := hes
    obtain ⟨u, v, hu, huv, rfl⟩ := stepAt_eq_some.mp hstep
    refine ⟨by rw [List.length_set, hlen], fun i s hs => ?_⟩
    obtain ⟨t, ht, hr⟩ := ih i s hs
    by_cases hij : j = i
    · subst hij
      obtain rfl : t = u := Option.some.inj (ht.symm.trans hu)
      have hlt : j < us.length := (List.getElem?_eq_some_iff.mp ht).1
      refine ⟨v, by rw [List.getElem?_set_self hlt], ?_⟩
      rw [eventsOf_snoc_self]
      exact hr.snoc huv
    · refine ⟨t, by rw [List.getElem?_set_ne hij, ht], ?_⟩
      rw [eventsOf_snoc_other hij]
      exact hr

/-- The run that brought a party to where it stands. -/
theorem Runs.proj_back {es : List (Nat × ε)} (h : Runs (stepAt step) ss es ss') (ht : ss'[i]? = some t) :
    ∃ s, ss[i]? = some s ∧ Runs step s (eventsOf i es) t := by
  obtain ⟨hlen, hproj⟩ := h.proj
  have hi : i < ss.length := by
    rw [← hlen]
    exact (List.getElem?_eq_some_iff.mp ht).1
  have hs : ss[i]? = some ss[i] := List.getElem?_eq_getElem hi
  obtain ⟨u, hu, hr⟩ := hproj i _ hs
  obtain rfl : t = u := Option.some.inj (ht.symm.trans hu)
  exact ⟨ss[i], hs, hr⟩

/-- A run of one party, with the others standing still. -/
theorem Runs.lift {es : List ε} (hs : ss[i]? = some s) (h : Runs step s es t) :
    Runs (stepAt step) ss (es.map fun e => (i, e)) (ss.set i t) := by
  induction es generalizing s ss with
  | nil =>
    obtain rfl := runs_nil.mp h
    obtain ⟨hlt, rfl⟩ := List.getElem?_eq_some_iff.mp hs
    rw [List.set_getElem_self]
    exact runs_nil.mpr rfl
  | cons e es ih =>
    obtain ⟨u, hu, hr⟩ := runs_cons.mp h
    have hlt : i < ss.length := (List.getElem?_eq_some_iff.mp hs).1
    refine runs_cons.mpr ⟨ss.set i u, stepAt_eq_some.mpr ⟨s, u, hs, hu, rfl⟩, ?_⟩
    have hset : (ss.set i u)[i]? = some u := List.getElem?_set_self hlt
    have hrest := ih hset hr
    rwa [List.set_set] at hrest

/-- Only parties that exist take steps. -/
theorem Runs.party_lt {es : List (Nat × ε)} (h : Runs (stepAt step) ss es ss') :
    ∀ p ∈ es, p.1 < ss.length := by
  apply Runs.trace_induct (P := fun es _ => ∀ p ∈ es, p.1 < ss.length) (by simp) _ h
  intro es us p us' hr ih hstep q hq
  rcases List.mem_append.mp hq with hq | hq
  · exact ih q hq
  · obtain rfl := List.mem_singleton.mp hq
    obtain ⟨u, v, hu, -, -⟩ := stepAt_eq_some.mp hstep
    rw [← hr.proj.1]
    exact (List.getElem?_eq_some_iff.mp hu).1

end

/-- What the parties have, added up, when one of them changes. -/
theorem sum_map_set {ss : List σ} {s t : σ} {i : Nat} (f : σ → Int) (hs : ss[i]? = some s) :
    ((ss.set i t).map f).sum = (ss.map f).sum - f s + f t := by
  obtain ⟨hi, rfl⟩ := List.getElem?_eq_some_iff.mp hs
  rw [List.map_set, List.sum_set', dif_pos (by rwa [List.length_map]), List.getElem_map]
  omega

/-- What the parties do, added up. -/
theorem sum_eventsOf (p : ε → Bool) (n : Nat) : ∀ es : List (Nat × ε), (∀ x ∈ es, x.1 < n) →
    ∑ i ∈ Finset.range n, (eventsOf i es).countP p = es.countP fun x => p x.2
  | [], _ => by simp [eventsOf]
  | (j, e) :: es, h => by
    have hj : j ∈ Finset.range n := Finset.mem_range.mpr (h (j, e) (by simp))
    have hcons : ∀ i, (eventsOf i ((j, e) :: es)).countP p =
        (eventsOf i es).countP p + if i = j then (if p e then 1 else 0) else 0 := by
      intro i
      by_cases hij : i = j
      · simp [eventsOf, hij, List.countP_cons]
      · simp [eventsOf, hij, Ne.symm hij]
    calc ∑ i ∈ Finset.range n, (eventsOf i ((j, e) :: es)).countP p
        = ∑ i ∈ Finset.range n, (eventsOf i es).countP p + if p e then 1 else 0 := by
          simp only [hcons, Finset.sum_add_distrib, Finset.sum_ite_eq', hj, if_true]
      _ = es.countP (fun x => p x.2) + if p e then 1 else 0 := by
          rw [sum_eventsOf p n es fun x hx => h x (List.mem_cons_of_mem _ hx)]
      _ = ((j, e) :: es).countP fun x => p x.2 := by rw [List.countP_cons]

end Exec
