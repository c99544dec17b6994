import Mathlib.Tactic

/-! Systems that take one event at a time: what one event preserves, a run preserves, and the events
of one party that only looks at the others can be left out. -/
namespace Interleaving
variable {σ ε : Type}

/-- The state after a list of events, if each of them can happen. -/
def run (step : σ → ε → Option σ) (s : σ) (es : List ε) : Option σ := es.foldlM step s

variable {step : σ → ε → Option σ} {s t u : σ} {es es' : List ε} {e : ε}

@[simp] theorem run_nil : run step s [] = some s := rfl

theorem run_cons :
    run step s (e :: es) = some u ↔ ∃ t, step s e = some t ∧ run step t es = some u := by
  simp only [run, List.foldlM_cons, Option.bind_eq_bind, Option.bind_eq_some_iff]

theorem run_append :
    run step s (es ++ es') = some u ↔ ∃ t, run step s es = some t ∧ run step t es' = some u := by
  simp only [run, List.foldlM_append, Option.bind_eq_bind, Option.bind_eq_some_iff]

theorem run_singleton : run step s [e] = some t ↔ step s e = some t := by
  rw [run_cons]
  simp

/-- The states of the runs whose steps all meet a condition. -/
inductive Reachable (step : σ → ε → Option σ) (ok : σ → ε → Prop) (init : σ) : σ → Prop
  | init : Reachable step ok init init
  | step {s s' : σ} {e : ε} (h : Reachable step ok init s) (hok : ok s e)
      (hstep : step s e = some s') : Reachable step ok init s'

variable {ok ok' : σ → ε → Prop} {init : σ}

/-- A property of the initial state that steps preserve. -/
theorem Reachable.rule {P : σ → Prop} (hinit : P init)
    (hstep : ∀ s e s', P s → ok s e → step s e = some s' → P s')
    (h : Reachable step ok init s) : P s := by
  induction h with
  | init => exact hinit
  | step h hok hs ih => exact hstep _ _ _ ih hok hs

theorem Reachable.run (h : Reachable step ok init s) (hok : ∀ s, ∀ e ∈ es, ok s e)
    (hrun : run step s es = some t) : Reachable step ok init t := by
  induction es generalizing s with
  | nil =>
    cases hrun
    exact h
  | cons e es ih =>
    obtain ⟨u, hu, hrun⟩ := run_cons.mp hrun
    exact ih (.step h (hok s e List.mem_cons_self) hu)
      (fun s e he => hok s e (List.mem_cons_of_mem _ he)) hrun

theorem run_rule {P : σ → Prop} {kind : ε → Prop}
    (hstep : ∀ s e s', P s → kind e → step s e = some s' → P s') (hkind : ∀ e ∈ es, kind e)
    (hs : P s) (hrun : Interleaving.run step s es = some t) : P t := by
  induction es generalizing s with
  | nil =>
    cases hrun
    exact hs
  | cons e es ih =>
    obtain ⟨u, hu, hrun⟩ := run_cons.mp hrun
    exact ih (fun e he => hkind e (List.mem_cons_of_mem _ he))
      (hstep _ _ _ hs (hkind e List.mem_cons_self) hu) hrun

/-- Some events of a kind take one state to another. -/
def Leads (step : σ → ε → Option σ) (kind : ε → Prop) (s t : σ) : Prop :=
  ∃ es, (∀ e ∈ es, kind e) ∧ Interleaving.run step s es = some t

variable {kind kind' : ε → Prop}

theorem Leads.refl : Leads step kind s s := ⟨[], by simp, rfl⟩

theorem Leads.trans (h : Leads step kind s t) (h' : Leads step kind t u) : Leads step kind s u := by
  obtain ⟨es, hes, hrun⟩ := h
  obtain ⟨es', hes', hrun'⟩ := h'
  refine ⟨es ++ es', ?_, run_append.mpr ⟨t, hrun, hrun'⟩⟩
  intro e he
  obtain he | he := List.mem_append.mp he
  · exact hes e he
  · exact hes' e he

theorem Leads.single (hkind : kind e) (h : step s e = some t) : Leads step kind s t :=
  ⟨[e], by simpa using hkind, run_singleton.mpr h⟩

/-- One event, and then some more. -/
theorem Leads.head (hkind : kind e) (h : step s e = some t) (h' : Leads step kind t u) :
    Leads step kind s u := (Leads.single hkind h).trans h'

theorem Reachable.leads (h : Reachable step ok init s) (hok : ∀ s e, kind e → ok s e)
    (hleads : Leads step kind s t) : Reachable step ok init t := by
  obtain ⟨es, hes, hrun⟩ := hleads
  exact h.run (fun s e he => hok s e (hes e he)) hrun

/-- A run without the events of one party, as long as that party stays in `Q`: its own events
keep the relation to the run without them, and those of the others can happen there too. -/
theorem run_erase {R : σ → σ → Prop} {Q : σ → Prop} {own : ε → Bool}
    (hback : ∀ s e s', kind e → step s e = some s' → Q s' → Q s)
    (hown : ∀ s t e s', R s t → own e → kind e → step s e = some s' → Q s' → R s' t)
    (hother : ∀ s t e s', R s t → ¬own e → kind e → step s e = some s' → Q s' →
      ∃ t', step t e = some t' ∧ R s' t')
    (hkind : ∀ e ∈ es, kind e) (hR : R s t) (hrun : Interleaving.run step s es = some u)
    (hQ : Q u) :
    ∃ t', Interleaving.run step t (es.filter fun e => !own e) = some t' ∧ R u t' := by
  have hstays : ∀ {es : List ε} {s : σ}, (∀ e ∈ es, kind e) →
      Interleaving.run step s es = some u → Q s := by
    intro es
    induction es with
    | nil =>
      intro s _ hrun
      cases hrun
      exact hQ
    | cons e es ih =>
      intro s hkind hrun
      obtain ⟨s', hs', hrun⟩ := run_cons.mp hrun
      exact hback s e s' (hkind e List.mem_cons_self) hs'
        (ih (fun e he => hkind e (List.mem_cons_of_mem _ he)) hrun)
  induction es generalizing s t with
  | nil =>
    cases hrun
    exact ⟨t, rfl, hR⟩
  | cons e es ih =>
    obtain ⟨s', hs', hrun⟩ := run_cons.mp hrun
    have hrest : ∀ e ∈ es, kind e := fun e he => hkind e (List.mem_cons_of_mem _ he)
    have hQ' := hstays hrest hrun
    have hkinde := hkind e List.mem_cons_self
    by_cases he : own e
    · rw [List.filter_cons_of_neg (by simpa using he)]
      exact ih hrest (hown s t e s' hR he hkinde hs' hQ') hrun
    · obtain ⟨t', ht', hR'⟩ := hother s t e s' hR he hkinde hs' hQ'
      rw [List.filter_cons_of_pos (by simpa using he)]
      obtain ⟨u', hu', hRu⟩ := ih hrest hR' hrun
      exact ⟨u', run_cons.mpr ⟨t', ht', hu'⟩, hRu⟩

end Interleaving
