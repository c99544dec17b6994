import Mathlib.Tactic

/-! Computations that return a value or raise: how a successful run of a sequence splits into
successful runs of its parts, and rules, composed along the steps of a program, for what a returned
value satisfies and which failures are allowed. -/

/-- The exceptions a modelled statement can raise, by Python class. -/
inductive PyError where
  | valueError | runtimeError | assertionError | indexError | keyError | typeError
  | notImplementedError | stopIteration | zeroDivisionError | attributeError
  deriving DecidableEq, Repr

abbrev Raises (α : Type) := Except PyError α

namespace Raises
variable {α β : Type}

/-- A Python `assert`. -/
def require (p : Prop) [Decidable p] : Raises Unit :=
  if p then .ok () else .error .assertionError

@[simp] theorem bind_eq_ok {x : Raises α} {f : α → Raises β} {b : β} :
    (x >>= f) = .ok b ↔ ∃ a, x = .ok a ∧ f a = .ok b := by
  cases x with
  | error e | ok a => simp [bind, Except.bind]

theorem of_bind {x : Raises α} {f : α → Raises β} {b : β} (h : (x >>= f) = .ok b) :
    ∃ a, x = .ok a ∧ f a = .ok b := bind_eq_ok.mp h

@[simp] theorem pure_eq_ok {a b : α} : (pure a : Raises α) = .ok b ↔ a = b := by
  simp [pure, Except.pure]

@[simp] theorem require_eq_ok {p : Prop} [Decidable p] {u : Unit} :
    require p = .ok u ↔ p := by
  unfold require
  split <;> simp_all

@[simp] theorem raise_eq_ok (e : PyError) (a : α) :
    ((throw e : Raises α) = .ok a) = False := by
  simp [throw, throwThe, MonadExceptOf.throw]

/-- The result of a run, from a fact about it that has been evaluated. -/
theorem ok_bind (a : α) (f : α → Raises β) : ((.ok a : Raises α) >>= f) = f a := rfl

theorem exists_ok {x : Raises α} {f : α → β} {b : β} (h : x.toOption.map f = some b) :
    ∃ a, x = .ok a ∧ f a = b := by
  cases x with
  | error e => simp [Except.toOption] at h
  | ok a => exact ⟨a, rfl, by simpa [Except.toOption] using h⟩

/-- A sequence of runs succeeds if each of them does. -/
theorem mapM_eq_ok {f : α → Raises β} {l : List α} {bs : List β} :
    l.mapM f = .ok bs ↔ List.Forall₂ (fun a b => f a = .ok b) l bs := by
  induction l generalizing bs with
  | nil =>
    rw [List.mapM_nil, pure_eq_ok, List.forall₂_nil_left_iff]
    exact eq_comm
  | cons a l ih =>
    rw [List.mapM_cons, bind_eq_ok, List.forall₂_cons_left_iff]
    constructor
    · rintro ⟨b, hb, h⟩
      obtain ⟨rest, hrest, h⟩ := of_bind h
      cases h
      exact ⟨b, rest, hb, ih.mp hrest, rfl⟩
    · rintro ⟨b, rest, hb, hrest, rfl⟩
      exact ⟨b, hb, bind_eq_ok.mpr ⟨rest, ih.mpr hrest, pure_eq_ok.mpr rfl⟩⟩

/-- A sequence of runs, seen through functions that each of them respects. -/
theorem map_of_mapM {γ : Type} {f : α → Raises β} {g : β → γ} {h : α → γ} {l : List α}
    {bs : List β} (hl : l.mapM f = .ok bs) (hf : ∀ a ∈ l, ∀ b, f a = .ok b → g b = h a) :
    bs.map g = l.map h := by
  rw [mapM_eq_ok] at hl
  induction hl with
  | nil => rfl
  | cons hab _ ih =>
    rw [List.map_cons, List.map_cons, hf _ List.mem_cons_self _ hab,
      ih fun a ha => hf a (List.mem_cons_of_mem _ ha)]

variable {R : α → β → Prop}

theorem forall₂_of_mapM {f : α → Raises β} {l : List α} {bs : List β} (hl : l.mapM f = .ok bs)
    (hR : ∀ a ∈ l, ∀ b, f a = .ok b → R a b) : List.Forall₂ R l bs := by
  rw [mapM_eq_ok] at hl
  induction hl with
  | nil => exact .nil
  | cons hab _ ih =>
    exact .cons (hR _ List.mem_cons_self _ hab) (ih fun a ha => hR a (List.mem_cons_of_mem _ ha))

theorem exists_left_of_forall₂ {l : List α} {bs : List β} (h : List.Forall₂ R l bs) {b : β}
    (hb : b ∈ bs) : ∃ a ∈ l, R a b := by
  induction h with
  | nil => simp at hb
  | cons hab _ ih =>
    obtain rfl | hb := List.mem_cons.mp hb
    · exact ⟨_, List.mem_cons_self, hab⟩
    · obtain ⟨a, ha, hab⟩ := ih hb
      exact ⟨a, List.mem_cons_of_mem _ ha, hab⟩

theorem exists_right_of_forall₂ {l : List α} {bs : List β} (h : List.Forall₂ R l bs) {a : α}
    (ha : a ∈ l) : ∃ b ∈ bs, R a b := by
  induction h with
  | nil => simp at ha
  | cons hab _ ih =>
    obtain rfl | ha := List.mem_cons.mp ha
    · exact ⟨_, List.mem_cons_self, hab⟩
    · obtain ⟨b, hb, hab⟩ := ih ha
      exact ⟨b, List.mem_cons_of_mem _ hb, hab⟩

theorem mem_of_mapM {f : α → Raises β} {l : List α} {bs : List β} (hl : l.mapM f = .ok bs)
    {b : β} (hb : b ∈ bs) : ∃ a ∈ l, f a = .ok b :=
  exists_left_of_forall₂ (mapM_eq_ok.mp hl) hb

theorem mapM_of_mem {f : α → Raises β} {l : List α} {bs : List β} (hl : l.mapM f = .ok bs)
    {a : α} (ha : a ∈ l) : ∃ b ∈ bs, f a = .ok b :=
  exists_right_of_forall₂ (mapM_eq_ok.mp hl) ha

theorem getElem?_of_mapM {f : α → Raises β} {l : List α} {bs : List β} (hl : l.mapM f = .ok bs)
    {i : ℕ} {b : β} (hb : bs[i]? = some b) : ∃ a, l[i]? = some a ∧ f a = .ok b := by
  rw [mapM_eq_ok] at hl
  induction hl generalizing i with
  | nil => simp at hb
  | cons hab _ ih =>
    cases i with
    | zero =>
      cases hb
      exact ⟨_, rfl, hab⟩
    | succ i => exact ih hb

/-- A property that each run of a loop keeps is kept by the loop. -/
theorem foldlM_invariant {P : β → Prop} {f : β → α → Raises β} {l : List α} {b b' : β}
    (hstep : ∀ a ∈ l, ∀ b b', P b → f b a = .ok b' → P b') (hb : P b)
    (h : l.foldlM f b = .ok b') : P b' := by
  induction l generalizing b with
  | nil =>
    cases h
    exact hb
  | cons a l ih =>
    rw [List.foldlM_cons] at h
    obtain ⟨b₁, hb₁, h⟩ := of_bind h
    exact ih (fun x hx => hstep x (List.mem_cons_of_mem a hx))
      (hstep a List.mem_cons_self b b₁ hb hb₁) h

/-- A sequence of runs fails only where one of them does. -/
theorem mapM_eq_error {ε : Type} {f : α → Except ε β} {l : List α} {e : ε}
    (h : l.mapM f = .error e) : ∃ a ∈ l, f a = .error e := by
  induction l with
  | nil => simp [pure, Except.pure] at h
  | cons a l ih =>
    rw [List.mapM_cons] at h
    cases ha : f a with
    | error e' =>
      simp only [ha, bind, Except.bind, Except.error.injEq] at h
      exact ⟨a, List.mem_cons_self, h ▸ ha⟩
    | ok b =>
      cases hl : l.mapM f with
      | error e' =>
        simp only [ha, hl, bind, Except.bind, Except.error.injEq] at h
        obtain ⟨a', hmem, ha'⟩ := ih (h ▸ hl)
        exact ⟨a', List.mem_cons_of_mem a hmem, ha'⟩
      | ok bs => simp [ha, hl, bind, Except.bind, pure, Except.pure] at h

end Raises

namespace Outcome
variable {ε α β : Type} {E E' : ε → Prop} {P Q : α → Prop}

/-- A returned value satisfies `P`, and only failures in `E` occur. -/
def Meets (E : ε → Prop) (P : α → Prop) (x : Except ε α) : Prop :=
  match x with
  | .ok a => P a
  | .error e => E e

theorem meets_pure {a : α} (h : P a) : Meets E P (pure a : Except ε α) := h

variable {x : Except ε α} {f : α → Except ε β}

section
variable (h : Meets E P x)
include h

theorem Meets.of_ok {a : α} (hx : x = .ok a) : P a := by
  rw [hx] at h
  exact h

theorem Meets.mono (hE : ∀ e, E e → E' e) (hP : ∀ a, P a → Q a) : Meets E' Q x := by
  cases x with
  | ok a => exact hP a h
  | error e => exact hE e h

theorem Meets.imp (hP : ∀ a, P a → Q a) : Meets E Q x :=
  h.mono (fun _ he => he) hP

/-- The second step starts from what the first returns. -/
theorem Meets.bind {Q : β → Prop} (hf : ∀ a, P a → Meets E Q (f a)) : Meets E Q (x >>= f) := by
  cases x with
  | ok a => exact hf a h
  | error e => exact h

end

theorem meets_ite {c : Prop} [Decidable c] {y : Except ε α} (hx : c → Meets E P x)
    (hy : ¬ c → Meets E P y) : Meets E P (if c then x else y) := by
  split
  · exact hx ‹_›
  · exact hy ‹_›

/-- The loop rule: every round keeps the invariant. -/
theorem meets_foldlM {I : β → Prop} {f : β → α → Except ε β} {l : List α} {b : β} (hb : I b)
    (hstep : ∀ a ∈ l, ∀ b, I b → Meets E I (f b a)) : Meets E I (l.foldlM f b) := by
  induction l generalizing b with
  | nil => exact hb
  | cons a l ih =>
    rw [List.foldlM_cons]
    have hfirst : Meets E I (f b a) := hstep a List.mem_cons_self b hb
    apply hfirst.bind
    intro b' hb'
    exact ih hb' fun x hx => hstep x (List.mem_cons_of_mem a hx)

theorem meets_mapM {R : α → β → Prop} {l : List α} (hstep : ∀ a ∈ l, Meets E (R a) (f a)) :
    Meets E (List.Forall₂ R l) (l.mapM f) := by
  induction l with
  | nil => exact List.Forall₂.nil
  | cons a l ih =>
    rw [List.mapM_cons]
    have hfirst : Meets E (R a) (f a) := hstep a List.mem_cons_self
    apply hfirst.bind
    intro b hb
    have hrest : Meets E (List.Forall₂ R l) (l.mapM f) :=
      ih fun x hx => hstep x (List.mem_cons_of_mem a hx)
    apply hrest.bind
    intro bs hbs
    exact List.Forall₂.cons hb hbs

/-- A sequence fails only as its elements do. -/
theorem meets_mapM_of_forall {l : List α} (hstep : ∀ a ∈ l, Meets E (fun _ => True) (f a)) :
    Meets E (fun _ => True) (l.mapM f) :=
  (meets_mapM hstep).imp fun _ _ => trivial

end Outcome
