import Mathlib.Data.Finset.Card
import Mathlib.Data.Finset.Basic
import Mathlib.Tactic

/-! Scattering by fetch-and-add: a task draws a ticket from the counter of its key and later writes
to the cell that it names. The cells written do not depend on the interleaving. -/
namespace Tickets
variable {T K V : Type} [DecidableEq T] [DecidableEq K]

structure State (T K V : Type) where
  counter : K → ℕ
  ticket : T → Option ℕ
  stored : T → Bool
  mem : ℕ → V

inductive Event (T : Type) where
  | draw (t : T)
  | store (t : T)
  deriving DecidableEq

def State.init (base : K → ℕ) (mem : ℕ → V) : State T K V :=
  ⟨base, fun _ => none, fun _ => false, mem⟩

/-- One event, if the task is due for it. -/
def exec (key : T → Option K) (payload : T → V) (s : State T K V) :
    Event T → Option (State T K V)
  | .draw t =>
    match key t, s.ticket t with
    | some k, none => some { s with
        counter := Function.update s.counter k (s.counter k + 1)
        ticket := Function.update s.ticket t (some (s.counter k)) }
    | _, _ => none
  | .store t =>
    match s.ticket t, s.stored t with
    | some r, false => some { s with
        stored := Function.update s.stored t true
        mem := Function.update s.mem r (payload t) }
    | _, _ => none

def run (key : T → Option K) (payload : T → V) (s : State T K V) (events : List (Event T)) :
    Option (State T K V) :=
  events.foldlM (exec key payload) s

/-- Every task with a key has drawn and stored. -/
def Complete (key : T → Option K) (s : State T K V) : Prop :=
  ∀ t, key t ≠ none → s.stored t = true

variable (key : T → Option K) (payload : T → V) (tasks : Finset T) (base : K → ℕ)
  (mem : ℕ → V)

/-- The tasks of a key. -/
def tasksOf (k : K) : Finset T := tasks.filter fun t => key t = some k

/-- The segments of cells that the keys' tickets come from do not meet. -/
def SegmentsDisjoint : Prop :=
  ∀ k k' r, base k ≤ r → r < base k + (tasksOf key tasks k).card →
    base k' ≤ r → r < base k' + (tasksOf key tasks k').card → k = k'

/-- What holds after any events: the counter of a key has moved by one per drawn ticket,
tickets of a key are distinct and fill the range behind its base, and a cell holds the
payload of the task that stored there or its old content. -/
structure Inv (s : State T K V) : Prop where
  counter : ∀ k, s.counter k =
    base k + ((tasksOf key tasks k).filter fun t => s.ticket t ≠ none).card
  drawn : ∀ t r, s.ticket t = some r → ∃ k, key t = some k ∧ base k ≤ r ∧ r < s.counter k
  onto : ∀ k r, base k ≤ r → r < s.counter k → ∃ t, key t = some k ∧ s.ticket t = some r
  inj : ∀ t t' k r, key t = some k → key t' = some k → s.ticket t = some r →
    s.ticket t' = some r → t = t'
  stored : ∀ t, s.stored t = true → ∃ r, s.ticket t = some r ∧ s.mem r = payload t
  other : ∀ r, (∀ t, s.stored t = true → s.ticket t ≠ some r) → s.mem r = mem r

variable {key payload tasks base mem}

omit [DecidableEq T] in
theorem Inv.init : Inv key payload tasks base mem (State.init base mem) := by
  refine ⟨?_, ?_, ?_, ?_, ?_, fun r _ => rfl⟩ <;> simp [State.init]

omit [DecidableEq T] in
theorem Inv.counter_le {s : State T K V} (h : Inv key payload tasks base mem s) (k : K) :
    s.counter k ≤ base k + (tasksOf key tasks k).card := by
  rw [h.counter]
  exact Nat.add_le_add_left (Finset.card_filter_le _ _) _

omit [DecidableEq T] in
theorem Inv.ticket_inj {s : State T K V} (h : Inv key payload tasks base mem s)
    (hdisj : SegmentsDisjoint key tasks base) {t t' : T} {r : ℕ} (ht : s.ticket t = some r)
    (ht' : s.ticket t' = some r) : t = t' := by
  obtain ⟨k, hk, h1, h2⟩ := h.drawn t r ht
  obtain ⟨k', hk', h1', h2'⟩ := h.drawn t' r ht'
  obtain rfl := hdisj k k' r h1 (lt_of_lt_of_le h2 (h.counter_le k)) h1'
    (lt_of_lt_of_le h2' (h.counter_le k'))
  exact h.inj t t' k r hk hk' ht ht'

theorem Inv.draw {s : State T K V} (h : Inv key payload tasks base mem s)
    {t : T} {k : K} (ht : t ∈ tasks) (hk : key t = some k) (hnone : s.ticket t = none) :
    Inv key payload tasks base mem { s with
      counter := Function.update s.counter k (s.counter k + 1)
      ticket := Function.update s.ticket t (some (s.counter k)) } := by
  have hmono (k' : K) : s.counter k' ≤
      Function.update s.counter k (s.counter k + 1) k' := by
    by_cases hkk : k' = k
    · subst hkk
      simp
    · simp [hkk]
  have hfresh (t' : T) (hk' : key t' = some k) : s.ticket t' ≠ some (s.counter k) := by
    intro hc
    obtain ⟨k', hk'', -, hlt⟩ := h.drawn t' _ hc
    rw [hk'] at hk''
    cases hk''
    omega
  refine ⟨?_, ?_, ?_, ?_, ?_, ?_⟩
  · intro k'
    by_cases hkk : k' = k
    · subst hkk
      have hset : ((tasksOf key tasks k').filter fun t' =>
          Function.update s.ticket t (some (s.counter k')) t' ≠ none) =
          insert t ((tasksOf key tasks k').filter fun t' => s.ticket t' ≠ none) := by
        ext t'
        by_cases htt : t' = t
        · subst htt
          simp [tasksOf, ht, hk]
        · simp [htt]
      have hnot : t ∉ (tasksOf key tasks k').filter fun t' => s.ticket t' ≠ none := by
        simp [hnone]
      dsimp only
      rw [hset, Finset.card_insert_of_notMem hnot, Function.update_self, h.counter k']
      omega
    · have hset : ((tasksOf key tasks k').filter fun t' =>
          Function.update s.ticket t (some (s.counter k)) t' ≠ none) =
          (tasksOf key tasks k').filter fun t' => s.ticket t' ≠ none := by
        refine Finset.filter_congr fun t' ht' => ?_
        have htt : t' ≠ t := by
          rintro rfl
          have := (Finset.mem_filter.mp ht').2
          rw [hk] at this
          exact hkk (Option.some.inj this).symm
        simp [htt]
      dsimp only
      rw [hset, Function.update_of_ne hkk, h.counter k']
  · intro t' r hr
    by_cases htt : t' = t
    · subst htt
      simp only [Function.update_self, Option.some.injEq] at hr
      subst hr
      exact ⟨k, hk, by rw [h.counter]; omega, by simp⟩
    · simp only [Function.update_of_ne htt] at hr
      obtain ⟨k', hk', h1, h2⟩ := h.drawn t' r hr
      exact ⟨k', hk', h1, lt_of_lt_of_le h2 (hmono k')⟩
  · intro k' r h1 h2
    by_cases hnew : k' = k ∧ r = s.counter k
    · exact ⟨t, hnew.1 ▸ hk, by simp [hnew.2]⟩
    · have h2' : r < s.counter k' := by
        by_cases hkk : k' = k
        · subst hkk
          simp only [Function.update_self] at h2
          have : r ≠ s.counter k' := fun e => hnew ⟨rfl, e⟩
          omega
        · simpa [hkk] using h2
      obtain ⟨t', hk', hr⟩ := h.onto k' r h1 h2'
      have htt : t' ≠ t := fun e => by rw [e, hnone] at hr; exact absurd hr (by simp)
      exact ⟨t', hk', by simp [htt, hr]⟩
  · intro a b k' r ha hb hra hrb
    by_cases hat : a = t
    · by_cases hbt : b = t
      · rw [hat, hbt]
      · subst hat
        simp only [Function.update_self, Option.some.injEq, Function.update_of_ne hbt] at hra hrb
        rw [hk] at ha
        cases ha
        exact absurd (hra ▸ hrb) (hfresh b hb)
    · by_cases hbt : b = t
      · subst hbt
        simp only [Function.update_self, Option.some.injEq, Function.update_of_ne hat] at hra hrb
        rw [hk] at hb
        cases hb
        exact absurd (hrb ▸ hra) (hfresh a ha)
      · simp only [Function.update_of_ne hat, Function.update_of_ne hbt] at hra hrb
        exact h.inj a b k' r ha hb hra hrb
  · intro t' ht'
    obtain ⟨r, hr, hm⟩ := h.stored t' ht'
    have htt : t' ≠ t := fun e => by rw [e, hnone] at hr; exact absurd hr (by simp)
    exact ⟨r, by simp [htt, hr], hm⟩
  · intro r hr
    refine h.other r fun t' ht' => ?_
    have htt : t' ≠ t := by
      rintro rfl
      obtain ⟨r', hr', -⟩ := h.stored t' ht'
      rw [hnone] at hr'
      exact absurd hr' (by simp)
    simpa [htt] using hr t' ht'

theorem Inv.store {s : State T K V} (h : Inv key payload tasks base mem s)
    (hdisj : SegmentsDisjoint key tasks base) {t : T} {r : ℕ} (ht : s.ticket t = some r) :
    Inv key payload tasks base mem { s with
      stored := Function.update s.stored t true
      mem := Function.update s.mem r (payload t) } := by
  refine ⟨h.counter, h.drawn, h.onto, h.inj, ?_, ?_⟩
  · intro t' ht'
    by_cases htt : t' = t
    · subst htt
      exact ⟨r, ht, by simp⟩
    · obtain ⟨r', hr', hm⟩ := h.stored t' (by simpa [htt] using ht')
      have hrr : r' ≠ r := by
        rintro rfl
        exact htt (h.ticket_inj hdisj hr' ht)
      exact ⟨r', hr', by simp [hrr, hm]⟩
  · intro r' hr'
    have hrr : r' ≠ r := by
      rintro rfl
      exact hr' t (by simp) ht
    simp only [Function.update_of_ne hrr]
    refine h.other r' fun t' ht' => ?_
    by_cases htt : t' = t
    · subst htt
      exact fun e => hrr (Option.some.inj (e.symm.trans ht))
    · exact hr' t' (by simpa [htt] using ht')

theorem Inv.exec {s s' : State T K V} (h : Inv key payload tasks base mem s)
    (hdisj : SegmentsDisjoint key tasks base) (htasks : ∀ t, key t ≠ none → t ∈ tasks)
    {e : Event T} (hs : exec key payload s e = some s') : Inv key payload tasks base mem s' := by
  cases e with
  | draw t =>
    cases hk : key t with
    | none => simp [Tickets.exec, hk] at hs
    | some k =>
      cases hn : s.ticket t with
      | some r => simp [Tickets.exec, hk, hn] at hs
      | none =>
        simp only [Tickets.exec, hk, hn, Option.some.injEq] at hs
        subst hs
        exact h.draw (htasks t (by simp [hk])) hk hn
  | store t =>
    cases hr : s.ticket t with
    | none => simp [Tickets.exec, hr] at hs
    | some r =>
      cases hst : s.stored t with
      | true => simp [Tickets.exec, hr, hst] at hs
      | false =>
        simp only [Tickets.exec, hr, hst, Option.some.injEq] at hs
        subst hs
        exact h.store hdisj hr

/-- The invariant after any sequence of events. -/
theorem Inv.run {s s' : State T K V} (h : Inv key payload tasks base mem s)
    (hdisj : SegmentsDisjoint key tasks base) (htasks : ∀ t, key t ≠ none → t ∈ tasks)
    {events : List (Event T)} (hs : run key payload s events = some s') :
    Inv key payload tasks base mem s' := by
  induction events generalizing s with
  | nil =>
    cases hs
    exact h
  | cons e events ih =>
    simp only [Tickets.run, List.foldlM_cons, Option.bind_eq_bind, Option.bind_eq_some_iff] at hs
    obtain ⟨s₁, h₁, hs⟩ := hs
    exact ih (h.exec hdisj htasks h₁) hs

omit [DecidableEq T] in
/-- After a complete run the cells behind a key's base hold its tasks, one each. -/
theorem Inv.complete {s : State T K V} (h : Inv key payload tasks base mem s)
    (hc : Complete key s) :
    (∀ t k, key t = some k → ∃ r, base k ≤ r ∧ r < base k + (tasksOf key tasks k).card ∧
        s.ticket t = some r ∧ s.mem r = payload t) ∧
    (∀ k r, base k ≤ r → r < base k + (tasksOf key tasks k).card →
        ∃ t, key t = some k ∧ s.ticket t = some r ∧ s.mem r = payload t) ∧
    (∀ r, (∀ k, r < base k ∨ base k + (tasksOf key tasks k).card ≤ r) → s.mem r = mem r) := by
  have hall (t : T) (k : K) (hk : key t = some k) : ∃ r, s.ticket t = some r ∧
      s.mem r = payload t := h.stored t (hc t (by simp [hk]))
  have hcounter (k : K) : s.counter k = base k + (tasksOf key tasks k).card := by
    rw [h.counter]
    congr 1
    refine congrArg Finset.card (Finset.filter_true_of_mem fun t ht => ?_)
    obtain ⟨r, hr, -⟩ := hall t k (Finset.mem_filter.mp ht).2
    simp [hr]
  refine ⟨?_, ?_, ?_⟩
  · intro t k hk
    obtain ⟨r, hr, hm⟩ := hall t k hk
    obtain ⟨k', hk', h1, h2⟩ := h.drawn t r hr
    rw [hk] at hk'
    cases hk'
    exact ⟨r, h1, hcounter k ▸ h2, hr, hm⟩
  · intro k r h1 h2
    obtain ⟨t, hk, hr⟩ := h.onto k r h1 (by rw [hcounter]; exact h2)
    obtain ⟨r', hr', hm⟩ := hall t k hk
    obtain rfl : r = r' := Option.some.inj (hr.symm.trans hr')
    exact ⟨t, hk, hr, hm⟩
  · intro r hout
    refine h.other r fun t ht hr => ?_
    obtain ⟨k, -, h1, h2⟩ := h.drawn t r hr
    rw [hcounter] at h2
    rcases hout k with h | h <;> omega

theorem stored_mono {s s' : State T K V} {e : Event T} (h : exec key payload s e = some s')
    {t : T} (ht : s.stored t = true) : s'.stored t = true := by
  cases e with
  | draw a =>
    cases hk : key a with
    | none => simp [Tickets.exec, hk] at h
    | some k =>
      cases hn : s.ticket a with
      | some r => simp [Tickets.exec, hk, hn] at h
      | none =>
        simp only [Tickets.exec, hk, hn, Option.some.injEq] at h
        subst h
        exact ht
  | store a =>
    cases hr : s.ticket a with
    | none => simp [Tickets.exec, hr] at h
    | some r =>
      cases hst : s.stored a with
      | true => simp [Tickets.exec, hr, hst] at h
      | false =>
        simp only [Tickets.exec, hr, hst, Option.some.injEq] at h
        subst h
        by_cases hta : t = a
        · simp [hta]
        · simp [hta, ht]

theorem run_stored_mono {s s' : State T K V} {events : List (Event T)}
    (h : run key payload s events = some s') {t : T} (ht : s.stored t = true) :
    s'.stored t = true := by
  induction events generalizing s with
  | nil =>
    cases h
    exact ht
  | cons e events ih =>
    simp only [Tickets.run, List.foldlM_cons, Option.bind_eq_bind, Option.bind_eq_some_iff] at h
    obtain ⟨s₁, h₁, h⟩ := h
    exact ih h (stored_mono h₁ ht)

theorem run_append {s s₁ s₂ : State T K V} {es es' : List (Event T)}
    (h : run key payload s es = some s₁) (h' : run key payload s₁ es' = some s₂) :
    run key payload s (es ++ es') = some s₂ := by
  simp only [Tickets.run, List.foldlM_append, Option.bind_eq_bind, Option.bind_eq_some_iff]
  exact ⟨s₁, h, h'⟩

theorem exists_run_stored (payload : T → V) (s : State T K V) {t : T} (hk : key t ≠ none) :
    ∃ events s', run key payload s events = some s' ∧ s'.stored t = true := by
  cases hst : s.stored t with
  | true => exact ⟨[], s, rfl, hst⟩
  | false =>
    cases hr : s.ticket t with
    | some r =>
      exact ⟨[.store t], _, by simp [Tickets.run, Tickets.exec, hr, hst]; rfl, by simp⟩
    | none =>
      obtain ⟨k, hk⟩ := Option.ne_none_iff_exists'.mp hk
      exact ⟨[.draw t, .store t], _, by simp [Tickets.run, Tickets.exec, hr, hk, hst]; rfl, by simp⟩

/-- No schedule gets stuck: any state can be run on until every task has stored. -/
theorem exists_run_complete (key : T → Option K) (payload : T → V) (tasks : Finset T)
    (htasks : ∀ t, key t ≠ none → t ∈ tasks) (s : State T K V) :
    ∃ events s', run key payload s events = some s' ∧ Complete key s' := by
  suffices h : ∀ (ts : List T) (s : State T K V), ∃ events s',
      run key payload s events = some s' ∧ ∀ t ∈ ts, key t ≠ none → s'.stored t = true by
    obtain ⟨events, s', hrun, hall⟩ := h tasks.toList s
    exact ⟨events, s', hrun, fun t ht => hall t (Finset.mem_toList.mpr (htasks t ht)) ht⟩
  intro ts
  induction ts with
  | nil => exact fun s => ⟨[], s, rfl, by simp⟩
  | cons t ts ih =>
    intro s
    obtain ⟨es₁, s₁, hrun₁, hall⟩ := ih s
    by_cases hk : key t = none
    · refine ⟨es₁, s₁, hrun₁, fun a ha hka => ?_⟩
      rcases List.mem_cons.mp ha with rfl | ha
      · exact absurd hk hka
      · exact hall a ha hka
    · obtain ⟨es₂, s₂, hrun₂, ht⟩ := exists_run_stored payload s₁ hk
      refine ⟨es₁ ++ es₂, s₂, run_append hrun₁ hrun₂, fun a ha hka => ?_⟩
      rcases List.mem_cons.mp ha with rfl | ha
      · exact ht
      · exact run_stored_mono hrun₂ (hall a ha hka)

end Tickets
