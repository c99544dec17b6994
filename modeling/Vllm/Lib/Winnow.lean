import Mathlib.Tactic

/-! Parser combinators on texts. A parser yields a value with the text after it, or it fails: for
good, or because the text ends where more is needed. The primitives are a parameter. -/
namespace Winnow

inductive Parsed (α : Type) where
  | ok (value : α) (rest : List Char)
  | incomplete
  | backtrack
  | cut
  deriving DecidableEq, Repr

abbrev Parser (α : Type) := List Char → Parsed α

variable {α β : Type}

def Parsed.andThen (r : Parsed α) (f : α → Parser β) : Parsed β :=
  match r with
  | .ok value rest => f value rest
  | .incomplete => .incomplete
  | .backtrack => .backtrack
  | .cut => .cut

def Parsed.map (f : α → β) (r : Parsed α) : Parsed β := r.andThen fun value rest => .ok
    (f value) rest

namespace Parser

def bind (p : Parser α) (f : α → Parser β) : Parser β := fun s => (p s).andThen f

def map (f : α → β) (p : Parser α) : Parser β := fun s => (p s).map f

/-- One parser after the other; the second value counts. -/
def then' (p : Parser α) (q : Parser β) : Parser β := p.bind fun _ => q

/-- One parser after the other; the first value counts. -/
def terminated (p : Parser α) (q : Parser β) : Parser α := p.bind fun a => q.map fun _ => a

def delimited {γ : Type} (p : Parser γ) (q : Parser α) (r : Parser β) : Parser α :=
  then' p (terminated q r)

/-- The second parser tries where the first one gave up. -/
def alt (p q : Parser α) : Parser α := fun s =>
  match p s with
  | .backtrack => q s
  | r => r

def opt (p : Parser α) : Parser (Option α) := fun s =>
  match p s with
  | .backtrack => .ok none s
  | r => r.map some

/-- Nothing, where the value does not pass. -/
def verify (p : Parser α) (test : α → Bool) : Parser α := fun s =>
  match p s with
  | .ok value rest => if test value then .ok value rest else .backtrack
  | r => r

def eof : Parser Unit := fun s => if s = [] then .ok () [] else .backtrack

end Parser

def isSpace (c : Char) : Bool := c = ' ' || c = '\t' || c = '\r' || c = '\n'

end Winnow

/-- The primitives of the parser package. With `streaming` the text may still grow. -/
structure Winnow where
  literal (streaming : Bool) (tag : List Char) : Winnow.Parser Unit
  multispace0 (streaming : Bool) : Winnow.Parser Unit
  takeUntil (streaming : Bool) (atLeast : ℕ) (tag : List Char) : Winnow.Parser (List Char)
  takeTill (streaming : Bool) (atLeast : ℕ) (stop : Char → Bool) : Winnow.Parser (List Char)
  repeat0 {α : Type} (p : Winnow.Parser α) : Winnow.Parser (List α)
  separated0 {α : Type} (p : Winnow.Parser α) (sep : Winnow.Parser Unit) : Winnow.Parser (List α)
  literal_ok {streaming : Bool} {tag s : List Char} (h : tag <+: s) :
    literal streaming tag s = .ok () (s.drop tag.length)
  literal_incomplete {tag s : List Char} (h : s <+: tag) (hne : s ≠ tag) :
    literal true tag s = .incomplete
  literal_backtrack {streaming : Bool} {tag s : List Char} (h : ¬tag <+: s) (h' : ¬s <+: tag) :
    literal streaming tag s = .backtrack
  multispace0_ok {s : List Char} (h : s.dropWhile Winnow.isSpace ≠ []) :
    multispace0 true s = .ok () (s.dropWhile Winnow.isSpace)
  multispace0_incomplete {s : List Char} (h : s.dropWhile Winnow.isSpace = []) :
    multispace0 true s = .incomplete
  takeUntil_ok {streaming : Bool} {atLeast : ℕ} {tag s value rest : List Char}
    (h : takeUntil streaming atLeast tag s = .ok value rest) : s = value ++ rest ∧ tag <+: rest

namespace Winnow
variable {α β : Type}

theorem Parsed.andThen_eq_ok {r : Parsed α} {f : α → Parser β} {b : β} {rest : List Char} :
    r.andThen f = .ok b rest ↔ ∃ a s, r = .ok a s ∧ f a s = .ok b rest := by
  cases r with
  | ok value s | incomplete | backtrack | cut => simp [andThen]

theorem Parsed.map_eq_ok {r : Parsed α} {f : α → β} {b : β} {rest : List Char} :
    r.map f = .ok b rest ↔ ∃ a, r = .ok a rest ∧ f a = b := by
  rw [map, andThen_eq_ok]
  constructor
  · rintro ⟨a, s, hr, heq⟩
    cases heq
    exact ⟨a, hr, rfl⟩
  · rintro ⟨a, hr, rfl⟩
    exact ⟨a, rest, hr, rfl⟩

theorem eq_append_of_literal {w : Winnow} {tag s rest : List Char} {u : Unit}
    (h : w.literal true tag s = .ok u rest) : s = tag ++ rest := by
  by_cases htag : tag <+: s
  · rw [w.literal_ok htag] at h
    cases h
    rcases htag with ⟨rest, rfl⟩
    rw [List.drop_left]
  · by_cases hpart : s <+: tag
    · rw [w.literal_incomplete hpart fun heq => htag (heq ▸ List.prefix_refl _)] at h
      cases h
    · rw [w.literal_backtrack htag hpart] at h
      cases h

theorem literal_cases (w : Winnow) (tag s : List Char) :
    (∃ rest, w.literal true tag s = .ok () rest ∧ s = tag ++ rest) ∨
      w.literal true tag s = .incomplete ∨ w.literal true tag s = .backtrack := by
  by_cases htag : tag <+: s
  · left
    rcases htag with ⟨rest, rfl⟩
    exact ⟨rest, by rw [w.literal_ok (List.prefix_append _ _), List.drop_left], rfl⟩
  · right
    by_cases hpart : s <+: tag
    · left
      exact w.literal_incomplete hpart fun heq => htag (heq ▸ List.prefix_refl _)
    · right
      exact w.literal_backtrack htag hpart

end Winnow

namespace Winnow.Reference
variable {α : Type}

/-- How a primitive ends that needs more text than there is. -/
def starved (streaming : Bool) : Parsed α := if streaming then .incomplete else .backtrack

def literal (streaming : Bool) (tag : List Char) : Parser Unit := fun s =>
  if tag <+: s then .ok () (s.drop tag.length)
  else if s <+: tag then starved streaming else .backtrack

def multispace0 (streaming : Bool) : Parser Unit := fun s =>
  if streaming ∧ s.dropWhile isSpace = [] then .incomplete else .ok () (s.dropWhile isSpace)

/-- The text before the first `tag`. -/
def splitAt (tag : List Char) : List Char → Option (List Char × List Char)
  | [] => if tag = [] then some ([], []) else none
  | c :: s =>
    if tag <+: c :: s then some ([], c :: s) else (splitAt tag s).map fun (a, b) => (c :: a, b)

def takeUntil (streaming : Bool) (atLeast : ℕ) (tag : List Char) : Parser (List Char) := fun s =>
  match splitAt tag s with
  | some (value, rest) => if atLeast ≤ value.length then .ok value rest else starved streaming
  | none => starved streaming

def takeTill (streaming : Bool) (atLeast : ℕ) (stop : Char → Bool) : Parser (List Char) := fun s =>
  let value := s.takeWhile fun c => !stop c
  if streaming ∧ value = s then .incomplete
  else if atLeast ≤ value.length then .ok value (s.drop value.length) else .backtrack

/-- Parsing that goes on while `p` consumes something. -/
def repeatFrom (p : Parser α) : ℕ → Parser (List α)
  | 0 => fun s => .ok [] s
  | n + 1 => fun s =>
    match p s with
    | .ok a rest =>
      if rest.length = s.length then .cut else (repeatFrom p n rest).map fun as => a :: as
    | .backtrack => .ok [] s
    | .incomplete => .incomplete
    | .cut => .cut

def repeat0 (p : Parser α) : Parser (List α) := fun s => repeatFrom p (s.length + 1) s

def separated0 (p : Parser α) (sep : Parser Unit) : Parser (List α) := fun s =>
  match p s with
  | .ok a rest => (repeat0 (Parser.then' sep p) rest).map fun as => a :: as
  | .backtrack => .ok [] s
  | .incomplete => .incomplete
  | .cut => .cut

theorem splitAt_eq_some {tag s value rest : List Char} (h : splitAt tag s = some (value, rest)) :
    s = value ++ rest ∧ tag <+: rest := by
  induction s generalizing value with
  | nil =>
    rw [splitAt] at h
    split_ifs at h with htag
    cases h
    simp [htag]
  | cons c s ih =>
    rw [splitAt] at h
    split_ifs at h with htag
    · cases h
      exact ⟨rfl, htag⟩
    · rcases hsplit : splitAt tag s with - | ⟨a, b⟩
      · simp [hsplit] at h
      · simp only [hsplit, Option.map_some, Option.some.injEq, Prod.mk.injEq] at h
        rcases h with ⟨rfl, rfl⟩
        rcases ih hsplit with ⟨heq, htag⟩
        exact ⟨by rw [List.cons_append, heq], htag⟩

end Winnow.Reference

/-- The primitives as functions. -/
def Winnow.reference : Winnow where
  literal := Reference.literal
  multispace0 := Reference.multispace0
  takeUntil := Reference.takeUntil
  takeTill := Reference.takeTill
  repeat0 := Reference.repeat0
  separated0 := Reference.separated0
  literal_ok h := if_pos h
  literal_incomplete {tag s} h hne := by
    have hlong : ¬tag <+: s := fun h' => hne (h.eq_of_length_le h'.length_le)
    rw [Reference.literal, if_neg hlong, if_pos h, Reference.starved, if_pos rfl]
  literal_backtrack h h' := by rw [Reference.literal, if_neg h, if_neg h']
  multispace0_ok h := by rw [Reference.multispace0, if_neg fun h' => h h'.2]
  multispace0_incomplete h := by rw [Reference.multispace0, if_pos ⟨rfl, h⟩]
  takeUntil_ok {streaming atLeast tag s value rest} h := by
    rw [Reference.takeUntil] at h
    split at h
    next a b hsplit =>
      split_ifs at h with hle
      · cases h
        exact Reference.splitAt_eq_some hsplit
      · rw [Reference.starved] at h
        split_ifs at h
    next =>
      rw [Reference.starved] at h
      split_ifs at h
