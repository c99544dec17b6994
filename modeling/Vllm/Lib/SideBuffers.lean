import Mathlib.Data.List.Basic
import Mathlib.Data.List.Infix
import Mathlib.Data.List.Forall2

/-! Encoders that put a part of what they encode into a list of side buffers, and decoders that
look it up there. The list only grows, so that what was stashed stays in its place. -/
namespace SideBuffers
variable {β γ γ' ζ ι ε α α' α'' : Type}

/-- An encoder into `γ` that may add buffers. -/
abbrev Stashing (β γ : Type) := StateM (List β) γ

/-- Adds a buffer and returns its position. -/
def stash (b : β) : Stashing β ℕ := fun bufs => (bufs.length, bufs ++ [b])

def encoded (enc : Stashing β γ) (bufs : List β) : γ := (StateT.run enc bufs).1

def buffers (enc : Stashing β γ) (bufs : List β) : List β := (StateT.run enc bufs).2

/-- Whatever was stashed before and is stashed later, the encoded value satisfies `P`. -/
def Yields (enc : Stashing β γ) (P : List β → γ → Prop) : Prop :=
  ∀ bufs, bufs <+: buffers enc bufs ∧
    ∀ later, buffers enc bufs <+: later → P later (encoded enc bufs)

/-- The decoder returns `a`. -/
def RoundTrips (enc : Stashing β γ) (dec : List β → γ → Except ε α) (a : α) : Prop :=
  Yields enc fun bufs v => dec bufs v = .ok a

namespace Yields
variable {enc : Stashing β γ} {enc' : Stashing β γ'} {P : List β → γ → Prop}
  {P' : List β → γ' → Prop}

/-- A value that needs no buffers. -/
theorem of_pure {v : γ} (h : ∀ bufs, P bufs v) : Yields (pure v : Stashing β γ) P := by
  intro bufs
  exact ⟨List.prefix_rfl, fun later _ => h later⟩

/-- A buffer is found at its position. -/
theorem of_stash {b : β} {f : ℕ → γ} (h : ∀ bufs i, bufs[i]? = some b → P bufs (f i)) :
    Yields (do let i ← stash b; pure (f i)) P := by
  intro bufs
  refine ⟨List.prefix_append bufs [b], ?_⟩
  rintro later ⟨rest, rfl⟩
  apply h
  show ((bufs ++ [b]) ++ rest)[bufs.length]? = some b
  rw [List.append_assoc, List.getElem?_append_right (Nat.le_refl _), Nat.sub_self]
  rfl

section
variable (h : Yields enc P)
include h

theorem imp {Q : List β → γ → Prop} (hP : ∀ bufs v, P bufs v → Q bufs v) : Yields enc Q := by
  intro bufs
  rcases h bufs with ⟨hgrow, hvalue⟩
  exact ⟨hgrow, fun later hlater => hP later _ (hvalue later hlater)⟩

/-- The value is wrapped. -/
theorem map {f : γ → γ'} (hf : ∀ bufs v, P bufs v → P' bufs (f v)) :
    Yields (do let v ← enc; pure (f v)) P' := by
  intro bufs
  rcases h bufs with ⟨hgrow, hvalue⟩
  exact ⟨hgrow, fun later hlater => hf later _ (hvalue later hlater)⟩

/-- Two parts, one after the other. -/
theorem seq (h' : Yields enc' P') {f : γ → γ' → ζ} {Q : List β → ζ → Prop}
    (hf : ∀ bufs v v', P bufs v → P' bufs v' → Q bufs (f v v')) :
    Yields (do let v ← enc; let v' ← enc'; pure (f v v')) Q := by
  intro bufs
  rcases h bufs with ⟨hgrow, hvalue⟩
  rcases h' (buffers enc bufs) with ⟨hgrow', hvalue'⟩
  constructor
  · exact hgrow.trans hgrow'
  · intro later hlater
    apply hf
    · exact hvalue later (hgrow'.trans hlater)
    · exact hvalue' later hlater

/-- What holds of the value with its own buffers. -/
theorem result : P (buffers enc []) (encoded enc []) :=
  (h []).2 _ List.prefix_rfl

end

end Yields

/-- A list, element by element. -/
theorem RoundTrips.mapM {enc : ι → Stashing β γ} {dec : List β → γ → Except ε α} {value : ι → α}
    {l : List ι} (h : ∀ x ∈ l, RoundTrips (enc x) dec (value x)) :
    RoundTrips (l.mapM enc) (fun bufs vs => vs.mapM (dec bufs)) (l.map value) := by
  induction l with
  | nil => exact Yields.of_pure fun _ => rfl
  | cons x l ih =>
    rw [List.mapM_cons]
    have hfirst := h x List.mem_cons_self
    have hrest := ih fun y hy => h y (List.mem_cons_of_mem x hy)
    apply Yields.seq hfirst hrest
    intro bufs v vs hv hvs
    dsimp only at hvs ⊢
    rw [List.mapM_cons, hv]
    show (do let vs ← vs.mapM (dec bufs); pure (value x :: vs)) = _
    rw [hvs]
    rfl

end SideBuffers
