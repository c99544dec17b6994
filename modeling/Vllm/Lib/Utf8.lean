import Vllm.Lib.Occurrences

/-! Texts as characters and as UTF-8 bytes. The bytes of a text stand in those of another exactly
where its characters do, so positions in bytes and in characters translate into each other. -/
namespace Utf8
open Occurrences

def bytes (s : List Char) : List UInt8 := s.flatMap String.utf8EncodeChar

/-- The length in bytes. -/
def size (s : List Char) : ℕ := (bytes s).length

variable {s t l m : List Char} {c : Char} {n i : ℕ}

@[simp] theorem bytes_nil : bytes [] = [] := rfl

@[simp] theorem bytes_cons : bytes (c :: s) = String.utf8EncodeChar c ++ bytes s :=
  List.flatMap_cons

@[simp] theorem bytes_append : bytes (s ++ t) = bytes s ++ bytes t := List.flatMap_append

@[simp] theorem size_nil : size [] = 0 := rfl

@[simp] theorem size_append : size (s ++ t) = size s + size t := by simp [size]

theorem size_cons : size (c :: s) = c.utf8Size + size s := by simp [size]

theorem size_pos (h : s ≠ []) : 0 < size s := by
  obtain ⟨c, s, rfl⟩ := List.exists_cons_of_ne_nil h
  rw [size_cons]
  have hc := c.utf8Size_pos
  omega

theorem bytes_ne_nil (h : s ≠ []) : bytes s ≠ [] := List.length_pos_iff.mp (size_pos h)

theorem utf8Encode_eq : s.utf8Encode = (bytes s).toByteArray := rfl

theorem prefix_of_bytes (h : bytes l <+: bytes m) : l <+: m := by
  obtain ⟨b, hb⟩ := h
  refine List.isPrefix_of_utf8Encode_append_eq_utf8Encode b.toByteArray ?_
  rw [utf8Encode_eq, utf8Encode_eq, ← hb, List.toByteArray_append]

theorem bytes_prefix (h : l <+: m) : bytes l <+: bytes m := by
  obtain ⟨t, rfl⟩ := h
  rw [bytes_append]
  exact List.prefix_append _ _

theorem not_prefix_drop {d : Char} {b : ℕ} (hpos : 0 < b) (hlt : b < c.utf8Size) :
    ¬bytes (d :: l) <+: (bytes (c :: s)).drop b := by
  intro h
  have hlen : b < (String.utf8EncodeChar c).length := by rwa [String.length_utf8EncodeChar]
  have hdpos : 0 < (String.utf8EncodeChar d).length := by
    rw [String.length_utf8EncodeChar]
    exact d.utf8Size_pos
  have hget : (bytes (d :: l))[0]? = (bytes (c :: s))[b]? := by
    obtain ⟨t, ht⟩ := h
    have hlong : 0 < (bytes (d :: l)).length := by
      rw [bytes_cons, List.length_append]
      omega
    have hleft : (bytes (d :: l) ++ t)[0]? = (bytes (d :: l))[0]? := List.getElem?_append_left hlong
    rw [← hleft, ht, List.getElem?_drop, Nat.add_zero]
  rw [bytes_cons, bytes_cons, List.getElem?_append_left hdpos, List.getElem?_append_left hlen,
    List.getElem?_eq_getElem hdpos, List.getElem?_eq_getElem hlen] at hget
  have hfirst : ((String.utf8EncodeChar c)[b]).IsUTF8FirstByte :=
    Option.some.inj hget ▸ UInt8.isUTF8FirstByte_getElem_zero_utf8EncodeChar
  rw [UInt8.isUTF8FirstByte_getElem_utf8EncodeChar] at hfirst
  omega

/-- An encoded text can only stand where a character starts. -/
theorem occursAt_bytes (hne : l ≠ []) {b : ℕ} (h : OccursAt (bytes l) (bytes s) b) :
    ∃ i ≤ s.length, b = size (s.take i) ∧ OccursAt l s i := by
  induction s generalizing b with
  | nil =>
    have hle := h.le (bytes_ne_nil hne)
    have hpos := List.length_pos_iff.mpr (bytes_ne_nil hne)
    simp only [bytes_nil, List.length_nil] at hle
    omega
  | cons c s ih =>
    obtain rfl | hb := Nat.eq_zero_or_pos b
    · exact ⟨0, Nat.zero_le _, rfl, prefix_of_bytes h⟩
    obtain hlt | hge := Nat.lt_or_ge b c.utf8Size
    · obtain ⟨d, l, rfl⟩ := List.exists_cons_of_ne_nil hne
      exact absurd h (not_prefix_drop hb hlt)
    · have hrest : OccursAt (bytes l) (bytes s) (b - c.utf8Size) := by
        rw [OccursAt, bytes_cons, List.drop_append, List.drop_eq_nil_of_le (by simpa using hge),
          String.length_utf8EncodeChar] at h
        exact h
      obtain ⟨i, hi, hsize, hoccurs⟩ := ih hrest
      refine ⟨i + 1, Nat.succ_le_succ hi, ?_, hoccurs⟩
      rw [List.take_succ_cons, size_cons]
      omega

theorem drop_bytes (i : ℕ) : (bytes s).drop (size (s.take i)) = bytes (s.drop i) := by
  have hsplit : bytes s = bytes (s.take i) ++ bytes (s.drop i) := by
    rw [← bytes_append, List.take_append_drop]
  rw [hsplit]
  exact List.drop_left

theorem occursAt_chars (h : OccursAt l s i) : OccursAt (bytes l) (bytes s) (size (s.take i)) := by
  rw [OccursAt, drop_bytes]
  exact bytes_prefix h

theorem size_take_lt {j : ℕ} (hij : i < j) (hj : j ≤ s.length) :
    size (s.take i) < size (s.take j) := by
  have hsplit : s.take j = s.take i ++ (s.drop i).take (j - i) := by
    rw [← List.take_add, Nat.add_sub_cancel' hij.le]
  rw [hsplit, size_append]
  have hpos := size_pos (s := (s.drop i).take (j - i)) (by
    rw [ne_eq, ← List.length_eq_zero_iff, List.length_take, List.length_drop]
    omega)
  omega

theorem size_take_le_iff {j : ℕ} (hi : i ≤ s.length) (hj : j ≤ s.length) :
    size (s.take i) ≤ size (s.take j) ↔ i ≤ j := by
  constructor
  · intro h
    by_contra hlt
    have hsize := size_take_lt (s := s) (Nat.lt_of_not_le hlt) hi
    omega
  · intro h
    obtain hlt | rfl := Nat.lt_or_eq_of_le h
    · exact (size_take_lt hlt hj).le
    · exact le_rfl

/-- The longest start of a text with at most `n` bytes. -/
def takeBytes : List Char → ℕ → List Char
  | [], _ => []
  | c :: s, n => if c.utf8Size ≤ n then c :: takeBytes s (n - c.utf8Size) else []

/-- The last position in bytes up to `n` at which a character starts, or the end. -/
def floorCharBoundary (s : List Char) (n : ℕ) : ℕ := size (takeBytes s n)

/-- The characters between two positions in bytes. -/
def slice (s : List Char) (a b : ℕ) : List Char := (takeBytes s b).drop (takeBytes s a).length

theorem prefix_of_takeBytes (s : List Char) (n : ℕ) : takeBytes s n <+: s := by
  induction s generalizing n with
  | nil => exact List.prefix_refl _
  | cons c s ih =>
    rw [takeBytes]
    split
    · exact List.prefix_cons_inj c |>.mpr (ih _)
    · exact List.nil_prefix

theorem floorCharBoundary_le (s : List Char) (n : ℕ) : floorCharBoundary s n ≤ n := by
  induction s generalizing n with
  | nil => exact Nat.zero_le _
  | cons c s ih =>
    rw [floorCharBoundary, takeBytes]
    split
    · have hrest := ih (n - c.utf8Size)
      rw [floorCharBoundary] at hrest
      rw [size_cons]
      omega
    · exact Nat.zero_le _

/-- Cutting at the end of a start of the text gives that start. -/
theorem takeBytes_size (s t : List Char) : takeBytes (s ++ t) (size s) = s := by
  induction s with
  | nil =>
    cases t with
    | nil => rfl
    | cons c t =>
      have hc := c.utf8Size_pos
      rw [List.nil_append, takeBytes, if_neg (by simp; omega)]
  | cons c s ih =>
    rw [List.cons_append, takeBytes, size_cons, if_pos (by omega), Nat.add_sub_cancel_left, ih]

theorem slice_of_prefix {e : List Char} (he : e <+: s) :
    slice s (size e) n = (takeBytes s n).drop e.length := by
  obtain ⟨t, rfl⟩ := he
  rw [slice, takeBytes_size]

theorem prefix_of_size_le (hl : l <+: s) (hm : m <+: s) (h : size l ≤ size m) : l <+: m := by
  obtain hlt | hle := Nat.lt_or_ge m.length l.length
  swap
  · exact List.prefix_of_prefix_length_le hl hm hle
  · obtain ⟨t, rfl⟩ := List.prefix_of_prefix_length_le hm hl hlt.le
    have ht : t ≠ [] := by
      rintro rfl
      simp at hlt
    have hpos := size_pos ht
    rw [size_append] at h
    omega

end Utf8
