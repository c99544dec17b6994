import Mathlib.Tactic

/-! A sequence that several owners store in turns, a group of neighbouring positions each: a
position is its owner and its index in what that owner stores. -/
namespace Interleaved
variable {owners group c s p : ℕ}

/-- Who stores position `p`. -/
def owner (owners group p : ℕ) : ℕ := p / group % owners

/-- The index of position `p` in what its owner stores. -/
def localIndex (owners group p : ℕ) : ℕ := p / (owners * group) * group + p % group

/-- The position that owner `c` stores at index `s`. -/
def position (owners group c s : ℕ) : ℕ := (s / group * owners + c) * group + s % group

theorem owner_lt (howners : 0 < owners) : owner owners group p < owners :=
  Nat.mod_lt _ howners

section
variable (hgroup : 0 < group)
include hgroup

theorem position_div : position owners group c s / group = s / group * owners + c := by
  unfold position
  rw [mul_comm, Nat.mul_add_div hgroup, Nat.div_eq_of_lt (Nat.mod_lt s hgroup), add_zero]

theorem owner_position (hc : c < owners) : owner owners group (position owners group c s) = c := by
  unfold owner
  rw [position_div hgroup, mul_comm, Nat.mul_add_mod, Nat.mod_eq_of_lt hc]

theorem localIndex_position (hc : c < owners) :
    localIndex owners group (position owners group c s) = s := by
  have hround : position owners group c s / (owners * group) = s / group := by
    rw [mul_comm owners, ← Nat.div_div_eq_div_mul, position_div hgroup, mul_comm,
      Nat.mul_add_div (by omega), Nat.div_eq_of_lt hc, add_zero]
  have hplace : position owners group c s % group = s % group := by
    unfold position
    rw [mul_comm, Nat.mul_add_mod, Nat.mod_mod]
  unfold localIndex
  rw [hround, hplace, mul_comm]
  exact Nat.div_add_mod s group

theorem localIndex_div : localIndex owners group p / group = p / (owners * group) := by
  unfold localIndex
  rw [mul_comm _ group, Nat.mul_add_div hgroup, Nat.div_eq_of_lt (Nat.mod_lt p hgroup), add_zero]

end

theorem localIndex_mod : localIndex owners group p % group = p % group := by
  unfold localIndex
  rw [mul_comm _ group, Nat.mul_add_mod, Nat.mod_mod]

theorem position_localIndex (hgroup : 0 < group) :
    position owners group (owner owners group p) (localIndex owners group p) = p := by
  have hround : p / (owners * group) * owners + p / group % owners = p / group := by
    rw [mul_comm owners, ← Nat.div_div_eq_div_mul, mul_comm _ owners]
    exact Nat.div_add_mod (p / group) owners
  unfold position owner
  rw [localIndex_div hgroup, localIndex_mod, hround, mul_comm]
  exact Nat.div_add_mod p group

/-- A position is determined by its owner and its index there. -/
theorem position_injective (hgroup : 0 < group) {p p' : ℕ}
    (howner : owner owners group p = owner owners group p')
    (hlocal : localIndex owners group p = localIndex owners group p') : p = p' := by
  rw [← position_localIndex hgroup (p := p), howner, hlocal]
  exact position_localIndex hgroup

variable {block : ℕ}

/-- A block of what one owner stores covers as many positions of every owner. -/
theorem localIndex_div_block (hgroup : 0 < group) (hdvd : group ∣ block) :
    localIndex owners group p / block = p / (owners * block) := by
  rcases hdvd with ⟨k, rfl⟩
  rw [← Nat.div_div_eq_div_mul, localIndex_div hgroup, Nat.div_div_eq_div_mul, mul_assoc]

theorem mod_block_mod (owners p : ℕ) (hdvd : group ∣ block) :
    p % (owners * block) % group = p % group := Nat.mod_mod_of_dvd p
    (hdvd.trans (dvd_mul_left block owners))

/-- Inside the positions of a block, owner and index are those of the whole sequence. -/
theorem owner_mod_block (hdvd : group ∣ block) :
    owner owners group (p % (owners * block)) = owner owners group p := by
  rcases hdvd with ⟨k, rfl⟩
  unfold owner
  rw [mul_left_comm, Nat.mod_mul_right_div_self]
  exact Nat.mod_mod_of_dvd _ (dvd_mul_right owners k)

theorem localIndex_mod_block (hgroup : 0 < group) (hdvd : group ∣ block) :
    localIndex owners group (p % (owners * block)) = localIndex owners group p % block := by
  have hplace := mod_block_mod owners p hdvd
  rcases hdvd with ⟨k, rfl⟩
  have hround : p % (owners * (group * k)) / (owners * group) = p / (owners * group) % k := by
    rw [← mul_assoc, Nat.mod_mul_right_div_self]
  have hindex : localIndex owners group p % (group * k) =
      p % group + group * (p / (owners * group) % k) := by
    rw [Nat.mod_mul, localIndex_mod, localIndex_div hgroup]
  rw [hindex]
  unfold localIndex
  rw [hround, hplace, mul_comm, add_comm]

end Interleaved
