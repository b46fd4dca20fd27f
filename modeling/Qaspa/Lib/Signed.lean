import Mathlib.Algebra.Group.Int.Defs
import Qaspa.Lib.Outcome

/-! # Signed machine integers

A signed machine integer is an integer within the two's complement range of its width. The
checked operations return nothing when the exact result leaves the range, the plain operations
panic there, and a left shift drops the bits that leave the word.
-/

namespace Qaspa.Signed

variable {ε : Type}

/-- The values of a signed word of the given width. -/
def InRange (bits : Nat) (value : Int) : Prop := -2 ^ (bits - 1) ≤ value ∧ value < 2 ^ (bits - 1)

instance (bits : Nat) (value : Int) : Decidable (InRange bits value) :=
  inferInstanceAs (Decidable (_ ∧ _))

/-- The exact result of an operation, if it fits. -/
def checked (bits : Nat) (exact : Int) : Option Int :=
  if InRange bits exact then some exact else none

/-- The exact result of an operation that must fit. -/
def plain (bits : Nat) (exact : Int) : Outcome ε Int := Outcome.unwrap (checked bits exact)

/-- A left shift within the word. -/
def shiftLeft (bits : Nat) (value : Int) (shift : Nat) : Int := (value * 2 ^ shift).bmod (2 ^ bits)

theorem plain_eq_ok {bits : Nat} {value : Int} (hrange : InRange bits value) :
    (plain bits value : Outcome ε Int) = .ok value := by
  rw [plain, checked, if_pos hrange]
  rfl

theorem shiftLeft_eq {bits : Nat} {value : Int} {shift : Nat} (hnonneg : 0 ≤ value * 2 ^ shift)
    (hfits : 2 * (value * 2 ^ shift) < 2 ^ bits) :
    shiftLeft bits value shift = value * 2 ^ shift := by
  apply Int.bmod_eq_of_le_mul_two
  · have : (0 : Int) ≤ (2 ^ bits : Nat) := Int.natCast_nonneg _
    omega
  · push_cast
    omega

end Qaspa.Signed
