import Mathlib.Data.List.Basic

/-!
# Ece357.Machine.Stream

**Reading and writing a stream in pieces.** A `read` delivers a positive number of bytes
up to what was asked for and what is left; at the end of the stream, or when nothing was
asked for, it delivers none. A `write` takes any number of the bytes offered. Which number
is the system's choice: an answer names a number, and it is brought into the range that the
call allows, so that every legal answer can be given and no other.

A program that copies a stream reads it off in chunks; a chunk and what is left after it
make up the stream again (`List.take_append_drop`), and a chunk that is not empty leaves
less to read, which is what ends the copying.
-/

namespace Ece357.Machine

/-- What a `read` of up to `count` bytes delivers when `left` are left and the system wants
to deliver `want`. -/
def readAmount (count want left : Nat) : Nat := min (max 1 want) (min count left)

/-- What a `write` takes of `offered` bytes when the system wants to take `want`. -/
def writeAmount (offered want : Nat) : Nat := min want offered

theorem readAmount_le_left (count want left : Nat) : readAmount count want left ≤ left := by
  unfold readAmount
  omega

theorem readAmount_eq_zero {count want left : Nat} :
    readAmount count want left = 0 ↔ count = 0 ∨ left = 0 := by
  unfold readAmount
  omega

theorem writeAmount_le (offered want : Nat) : writeAmount offered want ≤ offered := by
  unfold writeAmount
  omega

/-- A chunk that is not empty leaves less of the stream. -/
theorem length_drop_readAmount {α : Type*} {count want : Nat} {rest : List α}
    (hne : readAmount count want rest.length ≠ 0) :
    (rest.drop (readAmount count want rest.length)).length < rest.length := by
  have hle := readAmount_le_left count want rest.length
  rw [List.length_drop]
  omega

theorem length_take_readAmount {α : Type*} (count want : Nat) (rest : List α) :
    (rest.take (readAmount count want rest.length)).length =
      readAmount count want rest.length := by
  rw [List.length_take]
  exact Nat.min_eq_left (readAmount_le_left count want rest.length)

end Ece357.Machine
