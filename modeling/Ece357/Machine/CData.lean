import Mathlib.Algebra.Group.Int.Defs
import Mathlib.Algebra.Group.Nat.Defs

/-!
# Ece357.Machine.CData

**The data of C programs**: bytes, strings, the 32-bit `int` and the conversion `atoi`
of the C library. A string is the list of its characters, without the null character that
ends it. What does not fit an `int` wraps around (`toInt`).
-/

namespace Ece357.Machine

abbrev Byte := UInt8

/-- A string without its terminating null character. -/
abbrev CStr := List Char

/-! ### `int` -/

/-- Conversion to a 32-bit `int`. -/
def toInt (v : Int) : Int := Int.bmod v (2 ^ 32)

/-- The values of an `int`. -/
def FitsInt (v : Int) : Prop := -2 ^ 31 ≤ v ∧ v < 2 ^ 31

theorem toInt_fits (v : Int) : FitsInt (toInt v) := by
  have hlow := Int.le_bmod (x := v) (m := 2 ^ 32) (by decide)
  have hhigh := Int.bmod_lt (x := v) (m := 2 ^ 32) (by decide)
  unfold FitsInt toInt
  omega

/-- What fits an `int` is not changed. -/
theorem toInt_of_fits {v : Int} (h : FitsInt v) : toInt v = v := by
  unfold FitsInt at h
  exact Int.bmod_eq_of_le (by omega) (by omega)

/-! ### `atoi` -/

def isSpace (c : Char) : Bool :=
  c = ' ' || c = '\t' || c = '\n' || c = '\r' || c.toNat = 11 || c.toNat = 12

/-- The value of a run of digits, read from the left. -/
def digitsValue (ds : List Char) : Nat := ds.foldl (fun v d => 10 * v + (d.toNat - '0'.toNat)) 0

/-- `strtol(s, NULL, 10)`: blanks, a sign, digits; the value is cut off at the bounds of a
`long`. -/
def strtol (s : CStr) : Int :=
  let s := s.dropWhile isSpace
  let magnitude := fun (t : CStr) => (digitsValue (t.takeWhile Char.isDigit) : Int)
  match s with
  | '-' :: t => max (-2 ^ 63) (-magnitude t)
  | '+' :: t => min (2 ^ 63 - 1) (magnitude t)
  | t => min (2 ^ 63 - 1) (magnitude t)

/-- `atoi(s)`: 0 if no number begins there. -/
def atoi (s : CStr) : Int := toInt (strtol s)

end Ece357.Machine
