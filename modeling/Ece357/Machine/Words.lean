import Mathlib.Data.BitVec
import Mathlib.Logic.Function.Basic
import Mathlib.Tactic.Ring

/-!
# Ece357.Machine.Words

**Word-addressed memory** with 64-bit addresses, and areas of it. Addresses wrap around; an
area lies below the end of the address space, and so does the address just behind it.

Two areas of one size differ by a translation, which may wrap around as well. It takes the
words of one to those of the other, in order (`mem_translate`, `lt_translate`), and whether an
address lies between the limits of an area is not lost under it (`within_translate`).
-/

namespace Ece357.Machine

/-- A 64-bit word, or the address of one. -/
abbrev Word := BitVec 64

/-- What is found at each address. -/
abbrev Memory := Word → Word

namespace Memory

def store (m : Memory) (a v : Word) : Memory := Function.update m a v

theorem store_self (m : Memory) (a v : Word) : m.store a v a = v := Function.update_self ..

theorem store_of_ne (m : Memory) {a b : Word} (h : b ≠ a) (v : Word) : m.store a v b = m b :=
  Function.update_of_ne h ..

end Memory

/-- `memcpy` of `n` bytes between areas that do not overlap, by words. -/
def memcpy (m : Memory) (dst src : Word) (n : Nat) : Memory := fun a =>
  if (a - dst).toNat < n ∧ (a - dst).toNat % 8 = 0 then m (src + (a - dst)) else m a

/-- An area of `size` bytes. -/
structure Area (size : Nat) where
  base : Word
  fits : base.toNat + size < 2 ^ 64

namespace Area

variable {size : Nat} {A B : Area size} {a b : Word}

/-- The address just behind the area. -/
def limit (A : Area size) : Word := A.base + BitVec.ofNat 64 size

/-- There is a word of the area at this address. -/
def Mem (A : Area size) (a : Word) : Prop :=
  ∃ j, 8 * j < size ∧ a = A.base + BitVec.ofNat 64 (8 * j)

/-- The address is between the limits of the area, both included. -/
def Within (A : Area size) (a : Word) : Prop := A.base ≤ a ∧ a ≤ A.limit

/-- The areas do not overlap. -/
def Disjoint (A B : Area size) : Prop := A.limit ≤ B.base ∨ B.limit ≤ A.base

/-- What is to be added to an address in `A` for the one in the same place of `B`. -/
def shift (A B : Area size) : Word := B.base - A.base

theorem limit_toNat (A : Area size) : A.limit.toNat = A.base.toNat + size := by
  have hfits := A.fits
  unfold limit
  rw [BitVec.toNat_add, BitVec.toNat_ofNat]
  omega

theorem mem_iff : A.Mem a ↔ (a - A.base).toNat < size ∧ (a - A.base).toNat % 8 = 0 := by
  constructor
  · intro h
    obtain ⟨j, hj, rfl⟩ := h
    have hfits := A.fits
    have hoffset : (A.base + BitVec.ofNat 64 (8 * j) - A.base).toNat = 8 * j := by
      rw [add_sub_cancel_left, BitVec.toNat_ofNat]
      omega
    rw [hoffset]
    omega
  · intro h
    obtain ⟨hlt, haligned⟩ := h
    refine ⟨(a - A.base).toNat / 8, by omega, ?_⟩
    have hoffset : 8 * ((a - A.base).toNat / 8) = (a - A.base).toNat := by omega
    rw [hoffset, BitVec.ofNat_toNat, BitVec.setWidth_eq, add_sub_cancel]

theorem within_iff : A.Within a ↔ (a - A.base).toNat ≤ size := by
  have hfits := A.fits
  have ha := a.isLt
  unfold Within
  rw [BitVec.le_def, BitVec.le_def, limit_toNat, BitVec.toNat_sub]
  omega

theorem Mem.toNat (h : A.Mem a) : A.base.toNat ≤ a.toNat ∧ a.toNat + 1 ≤ A.limit.toNat := by
  obtain ⟨j, hj, rfl⟩ := h
  have hfits := A.fits
  rw [limit_toNat, BitVec.toNat_add, BitVec.toNat_ofNat]
  omega

theorem Mem.within (h : A.Mem a) : A.Within a := by
  obtain ⟨hlow, hhigh⟩ := h.toNat
  exact ⟨BitVec.le_def.mpr hlow, BitVec.le_def.mpr (by omega)⟩

instance : Decidable (A.Mem a) := decidable_of_iff _ mem_iff.symm

instance : Decidable (A.Within a) := inferInstanceAs (Decidable (_ ∧ _))

instance : Decidable (A.Disjoint B) := inferInstanceAs (Decidable (_ ∨ _))

/-! ### Translation -/

theorem translate_sub (a : Word) : a + A.shift B - B.base = a - A.base := by
  unfold shift
  ring

theorem translate_inj : a + A.shift B = b + A.shift B ↔ a = b := add_left_inj _

theorem mem_translate : B.Mem (a + A.shift B) ↔ A.Mem a := by
  rw [mem_iff, mem_iff, translate_sub]

theorem within_translate : B.Within (a + A.shift B) ↔ A.Within a := by
  rw [within_iff, within_iff, translate_sub]

theorem translate_offset (v : Word) : A.base + v + A.shift B = B.base + v := by
  unfold shift
  ring

theorem limit_translate : A.limit + A.shift B = B.limit := translate_offset _

/-- Inside the areas, the translation keeps the order. -/
theorem lt_translate (ha : A.Mem a) (hb : A.Mem b) (h : a < b) :
    a + A.shift B < b + A.shift B := by
  obtain ⟨i, hi, rfl⟩ := ha
  obtain ⟨j, hj, rfl⟩ := hb
  have hA := A.fits
  have hB := B.fits
  rw [BitVec.lt_def, BitVec.toNat_add, BitVec.toNat_add, BitVec.toNat_ofNat,
    BitVec.toNat_ofNat] at h
  rw [translate_offset, translate_offset, BitVec.lt_def, BitVec.toNat_add, BitVec.toNat_add,
    BitVec.toNat_ofNat, BitVec.toNat_ofNat]
  omega

/-! ### Copying -/

theorem memcpy_mem (m : Memory) (h : A.Mem a) :
    memcpy m B.base A.base size (a + A.shift B) = m a := by
  unfold memcpy
  rw [translate_sub, if_pos (mem_iff.mp h), add_sub_cancel]

end Area

end Ece357.Machine
