import Ece357.Machine.X86

/-!
# Ece357.Machine.Sharing

**Processes that share a mapping.** Each has registers and memory of its own; the bytes of the
mapping are the same for all.

As long as a process does not touch the mapping, what others do there is nothing to it: two
machine states that agree on the registers and outside the mapping agree after an instruction
that only touches what is outside (`AgreesOutside.effect`).
-/

namespace Ece357.Machine.X86

/-- The addresses of the shared mapping, `size` bytes from `base`. -/
structure Mapping where
  base : Word
  size : Nat

/-- The address is one of the mapping. -/
def Mapping.Mem (R : Mapping) (a : Word) : Prop := (a - R.base).toNat < R.size

instance (R : Mapping) (a : Word) : Decidable (R.Mem a) := inferInstanceAs (Decidable (_ < _))

/-- Memory as a process sees it: of `shared`, only the mapping counts, of `own`, the rest. -/
def view (R : Mapping) (shared own : Bytes) : Bytes := fun a =>
  if R.Mem a then shared a else own a

/-- The registers are the same, and so is memory outside the mapping. -/
structure AgreesOutside (R : Mapping) (x y : Data) : Prop where
  regs : x.regs = y.regs
  mem : ∀ a, ¬ R.Mem a → x.mem a = y.mem a

section View
variable {R : Mapping} {shared shared' own own' : Bytes} {a : Word}

theorem view_mem (h : R.Mem a) : view R shared own a = shared a := if_pos h

theorem view_not_mem (h : ¬ R.Mem a) : view R shared own a = own a := if_neg h

end View

namespace AgreesOutside

variable {R : Mapping} {x y z : Data} {i : Instr}

theorem refl (x : Data) : AgreesOutside R x x := ⟨rfl, fun _ _ => rfl⟩

theorem symm (h : AgreesOutside R x y) : AgreesOutside R y x :=
  ⟨h.regs.symm, fun a ha => (h.mem a ha).symm⟩

theorem trans (h : AgreesOutside R x y) (h' : AgreesOutside R y z) : AgreesOutside R x z :=
  ⟨h.regs.trans h'.regs, fun a ha => (h.mem a ha).trans (h'.mem a ha)⟩

/-- What an instruction touches is a matter of the registers. -/
theorem touches_iff (h : AgreesOutside R x y) {a : Word} : i.Touches x a ↔ i.Touches y a := by
  cases i <;> simp only [Instr.Touches, Data.addr, h.regs]

/-- An instruction that does not touch the mapping does the same whatever is in it, and changes
nothing there. -/
theorem effect (h : AgreesOutside R x y) (hi : ∀ a, R.Mem a → ¬ i.Touches x a) :
    AgreesOutside R (i.effect x) (i.effect y) ∧ i.target x = i.target y ∧
      ∀ a, R.Mem a → (i.effect x).mem a = x.mem a := by
  have htouched : ∀ a, i.Touches x a → x.mem a = y.mem a := fun a ha =>
    h.mem a fun hin => hi a hin ha
  obtain ⟨hregs, htarget, hmem⟩ := Instr.effect_congr h.regs htouched
  exact ⟨⟨hregs, fun a ha => hmem a (h.mem a ha)⟩, htarget,
    fun a ha => Instr.effect_outside (hi a ha)⟩

/-- An instruction that finds the same in what it touches does the same. -/
theorem effect_touched (h : AgreesOutside R x y)
    (hi : ∀ a, R.Mem a → i.Touches x a → x.mem a = y.mem a) :
    AgreesOutside R (i.effect x) (i.effect y) := by
  have htouched : ∀ a, i.Touches x a → x.mem a = y.mem a := by
    intro a ha
    by_cases hin : R.Mem a
    · exact hi a hin ha
    · exact h.mem a hin
  obtain ⟨hregs, -, hmem⟩ := Instr.effect_congr h.regs htouched
  exact ⟨hregs, fun a ha => hmem a (h.mem a ha)⟩

end AgreesOutside

end Ece357.Machine.X86
