import Mathlib.Logic.Function.Basic
import Mathlib.Data.List.Basic

/-!
# Ece357.Machine.Descriptors

**Tables of open descriptors.** A table says what each number refers to. A new descriptor
gets the lowest free number below the limit; `dup2` makes a number below it refer to what another
one refers to; `close` frees a number. `fork` copies the table as a whole, so nothing is needed
for it here.

What a table refers to after an operation is said once for each of them
(`close_eq_some`, `set_eq_some`, `dup2_inv`, `allocate_inv`, `pipe_inv`).
-/

namespace Ece357.Machine

/-- What each number refers to. -/
abbrev FdTable (δ : Type*) := Nat → Option δ

namespace FdTable

variable {δ : Type*} (T : FdTable δ)

/-- No descriptor is open. -/
def empty : FdTable δ := fun _ => none

/-- Make `n` refer to `d`. -/
def set (n : Nat) (d : δ) : FdTable δ := Function.update T n (some d)

def close (n : Nat) : FdTable δ := Function.update T n none

/-- `dup2(old, new)`: it fails if `old` is not open, or if `new` is another number, and not below
the limit. -/
def dup2 (limit old new : Nat) : Option (FdTable δ) :=
  if old = new ∨ new < limit then (T old).map (T.set new) else none

/-- The lowest free number below `limit`. -/
def lowestFree (limit : Nat) : Option Nat := (List.range limit).find? fun n => (T n).isNone

/-- Open `d` at the lowest free number. -/
def allocate (limit : Nat) (d : δ) : Option (Nat × FdTable δ) :=
  (T.lowestFree limit).map fun n => (n, T.set n d)

/-- `pipe`: two descriptors, the read end first. -/
def pipe (limit : Nat) (r w : δ) : Option (Nat × Nat × FdTable δ) :=
  match T.allocate limit r with
  | none => none
  | some (a, T₁) => (T₁.allocate limit w).map fun bT => (a, bT.1, bT.2)

/-- `d` is open at some number. -/
def Holds (d : δ) : Prop := ∃ n, T n = some d

variable {T}

theorem close_eq_some {n m : Nat} {d : δ} : T.close n m = some d ↔ m ≠ n ∧ T m = some d := by
  unfold close
  by_cases h : m = n
  · simp [h]
  · simp [h]

theorem set_eq_some {n m : Nat} {d e : δ} :
    T.set n d m = some e ↔ m = n ∧ d = e ∨ m ≠ n ∧ T m = some e := by
  unfold set
  by_cases h : m = n
  · simp [h]
  · simp [h]

theorem dup2_inv {T' : FdTable δ} {limit old new : Nat} (h : T.dup2 limit old new = some T') :
    ∃ d, T old = some d ∧ T' = T.set new d := by
  unfold dup2 at h
  split_ifs at h
  obtain ⟨d, hd, rfl⟩ := Option.map_eq_some_iff.mp h
  exact ⟨d, hd, rfl⟩

theorem lowestFree_eq_some {limit n : Nat} :
    T.lowestFree limit = some n ↔ n < limit ∧ T n = none ∧ ∀ m < n, T m ≠ none := by
  simp only [lowestFree, List.find?_range_eq_some, List.mem_range, Option.isNone_iff_eq_none,
    Bool.not_eq_true', Option.isNone_eq_false_iff, Option.isSome_iff_ne_none]
  exact and_left_comm

theorem allocate_inv {T' : FdTable δ} {limit n : Nat} {d : δ}
    (h : T.allocate limit d = some (n, T')) :
    n < limit ∧ T n = none ∧ (∀ m < n, T m ≠ none) ∧ T' = T.set n d := by
  obtain ⟨m, hm, heq⟩ := Option.map_eq_some_iff.mp h
  obtain ⟨rfl, rfl⟩ := Prod.mk.inj heq
  obtain ⟨hlt, hfree, hused⟩ := lowestFree_eq_some.mp hm
  exact ⟨hlt, hfree, hused, rfl⟩

/-- The two ends of a pipe get free numbers, the read end the lower one. -/
theorem pipe_inv {T' : FdTable δ} {limit a b : Nat} {r w : δ}
    (h : T.pipe limit r w = some (a, b, T')) :
    T a = none ∧ T b = none ∧ a < b ∧ T' = (T.set a r).set b w := by
  unfold pipe at h
  cases hr : T.allocate limit r with
  | none => simp [hr] at h
  | some aT =>
      obtain ⟨a₀, T₁⟩ := aT
      simp only [hr, Option.map_eq_some_iff, Prod.mk.injEq] at h
      obtain ⟨⟨b₀, T₂⟩, hw, rfl, rfl, rfl⟩ := h
      obtain ⟨-, hfree, hused, rfl⟩ := allocate_inv hr
      obtain ⟨-, hfree', -, rfl⟩ := allocate_inv hw
      have hne : b₀ ≠ a₀ := by
        intro heq
        subst heq
        simp [set] at hfree'
      have hfree₂ : T b₀ = none := by simpa [set, hne] using hfree'
      have hle : a₀ ≤ b₀ := Nat.le_of_not_lt fun hlt => hused b₀ hlt hfree₂
      exact ⟨hfree, hfree₂, by omega, rfl⟩

/-- Closing makes nothing refer to more than it did. -/
theorem Holds.of_close {n : Nat} {d : δ} (h : (T.close n).Holds d) : T.Holds d := by
  obtain ⟨m, hm⟩ := h
  exact ⟨m, (close_eq_some.mp hm).2⟩

/-- `dup2` opens nothing that was not open. -/
theorem Holds.of_dup2 {T' : FdTable δ} {limit old new : Nat} {d : δ}
    (hdup : T.dup2 limit old new = some T') (h : T'.Holds d) : T.Holds d := by
  obtain ⟨e, he, rfl⟩ := dup2_inv hdup
  obtain ⟨m, hm⟩ := h
  rcases set_eq_some.mp hm with ⟨rfl, rfl⟩ | ⟨-, hm⟩
  · exact ⟨_, he⟩
  · exact ⟨m, hm⟩

end FdTable

end Ece357.Machine
