import Mathlib.Logic.Basic

/-!
# Ece357.Machine.TasLock

**The invariant of a test-and-set lock**, for any set of processes. A lock word
is taken by an atomic exchange that succeeds only when the word is free, and
released by a plain store of the process that took it. What makes this a lock
is one statement about the word and the processes' control points together:
the word reads *free* exactly when nobody is inside a critical section, and at
most one process ever is. The three ways a step can touch the lock keep it.
-/

namespace Ece357.Machine

variable {P : Type*}

/-- The lock word and the set of processes inside a critical section agree. -/
structure Exclusive (free : Prop) (holds : P → Prop) : Prop where
  /-- The word is free exactly when nobody holds the lock. -/
  free_iff : free ↔ ∀ p, ¬ holds p
  /-- At most one process holds the lock. -/
  unique : ∀ {p q}, holds p → holds q → p = q

namespace Exclusive

variable {free free' : Prop} {holds holds' : P → Prop}

/-- Nobody holds a lock before the first exchange. -/
theorem start (hfree : free) (hnone : ∀ p, ¬ holds p) : Exclusive free holds :=
  ⟨⟨fun _ => hnone, fun _ => hfree⟩, fun hp => absurd hp (hnone _)⟩

/-- A step that leaves the word and everybody's section alone. -/
theorem keep (h : Exclusive free holds) (hf : free' ↔ free) (hh : ∀ p, holds' p ↔ holds p) :
    Exclusive free' holds' where
  free_iff := by simp only [hf, hh, h.free_iff]
  unique hp hq := h.unique ((hh _).mp hp) ((hh _).mp hq)

/-- The exchange that finds the word free admits the process doing it, alone. -/
theorem acquire {p : P} (h : Exclusive free holds) (hfree : free) (htaken : ¬ free')
    (hh : ∀ q, holds' q ↔ holds q ∨ q = p) : Exclusive free' holds' := by
  have honly : ∀ q, holds' q ↔ q = p := fun q => by simp [hh, h.free_iff.mp hfree q]
  exact
    { free_iff := ⟨fun hf => absurd hf htaken, fun hn => absurd ((honly p).mpr rfl) (hn p)⟩
      unique := fun hq hr => ((honly _).mp hq).trans ((honly _).mp hr).symm }

/-- The store that ends the holder's section frees the word for everybody. -/
theorem release {p : P} (h : Exclusive free holds) (hp : holds p) (hfree : free')
    (hh : ∀ q, holds' q ↔ holds q ∧ q ≠ p) : Exclusive free' holds' :=
  start hfree fun q hq => ((hh q).mp hq).2 (h.unique ((hh q).mp hq).1 hp)

/-- While `p` holds the lock, everybody else is outside. -/
theorem not_holds {p q : P} (h : Exclusive free holds) (hp : holds p) (hne : q ≠ p) :
    ¬ holds q :=
  fun hq => hne (h.unique hq hp)

end Exclusive

end Ece357.Machine
