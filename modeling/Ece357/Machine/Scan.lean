import Mathlib.Logic.Function.Basic
import Mathlib.Data.List.Range
import Mathlib.Tactic.Push
import Mathlib.Tactic.SplitIfs

/-!
# Ece357.Machine.Scan

**Loops over the slots of a table**, as C code writes them: `for (i = 0; i < n;
++i)` with a test, and one of three bodies.

* `firstSlot` — stop at the first slot the test accepts;
* `bestSlot` — keep a running maximum with a strict comparison, started at 0, so
  that among equal scores the lowest slot wins;
* `mapSlots` — update the record each occupied slot points to.

Each has a specification that says what the loop computes without mentioning
the loop.
-/

namespace Ece357.Machine

variable {α β : Type*}

/-! ### First match -/

/-- The first slot below `n` on which `f` succeeds. -/
def firstSlot (n : Nat) (f : Nat → Option α) : Option α := (List.range n).findSome? f

theorem firstSlot_eq_none {n : Nat} {f : Nat → Option α} :
    firstSlot n f = none ↔ ∀ i < n, f i = none := by
  simp [firstSlot, List.findSome?_eq_none_iff]

theorem firstSlot_eq_some {n : Nat} {f : Nat → Option α} {a : α} (h : firstSlot n f = some a) :
    ∃ i < n, f i = some a ∧ ∀ j < i, f j = none := by
  obtain ⟨before, i, after, hsplit, hi, hbefore⟩ := List.findSome?_eq_some_iff.mp h
  have hlen : before.length = i := by
    have hget : (List.range n)[before.length]? = some i := by simp [hsplit]
    obtain ⟨_, hval⟩ := List.getElem?_eq_some_iff.mp hget
    simpa using hval
  have hlt : i < n := by
    have := congrArg List.length hsplit
    simp at this
    omega
  refine ⟨i, hlt, hi, fun j hj => hbefore j ?_⟩
  have hget : (List.range n)[j]? = some j := by simp [Nat.lt_trans hj hlt]
  rw [hsplit, List.getElem?_append_left (by omega)] at hget
  exact List.mem_of_getElem? hget

/-! ### Running maximum -/

/-- One turn of the maximum loop. -/
def bestStep (score : Nat → Option Int) (acc : Int × Option Nat) (i : Nat) : Int × Option Nat :=
  match score i with
  | some v => if v > acc.1 then (v, some i) else acc
  | none => acc

/-- The maximum so far, started at 0, and the slot it was found in. -/
def bestSlot (n : Nat) (score : Nat → Option Int) : Int × Option Nat :=
  (List.range n).foldl (bestStep score) (0, none)

theorem bestSlot_succ (n : Nat) (score : Nat → Option Int) :
    bestSlot (n + 1) score = bestStep score (bestSlot n score) n := by
  simp [bestSlot, List.range_succ]

/-- What the maximum loop has established after `n` slots: no score is above the
maximum, and a recorded slot is the lowest one that attains it. -/
structure IsBest (n : Nat) (score : Nat → Option Int) (acc : Int × Option Nat) : Prop where
  nonneg : 0 ≤ acc.1
  max : ∀ i < n, ∀ v, score i = some v → v ≤ acc.1
  start : acc.2 = none → acc.1 = 0
  found : ∀ i, acc.2 = some i → i < n ∧ score i = some acc.1 ∧ 0 < acc.1 ∧
    ∀ j < i, ∀ v, score j = some v → v < acc.1

theorem IsBest.step {n : Nat} {score : Nat → Option Int} {acc : Int × Option Nat}
    (h : IsBest n score acc) : IsBest (n + 1) score (bestStep score acc n) := by
  have hpos := h.nonneg
  unfold bestStep
  cases hs : score n with
  | none =>
      refine ⟨h.nonneg, fun i hi v hv => ?_, h.start, fun i hi => ?_⟩
      · rcases Nat.lt_succ_iff_lt_or_eq.mp hi with hlt | rfl
        · exact h.max i hlt v hv
        · rw [hs] at hv; cases hv
      · obtain ⟨hlt, hrest⟩ := h.found i hi
        exact ⟨Nat.lt_succ_of_lt hlt, hrest⟩
  | some w =>
      dsimp only
      split_ifs with hw
      · -- a new best: all slots before score less
        refine ⟨by dsimp only; omega, fun i hi v hv => ?_, fun hn => (by cases hn), fun i hi => ?_⟩
        · rcases Nat.lt_succ_iff_lt_or_eq.mp hi with hlt | rfl
          · have hle := h.max i hlt v hv
            dsimp only
            omega
          · obtain rfl : w = v := by simpa [hs] using hv
            exact Int.le_refl _
        · obtain rfl : n = i := by simpa using hi
          refine ⟨Nat.lt_succ_self _, hs, by dsimp only; omega, fun j hj v hv => ?_⟩
          have hle := h.max j hj v hv
          dsimp only
          omega
      · refine ⟨h.nonneg, fun i hi v hv => ?_, h.start, fun i hi => ?_⟩
        · rcases Nat.lt_succ_iff_lt_or_eq.mp hi with hlt | rfl
          · exact h.max i hlt v hv
          · obtain rfl : w = v := by simpa [hs] using hv
            omega
        · obtain ⟨hlt, hrest⟩ := h.found i hi
          exact ⟨Nat.lt_succ_of_lt hlt, hrest⟩

theorem bestSlot_isBest (n : Nat) (score : Nat → Option Int) :
    IsBest n score (bestSlot n score) := by
  induction n with
  | zero => exact ⟨by simp [bestSlot], by simp, by simp [bestSlot], by simp [bestSlot]⟩
  | succ n ih =>
      rw [bestSlot_succ]
      exact ih.step

/-! ### Updating every slot's record -/

/-- Apply `f` to the record of every occupied slot below `n`, in slot order. -/
def mapSlots [DecidableEq α] (n : Nat) (slot : Nat → Option α) (f : β → β) (mem : α → β) : α → β :=
  (List.range n).foldl
    (fun m i => match slot i with
      | some a => Function.update m a (f (m a))
      | none => m) mem

theorem mapSlots_succ [DecidableEq α] (n : Nat) (slot : Nat → Option α) (f : β → β) (mem : α → β) :
    mapSlots (n + 1) slot f mem = match slot n with
      | some a => Function.update (mapSlots n slot f mem) a (f (mapSlots n slot f mem a))
      | none => mapSlots n slot f mem := by
  simp [mapSlots, List.range_succ]

/-- An idempotent update reaches every record some slot points to, and no other,
even if several slots point to the same record. -/
theorem mapSlots_apply [DecidableEq α] {f : β → β} (hf : ∀ b, f (f b) = f b) (n : Nat)
    (slot : Nat → Option α) (mem : α → β) (a : α) :
    ((∃ i < n, slot i = some a) → mapSlots n slot f mem a = f (mem a)) ∧
    ((∀ i < n, slot i ≠ some a) → mapSlots n slot f mem a = mem a) := by
  induction n with
  | zero => simp [mapSlots]
  | succ n ih =>
      rw [mapSlots_succ]
      cases hs : slot n with
      | none =>
          refine ⟨fun ⟨i, hi, hia⟩ => ih.1 ?_, fun h => ih.2 fun i hi => h i (by omega)⟩
          rcases Nat.lt_succ_iff_lt_or_eq.mp hi with hlt | rfl
          · exact ⟨i, hlt, hia⟩
          · rw [hs] at hia; cases hia
      | some b =>
          by_cases hab : a = b
          · subst hab
            refine ⟨fun _ => ?_, fun h => absurd hs (h n (by omega))⟩
            simp only [Function.update_self]
            -- updated before or not, once more makes no difference
            by_cases hex : ∃ i < n, slot i = some a
            · rw [ih.1 hex, hf]
            · push Not at hex
              rw [ih.2 hex]
          · simp only [Function.update_of_ne hab]
            refine ⟨fun ⟨i, hi, hia⟩ => ih.1 ?_, fun h => ih.2 fun i hi => h i (by omega)⟩
            rcases Nat.lt_succ_iff_lt_or_eq.mp hi with hlt | rfl
            · exact ⟨i, hlt, hia⟩
            · rw [hs] at hia
              exact absurd (Option.some.inj hia).symm hab

end Ece357.Machine
