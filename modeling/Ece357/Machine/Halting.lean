import Mathlib.Algebra.BigOperators.Group.Finset.Basic
import Mathlib.Algebra.Group.Action.Defs
import Mathlib.Algebra.Order.BigOperators.Group.Finset
import Mathlib.Logic.Function.Iterate

/-!
# Ece357.Machine.Halting

**Loops that come to an end**, because every turn spends something that there is only so much of
(`iterate_halts`). What is spent may lie in cells: of a finite number of them, each holds a
value from which a turn at that cell takes some of its worth away (`cells_halt`).
-/

namespace Ece357.Machine

section Measure

variable {σ : Type*} {step : σ → σ} {halted : σ → Prop}

/-- A loop whose turns, as long as it does not halt, make a measure smaller, halts before the
measure could be used up. -/
theorem iterate_halts (inv : σ → Prop) (stable : ∀ s, halted s → halted (step s)) (worth : σ → Nat)
    (keep : ∀ s, inv s → ¬ halted (step s) → inv (step s))
    (spend : ∀ s, inv s → ¬ halted (step s) → worth (step s) < worth s) {s : σ} (hs : inv s)
    {n : Nat} (hn : worth s < n) : halted (step^[n] s) := by
  induction n generalizing s with
  | zero => exact absurd hn (Nat.not_lt_zero _)
  | succ n ih =>
      rw [Function.iterate_succ_apply]
      by_cases hhalt : halted (step s)
      · clear ih hn
        induction n generalizing s with
        | zero => exact hhalt
        | succ n ih' =>
            rw [Function.iterate_succ_apply']
            exact stable _ (ih' hs hhalt)
      · have hless := spend s hs hhalt
        exact ih (keep s hs hhalt) (by omega)

end Measure

section Cells

variable {α β : Type*} [DecidableEq α]

/-- Less in one cell is less in all. -/
theorem sum_update_lt (worth : β → Nat) (m : α → β) {T : Finset α} {a : α} (ha : a ∈ T) {v : β}
    (hv : worth v < worth (m a)) :
    ∑ b ∈ T, worth (Function.update m a v b) < ∑ b ∈ T, worth (m b) := by
  refine Finset.sum_lt_sum (fun b _ => ?_) ⟨a, ha, ?_⟩
  · by_cases hb : b = a
    · subst hb
      rw [Function.update_self]
      exact hv.le
    · rw [Function.update_of_ne hb]
  · rw [Function.update_self]
    exact hv

omit [DecidableEq α] in
/-- Two sums that differ in one cell only. -/
theorem sum_off [Fintype α] {f g : α → Nat} {a : α} (h : ∀ b, b ≠ a → g b = f b) :
    ∑ b, g b + f a = ∑ b, f b + g a := by
  classical
  have hrest : ∑ b ∈ Finset.univ.erase a, g b = ∑ b ∈ Finset.univ.erase a, f b :=
    Finset.sum_congr rfl fun b hb => h b (Finset.ne_of_mem_erase hb)
  rw [← Finset.add_sum_erase _ g (Finset.mem_univ a),
    ← Finset.add_sum_erase _ f (Finset.mem_univ a), hrest]
  omega

/-- A loop halts that, in each turn, stores something worth less in one of finitely many cells,
each worth no more than `most`. -/
theorem cells_halt {σ : Type*} {step : σ → σ} {halted : σ → Prop} (cells : σ → α → β)
    (cur : σ → α) (stable : ∀ s, halted s → halted (step s)) (T : Finset α) (worth : β → Nat)
    (most : Nat) (hmost : ∀ v, worth v ≤ most)
    (turn : ∀ s, ¬ halted (step s) → cur (step s) ∈ T ∧ ∃ v, worth v < worth (cells s (cur s)) ∧
      cells (step s) = Function.update (cells s) (cur s) v)
    {s : σ} (hs : cur s ∈ T) {n : Nat} (hn : T.card * most < n) : halted (step^[n] s) := by
  refine iterate_halts (fun s => cur s ∈ T) stable (fun s => ∑ a ∈ T, worth (cells s a))
    (fun s _ h => (turn s h).1) (fun s hcur h => ?_) hs ?_
  · obtain ⟨-, v, hv, hcells⟩ := turn s h
    rw [hcells]
    exact sum_update_lt worth (cells s) hcur hv
  · have hsum : ∑ a ∈ T, worth (cells s a) ≤ T.card * most := by
      rw [← smul_eq_mul]
      exact Finset.sum_le_card_nsmul T _ most fun a _ => hmost (cells s a)
    exact lt_of_le_of_lt hsum hn

end Cells

end Ece357.Machine
