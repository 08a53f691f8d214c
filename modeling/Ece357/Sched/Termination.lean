import Ece357.Machine.Halting
import Ece357.Sched.ChildStack

/-!
# Ece357.Sched.Termination

**The loop of `adjstack` comes to its end**, whatever memory contains. It may follow the words of
the stack in circles, but each turn adds the distance of the two stacks to a word, and what comes
of it is between the limits again. As the distance is no less than the size of a stack, that can
happen to one word at most twice: with stacks that lie side by side, from one limit to the other.
-/

namespace Ece357.Sched

open Ece357.Machine

/-- The test that does not end the loop. -/
def Between (lim0 lim1 new : Word) : Prop := ¬ (new < lim0 ∨ new > lim1)

instance (lim0 lim1 new : Word) : Decidable (Between lim0 lim1 new) :=
  inferInstanceAs (Decidable (¬ _))

/-- How often a word with this value can be adjusted. -/
def timesLeft (lim0 lim1 adj v : Word) : Nat :=
  if Between lim0 lim1 (v + adj) then
    if Between lim0 lim1 (v + adj + adj) then 2 else 1
  else 0

theorem timesLeft_le (lim0 lim1 adj v : Word) : timesLeft lim0 lim1 adj v ≤ 2 := by
  unfold timesLeft
  split_ifs <;> omega

section Loop
variable {lim0 lim1 adj : Word}

/-- The distance of two stacks that do not overlap, in either direction. -/
structure Apart (lim0 lim1 adj : Word) : Prop where
  size : lim1 - lim0 = BitVec.ofNat 64 stackSize
  up : stackSize ≤ adj.toNat
  down : adj.toNat ≤ 2 ^ 64 - stackSize

theorem limits_toNat (h : Apart lim0 lim1 adj) :
    lim1.toNat = (lim0.toNat + 65536) % 2 ^ 64 := by
  have heq : lim1 = BitVec.ofNat 64 stackSize + lim0 := sub_eq_iff_eq_add.mp h.size
  unfold stackSize at heq
  rw [heq, BitVec.toNat_add, BitVec.toNat_ofNat]
  omega

/-- No word is adjusted three times. -/
theorem not_between_third (h : Apart lim0 lim1 adj) {v : Word} (h₁ : Between lim0 lim1 v)
    (h₂ : Between lim0 lim1 (v + adj)) : ¬ Between lim0 lim1 (v + adj + adj) := by
  intro h₃
  have hlimits := limits_toNat h
  obtain ⟨-, hup, hdown⟩ := h
  unfold stackSize at hup hdown
  unfold Between at h₁ h₂ h₃
  simp only [not_or, BitVec.lt_def, gt_iff_lt, BitVec.toNat_add] at h₁ h₂ h₃
  have hv := v.isLt
  have h0 := lim0.isLt
  omega

/-- A word that is adjusted can be adjusted once less. -/
theorem timesLeft_adjusted (h : Apart lim0 lim1 adj) {v : Word} (hv : Between lim0 lim1 (v + adj)) :
    timesLeft lim0 lim1 adj (v + adj) < timesLeft lim0 lim1 adj v := by
  unfold timesLeft
  rw [if_pos hv]
  by_cases hagain : Between lim0 lim1 (v + adj + adj)
  · have hthird := not_between_third h hv hagain
    rw [if_pos hagain, if_pos hagain, if_neg hthird]
    omega
  · rw [if_neg hagain, if_neg hagain]
    omega

/-- The addresses of a stack that begins at `lim0`, with the one just behind it. -/
def addresses (lim0 : Word) : Finset Word :=
  (Finset.range (stackSize + 1)).image fun i => lim0 + BitVec.ofNat 64 i

theorem card_addresses (lim0 : Word) : (addresses lim0).card ≤ stackSize + 1 :=
  calc (addresses lim0).card
      ≤ (Finset.range (stackSize + 1)).card := Finset.card_image_le
    _ = stackSize + 1 := Finset.card_range _

theorem mem_addresses (h : Apart lim0 lim1 adj) {a : Word} (ha : Between lim0 lim1 a) :
    a ∈ addresses lim0 := by
  have hlimits := limits_toNat h
  have hlim1 := lim1.isLt
  simp only [Between, not_or, BitVec.lt_def, gt_iff_lt] at ha
  refine Finset.mem_image.mpr ⟨a.toNat - lim0.toNat, ?_, ?_⟩
  · rw [Finset.mem_range]
    unfold stackSize
    omega
  · apply BitVec.eq_of_toNat_eq
    rw [BitVec.toNat_add, BitVec.toNat_ofNat]
    omega

/-- A turn that does not leave the loop adjusts the word `p` points to, and follows it. -/
theorem adjTurn_stays {l : Adjust} (h : (adjTurn lim0 lim1 adj l).broken = false) :
    Between lim0 lim1 (l.mem l.p + adj) ∧
      (adjTurn lim0 lim1 adj l).mem = l.mem.store l.p (l.mem l.p + adj) ∧
      (adjTurn lim0 lim1 adj l).p = l.mem l.p + adj := by
  unfold adjTurn at h ⊢
  by_cases hbroken : l.broken = true
  · rw [if_pos hbroken, hbroken] at h
    cases h
  · rw [if_neg hbroken] at h ⊢
    by_cases hout : l.mem l.p + adj < lim0 ∨ l.mem l.p + adj > lim1
    · rw [if_pos hout] at h
      cases h
    · rw [if_neg hout]
      exact ⟨hout, rfl, rfl⟩

theorem adjTurn_broken {l : Adjust} (h : l.broken = true) :
    (adjTurn lim0 lim1 adj l).broken = true := by
  unfold adjTurn
  rw [if_pos h]
  exact h

/-- **The loop reaches its `break`** from any memory and any place, and soon. -/
theorem adjTurns_terminates (h : Apart lim0 lim1 adj) (l : Adjust) {n : Nat}
    (hn : 2 * (stackSize + 2) < n) : (adjTurns lim0 lim1 adj n l).broken = true := by
  have hcard : (insert l.p (addresses lim0)).card ≤ stackSize + 2 :=
    (Finset.card_insert_le _ _).trans (Nat.succ_le_succ (card_addresses lim0))
  unfold adjTurns
  have hstable : ∀ l : Adjust, l.broken = true → (adjTurn lim0 lim1 adj l).broken = true :=
    fun l hl => adjTurn_broken hl
  refine cells_halt Adjust.mem Adjust.p hstable (insert l.p (addresses lim0))
    (timesLeft lim0 lim1 adj) 2 (timesLeft_le lim0 lim1 adj) (fun l' hl' => ?_)
    (Finset.mem_insert_self ..) (by omega)
  obtain ⟨hin, hmem, hp⟩ := adjTurn_stays (Bool.eq_false_iff.mpr hl')
  refine ⟨?_, l'.mem l'.p + adj, timesLeft_adjusted h hin, hmem⟩
  rw [hp]
  exact Finset.mem_insert_of_mem (mem_addresses h hin)

end Loop

/-! ### In `adjstack` and in `sched_fork` -/

/-- **`adjstack` terminates** with the limits of any stack and with any distance of two stacks
that do not overlap, whatever memory and the registers contain. -/
theorem adjstack_terminates {lim0 lim1 adj : Word} (hsize : lim1 - lim0 = BitVec.ofNat 64 stackSize)
    (hup : stackSize ≤ adj.toNat) (hdown : adj.toNat ≤ 2 ^ 64 - stackSize) (m : Memory) (r : Regs)
    (ret : Word) {n : Nat} (hn : 2 * (stackSize + 2) < n) :
    (adjTurns lim0 lim1 adj n (adjstack m r ret adj)).broken = true :=
  adjTurns_terminates ⟨hsize, hup, hdown⟩ _ hn

/-- Adjacent stacks, in a memory in which every word leads to the start of the first one. -/
theorem adjstack_terminates_adjacent :
    (adjTurns 0x20000 0x30000 0x10000 140000
      (adjstack (fun _ => 0x10000) ⟨0, 0x10000, 0, 0, 0, 0, 0x1ff00, 0⟩ 0 0x10000)).broken = true :=
  adjstack_terminates (by decide +kernel) (by decide +kernel) (by decide +kernel) _ _ _
    (by decide +kernel)

/-- The distance of two stacks that do not overlap. -/
theorem Apart.of_disjoint {A B : Area stackSize} (h : A.Disjoint B) :
    Apart B.base B.limit (A.shift B) := by
  have hA := A.limit_toNat
  have hB := B.limit_toNat
  have hlimA := A.limit.isLt
  have hlimB := B.limit.isLt
  have hshift : (A.shift B).toNat = (2 ^ 64 - A.base.toNat + B.base.toNat) % 2 ^ 64 :=
    BitVec.toNat_sub ..
  refine ⟨add_sub_cancel_left _ _, ?_, ?_⟩
  all_goals
    rcases h with h | h
    all_goals
      rw [BitVec.le_def] at h
      omega

/-- The child's stack gets ready, whatever the stack of the parent contains. -/
theorem copyStack_returns {A B : Area stackSize} (h : A.Disjoint B) (m : Memory) (r : Regs)
    (ret ret' : Word) {n : Nat} (hn : 2 * (stackSize + 2) < n) :
    (copyStack m r A.base B.base ret ret' n).isSome := by
  have hbroken : (adjustCopy m r A.base B.base ret n).broken = true :=
    adjTurns_terminates (Apart.of_disjoint h) _ hn
  unfold copyStack
  rw [if_pos hbroken]
  rfl

end Ece357.Sched
