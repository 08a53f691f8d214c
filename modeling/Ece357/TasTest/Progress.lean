import Mathlib.Algebra.BigOperators.Ring.Finset
import Ece357.TasTest.Counting

/-!
# Ece357.TasTest.Progress

**The test comes to an end.** Turns of the spin loop at a lock that is taken apart, which change
nothing, every step of a process brings it one further in its loop (`instr_made`), and there is
always a process that can make such a step until all have finished: whoever holds the lock, or
else anybody. So whatever the schedule, the number of steps is known beforehand, and so is
`map[0]` after the last of them (`all_finish`).
-/

namespace Ece357.TasTest

open Ece357.Machine

variable {P : Type} {m m' : Map} {l l' : Local} {n : Nat}

/-- The process does not make a turn at a lock that is taken. -/
def Useful (s : State P) (p : P) : Prop := (s.loc p).pc = .tas → s.map.lock = 0

instance (s : State P) (p : P) : Decidable (Useful s p) :=
  inferInstanceAs (Decidable (_ → _))

/-- The steps a process has made: five for each body, and those of the body it is in. -/
def Local.made (l : Local) : Nat :=
  5 * l.j + match l.pc with
    | .test => 0
    | .tas => 1
    | .load => 2
    | .store _ => 3
    | .unlock => 4
    | .done => 1

theorem instr_made (h : instr n m l = some (m', l')) (hfree : l.pc = .tas → m.lock = 0) :
    l'.made = l.made + 1 := by
  cases hpc : l.pc <;>
    simp only [instr, hpc, reduceCtorEq, Option.some.injEq, Prod.mk.injEq] at h <;>
    obtain ⟨-, rfl⟩ := h
  case test => split_ifs <;> simp [Local.made, hpc]
  case tas =>
      rw [hfree hpc, tas_free]
      simp [Local.made, hpc]
  case unlock =>
      simp only [Local.made, hpc]
      omega
  all_goals simp [Local.made, hpc]

/-- A process has not made more steps than it has to make in all, and if it has made them all, it
has finished. -/
theorem Local.Within.made_le (h : l.Within n) : l.made ≤ 5 * n + 1 := by
  have hle := h.le
  have hlt := h.lt
  unfold Local.made
  cases hpc : l.pc <;> simp only [hpc, ne_eq, reduceCtorEq, not_false_eq_true, not_true_eq_false,
    forall_const, false_implies] at hlt ⊢ <;> omega

theorem Local.Within.made_done (h : l.Within n) (hpc : l.pc = .done) : l.made = 5 * n + 1 := by
  rw [Local.made, hpc, h.done hpc]

variable [Fintype P] {iters : P → Nat} {s s' : State P} {p : P}

/-- The steps all processes have made. -/
def State.made (s : State P) : Nat := ∑ p, (s.loc p).made

/-- The steps all processes have to make. -/
def allSteps (iters : P → Nat) : Nat := 5 * ∑ p, iters p + Fintype.card P

theorem sum_steps (iters : P → Nat) : ∑ p, (5 * iters p + 1) = allSteps iters := by
  simp [allSteps, Finset.sum_add_distrib, Finset.mul_sum]

/-- At the start nobody has made a step. -/
theorem made_start : (start : State P).made = 0 := by
  simp [State.made, start, Local.made]

theorem made_le (hc : Counted iters s) : s.made ≤ allSteps iters := by
  rw [← sum_steps]
  exact Finset.sum_le_sum fun p _ => (hc.within p).made_le

/-- When all have finished, `map[0]` is what it should be. -/
theorem all_done (hc : Counted iters s) (hfits : ∑ p, iters p < 2 ^ 31)
    (hdone : ∀ p, (s.loc p).pc = .done) :
    s.made = allSteps iters ∧ s.map.lock = 0 ∧ s.map.counter.toInt = ∑ p, iters p := by
  have hout : ∀ p, (s.loc p).pc.inCrit = false := fun p => by rw [hdone p]; rfl
  have hall : s.completed = ∑ p, iters p :=
    Finset.sum_congr rfl fun p _ => (hc.within p).done (hdone p)
  refine ⟨?_, hc.excl.free_iff.mpr fun p => by rw [hout p]; exact Bool.false_ne_true, ?_⟩
  · rw [← sum_steps]
    exact Finset.sum_congr rfl fun p _ => (hc.within p).made_done (hdone p)
  · rw [hc.counter_eq hout, hall, BitVec.toInt_ofNat']
    exact Int.bmod_eq_of_le (by omega) (by omega)

variable [DecidableEq P]

theorem step_made (h : step iters s p = some s') (hu : Useful s p) : s'.made = s.made + 1 := by
  obtain ⟨⟨m', l'⟩, ho, rfl⟩ := Option.map_eq_some_iff.mp h
  have hsum := sum_update Local.made s.loc p l'
  have hone := instr_made ho hu
  unfold State.made
  dsimp only
  omega

/-- Unless all have finished, somebody can go on. -/
theorem done_or_useful (hc : Counted iters s) :
    (∀ p, (s.loc p).pc = .done) ∨ ∃ p, Useful s p ∧ (step iters s p).isSome := by
  have hready : ∀ p, (s.loc p).pc ≠ .done → (step iters s p).isSome := by
    intro p hp
    cases hpc : (s.loc p).pc <;> simp_all [step, instr]
  by_cases hcrit : ∃ p, (s.loc p).pc.inCrit = true
  · -- the process in its section does not wait for the lock
    obtain ⟨p, hin⟩ := hcrit
    refine .inr ⟨p, fun hpc => ?_, hready p fun hpc => ?_⟩
    · rw [hpc] at hin
      cases hin
    · rw [hpc] at hin
      cases hin
  · have hfree : s.map.lock = 0 := hc.excl.free_iff.mpr fun p hin => hcrit ⟨p, hin⟩
    by_cases hdone : ∀ p, (s.loc p).pc = .done
    · exact .inl hdone
    · obtain ⟨p, hp⟩ := not_forall.mp hdone
      exact .inr ⟨p, fun _ => hfree, hready p hp⟩

/-- **All processes finish.** From every state that they can reach and for every schedule from
there, turns at a lock that is taken apart: when five steps have been made for each loop body, and
one for each process, all have finished, the lock is free and `map[0]` is the sum of their
iterations; before that, some process can make a step, and after it none. -/
theorem all_finish (iters : P → Nat) (hfits : ∑ p, iters p < 2 ^ 31) (s : State P)
    (h : (system iters).Reach System.any s) (ps : List P) (s' : State P)
    (hrun : System.exec (step iters) (fun s p => decide (Useful s p)) s ps = some s') :
    s.made + ps.length = allSteps iters ∧ (∀ p, (s'.loc p).pc = .done) ∧ s'.map.lock = 0 ∧
        s'.map.counter.toInt = ∑ p, iters p ∨
      s.made + ps.length < allSteps iters ∧ ∃ p, Useful s' p ∧ (step iters s' p).isSome := by
  obtain ⟨hreach, hmade⟩ := System.exec_counted
    (I := fun n t => (system iters).Reach System.any t ∧ t.made = n)
    (fun {n t p t'} ht hu hst => by
      have hone := step_made hst (of_decide_eq_true hu)
      exact ⟨ht.1.step trivial hst, by rw [hone, ht.2]⟩)
    (n := s.made) ⟨h, rfl⟩ hrun
  have hc := Counted.reach hreach
  rcases done_or_useful hc with hdone | ⟨p, hu, hsome⟩
  · obtain ⟨hall, hfree, hcounter⟩ := all_done hc hfits hdone
    exact .inl ⟨hmade.symm.trans hall, hdone, hfree, hcounter⟩
  · refine .inr ⟨?_, p, hu, hsome⟩
    obtain ⟨s'', hst⟩ := Option.isSome_iff_exists.mp hsome
    have hmore := step_made hst hu
    have hle := made_le (.reach (hreach.step trivial hst))
    omega

/-- Two processes with one iteration each, without the turn that finds the lock taken. -/
def finishing : List Bool :=
  [true, false, false, false, false, false, true, false, true, true, true, true]

theorem all_finish_two : ∃ s : State Bool,
    System.exec (step fun _ => 1) (fun s p => decide (Useful s p)) start finishing = some s ∧
      (∀ p, (s.loc p).pc = .done) ∧ s.map.counter.toInt = 2 := by
  obtain ⟨s, hs⟩ : ∃ s : State Bool, System.exec (step fun _ => 1)
      (fun s p => decide (Useful s p)) start finishing = some s :=
    Option.isSome_iff_exists.mp (by decide +kernel)
  rcases all_finish (fun _ : Bool => 1) (by decide) start (.init rfl) finishing s hs with
    ⟨-, hdone, -, hcounter⟩ | ⟨hlt, -⟩
  · exact ⟨s, hs, hdone, hcounter⟩
  · rw [made_start] at hlt
    exact absurd hlt (by decide)

end Ece357.TasTest
