import Mathlib.Algebra.BigOperators.Group.Finset.Piecewise
import Mathlib.Algebra.Order.BigOperators.Group.Finset
import Ece357.Machine.TasLock
import Ece357.TasTest.Model

/-!
# Ece357.TasTest.Counting

**The lock loses no update.** The word of the lock only ever holds 0 or 1, so the exchange of
its low byte takes the lock exactly when the word is 0, and the store of the whole word frees
it. Between a load of `map[0]` and the store of the value loaded plus one, nobody else is in
the section that writes it (`Counted.knows`); so `map[0]` counts the stores, and outside all
sections those are the loop bodies completed.
-/

namespace Ece357.TasTest

open Ece357.Machine

variable {P : Type} {m m' : Map} {l l' : Local} {n : Nat}

/-! ### One instruction -/

theorem tas_free : tas 0 = (0, 1) := by decide

theorem tas_taken : tas 1 = (1, 1) := by decide

/-- How an instruction treats the lock: it takes it, frees it, or leaves it alone. -/
theorem instr_lock (h : instr n m l = some (m', l')) (hword : m.lock = 0 ∨ m.lock = 1) :
    (m.lock = 0 ∧ m'.lock = 1 ∧ l'.pc.inCrit = true) ∨
    (l.pc.inCrit = true ∧ m'.lock = 0 ∧ l'.pc.inCrit = false) ∨
    (m'.lock = m.lock ∧ l'.pc.inCrit = l.pc.inCrit) := by
  cases hpc : l.pc <;>
    simp only [instr, hpc, reduceCtorEq, Option.some.injEq, Prod.mk.injEq] at h <;>
    obtain ⟨rfl, rfl⟩ := h
  case test =>
      right; right
      split_ifs <;> exact ⟨rfl, rfl⟩
  case tas =>
      rcases hword with hfree | htaken
      · left
        rw [hfree, tas_free]
        exact ⟨rfl, rfl, rfl⟩
      · right; right
        rw [htaken, tas_taken]
        exact ⟨rfl, rfl⟩
  case unlock => exact .inr (.inl ⟨rfl, rfl, rfl⟩)
  all_goals exact .inr (.inr ⟨rfl, rfl⟩)

/-- The increments a process has stored: those of its completed bodies, and the one of the
body it has not completed. -/
def Local.stored (l : Local) : Nat := l.j + if l.pc = .unlock then 1 else 0

/-- Only the store counts, and only it writes `map[0]`. -/
theorem instr_stored (h : instr n m l = some (m', l')) :
    (m'.counter = m.counter ∧ l'.stored = l.stored) ∨
    ∃ v, l.pc = .store v ∧ m'.counter = v + 1 ∧ l'.stored = l.stored + 1 := by
  cases hpc : l.pc <;>
    simp only [instr, hpc, reduceCtorEq, Option.some.injEq, Prod.mk.injEq] at h <;>
    obtain ⟨rfl, rfl⟩ := h
  case test =>
      left
      split_ifs <;> simp [Local.stored, hpc]
  case tas =>
      left
      split_ifs <;> simp [Local.stored, hpc]
  case load => simp [Local.stored, hpc]
  case store v => exact .inr ⟨v, rfl, rfl, by simp [Local.stored, hpc]⟩
  case unlock => simp [Local.stored, hpc]

/-- The value to be stored is the one just loaded. -/
theorem instr_loads {v : BitVec 32} (h : instr n m l = some (m', l')) (hpc' : l'.pc = .store v) :
    v = m'.counter := by
  cases hpc : l.pc <;>
    simp only [instr, hpc, reduceCtorEq, Option.some.injEq, Prod.mk.injEq] at h <;>
    obtain ⟨rfl, rfl⟩ := h
  case test | tas => split_ifs at hpc'
  case load => exact (Pc.store.inj hpc').symm
  all_goals cases hpc'

/-- A process does not run through its loop more often than it is meant to. -/
structure Local.Within (l : Local) (n : Nat) : Prop where
  le : l.j ≤ n
  lt : l.pc ≠ .test → l.pc ≠ .done → l.j < n
  done : l.pc = .done → l.j = n

theorem instr_within (h : instr n m l = some (m', l')) (hl : l.Within n) : l'.Within n := by
  have hle := hl.le
  have hlt := hl.lt
  cases hpc : l.pc <;>
    simp only [instr, hpc, reduceCtorEq, Option.some.injEq, Prod.mk.injEq] at h <;>
    obtain ⟨rfl, rfl⟩ := h <;>
    simp only [hpc, ne_eq, reduceCtorEq, not_false_eq_true, not_true_eq_false, forall_const,
      false_implies] at hlt
  case test =>
      split_ifs with hj
      · exact ⟨hle, fun _ _ => hj, by simp⟩
      · exact ⟨hle, by simp, fun _ => by show l.j = n; omega⟩
  case tas =>
      split_ifs
      · exact ⟨hle, fun _ _ => hlt, by simp⟩
      · exact ⟨hle, fun _ _ => hlt, by simp⟩
  case unlock => exact ⟨hlt, by simp, by simp⟩
  all_goals exact ⟨hle, fun _ _ => hlt, by simp⟩

/-! ### Every run -/

variable [Fintype P] [DecidableEq P] {iters : P → Nat} {s s' : State P} {p : P}

/-- What the lock, the counter and the control points have to do with each other. -/
structure Counted (iters : P → Nat) (s : State P) : Prop where
  word : s.map.lock = 0 ∨ s.map.lock = 1
  excl : Exclusive (s.map.lock = 0) fun p => (s.loc p).pc.inCrit = true
  knows : ∀ p v, (s.loc p).pc = .store v → v = s.map.counter
  counter : s.map.counter = BitVec.ofNat 32 (∑ p, (s.loc p).stored)
  within : ∀ p, (s.loc p).Within (iters p)

omit [DecidableEq P] in
theorem Counted.start : Counted iters (start : State P) where
  word := .inl rfl
  excl := .start rfl fun _ => Bool.false_ne_true
  knows p v hpc := by cases hpc
  counter := by simp [TasTest.start, Local.stored]
  within p := ⟨Nat.zero_le _, fun htest => absurd rfl htest, fun hdone => by cases hdone⟩

/-- A sum over all processes changes by what the one that moves contributes. -/
theorem sum_update (f : Local → Nat) (loc : P → Local) (p : P) (l : Local) :
    ∑ q, f (Function.update loc p l q) + f (loc p) = ∑ q, f (loc q) + f l := by
  have hupdate : ∀ q,
      f (Function.update loc p l q) = Function.update (fun q => f (loc q)) p (f l) q :=
    fun q => Function.apply_update (fun _ => f) loc p l q
  simp only [hupdate]
  rw [Finset.sum_update_of_mem (Finset.mem_univ p), ← Finset.add_sum_erase _ _ (Finset.mem_univ p),
    Finset.sdiff_singleton_eq_erase]
  omega

/-- The lock, for the process that moves and the others. -/
theorem Counted.excl_step (hc : Counted iters s)
    (ho : instr (iters p) s.map (s.loc p) = some (m', l')) :
    Exclusive (m'.lock = 0) fun q => (Function.update s.loc p l' q).pc.inCrit = true := by
  rcases instr_lock ho hc.word with ⟨hfree, htaken, hin⟩ | ⟨hin, hfree, hout⟩ | ⟨hlock, hsame⟩
  · refine hc.excl.acquire (p := p) hfree (by rw [htaken]; decide) fun q => ?_
    by_cases hq : q = p <;> simp [hq, hin]
  · refine hc.excl.release (p := p) hin hfree fun q => ?_
    by_cases hq : q = p <;> simp [hq, hout]
  · refine hc.excl.keep (by rw [hlock]) fun q => ?_
    by_cases hq : q = p <;> simp [hq, hsame]

/-- Whoever has loaded `map[0]` finds it as it was: only one process at a time is there. -/
theorem Counted.knows_step (hc : Counted iters s)
    (ho : instr (iters p) s.map (s.loc p) = some (m', l')) (q : P) (v : BitVec 32)
    (hq : (Function.update s.loc p l' q).pc = .store v) : v = m'.counter := by
  by_cases hqp : q = p
  · subst hqp
    rw [Function.update_self] at hq
    exact instr_loads ho hq
  · rw [Function.update_of_ne hqp] at hq
    rcases instr_stored ho with ⟨hsame, -⟩ | ⟨w, hstore, -, -⟩
    · rw [hsame]
      exact hc.knows q v hq
    · have hin : (s.loc p).pc.inCrit = true := by rw [hstore]; rfl
      have hout := hc.excl.not_holds hin hqp
      rw [hq] at hout
      exact absurd rfl hout

theorem Counted.step (hc : Counted iters s) (h : step iters s p = some s') : Counted iters s' := by
  obtain ⟨⟨m', l'⟩, ho, rfl⟩ := Option.map_eq_some_iff.mp h
  have hsum := sum_update Local.stored s.loc p l'
  refine ⟨?_, hc.excl_step ho, hc.knows_step ho, ?_, fun q => ?_⟩
  · rcases instr_lock ho hc.word with ⟨-, htaken, -⟩ | ⟨-, hfree, -⟩ | ⟨hlock, -⟩
    · exact .inr htaken
    · exact .inl hfree
    · exact hlock ▸ hc.word
  · rcases instr_stored ho with ⟨hsame, hstored⟩ | ⟨v, hstore, hnew, hstored⟩
    · have heq : ∑ q, (Function.update s.loc p l' q).stored = ∑ q, (s.loc q).stored := by omega
      show m'.counter = _
      rw [hsame, hc.counter, heq]
    · have heq : ∑ q, (Function.update s.loc p l' q).stored = ∑ q, (s.loc q).stored + 1 := by omega
      show m'.counter = _
      rw [hnew, hc.knows p v hstore, hc.counter, heq, BitVec.ofNat_add]
      rfl
  · show (Function.update s.loc p l' q).Within _
    by_cases hq : q = p
    · subst hq
      rw [Function.update_self]
      exact instr_within ho (hc.within q)
    · rw [Function.update_of_ne hq]
      exact hc.within q

theorem Counted.reach {ok : State P → P → Prop} (h : (system iters).Reach ok s) :
    Counted iters s := by
  refine h.invariant (fun ha => ?_) fun _ hc _ hst => hc.step hst
  rw [ha]
  exact .start

omit [DecidableEq P] in
/-- Outside all critical sections every increment stored is that of a completed body. -/
theorem Counted.counter_eq (hc : Counted iters s) (hout : ∀ p, (s.loc p).pc.inCrit = false) :
    s.map.counter = BitVec.ofNat 32 s.completed := by
  have hstored : ∀ p, (s.loc p).stored = (s.loc p).j := by
    intro p
    have hp : (s.loc p).pc ≠ .unlock := by
      intro hpc
      have hin := hout p
      rw [hpc] at hin
      cases hin
    rw [Local.stored, if_neg hp, Nat.add_zero]
  rw [hc.counter]
  simp only [hstored, State.completed]

/-- **No update is lost.** For any processes and any numbers of iterations that an `int` can
count, in every state that the processes can reach together: if nobody is in a critical
section, `map[0]` is the number of loop bodies completed; so when all have finished, it is the
sum of their iterations. -/
theorem no_lost_update (iters : P → Nat) (hfits : ∑ p, iters p < 2 ^ 31) (s : State P)
    (h : (system iters).Reach System.any s) :
    ((∀ p, (s.loc p).pc.inCrit = false) → s.map.counter.toInt = s.completed) ∧
      ((∀ p, (s.loc p).pc = .done) → s.map.counter.toInt = ∑ p, iters p) := by
  have hc := Counted.reach h
  have hle : s.completed ≤ ∑ p, iters p := Finset.sum_le_sum fun p _ => (hc.within p).le
  have hout : (∀ p, (s.loc p).pc.inCrit = false) → s.map.counter.toInt = s.completed := by
    intro hout
    rw [hc.counter_eq hout, BitVec.toInt_ofNat']
    exact Int.bmod_eq_of_le (by omega) (by omega)
  refine ⟨hout, fun hdone => ?_⟩
  have hall : s.completed = ∑ p, iters p :=
    Finset.sum_congr rfl fun p _ => (hc.within p).done (hdone p)
  rw [← hall]
  exact hout fun p => by rw [hdone p]; rfl

/-- Two processes with one iteration each take turns in the middle of their loops: the second
finds the lock taken. -/
def turns : List Bool :=
  [true, false, false, true, false, false, true, false, true, true, true, true, true, false]

theorem no_lost_update_two : ∃ s : State Bool,
    (system fun _ => 1).Reach System.any s ∧ s.map.counter.toInt = 2 := by
  obtain ⟨s, hreach, hs⟩ := System.reach_of_exec (system fun _ : Bool => 1) System.any
    (step fun _ => 1) (fun _ _ => true) id rfl turns (fun s => decide (∀ p, (s.loc p).pc = .done))
    (fun _ _ _ _ => trivial) (by decide +kernel)
  have hfinal := (no_lost_update (fun _ => 1) (by decide) s hreach).2 (of_decide_eq_true hs)
  exact ⟨s, hreach, hfinal⟩

end Ece357.TasTest
