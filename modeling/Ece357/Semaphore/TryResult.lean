import Ece357.Machine.Ghost
import Ece357.Semaphore.Exclusion

/-!
# Ece357.Semaphore.TryResult

**What `sem_try` returns.** It decides under the lock whether to decrement the count, and
computes its result from a second read of the count, after the lock is released. The count is
never negative, so that result is always 1: right if the call has decremented the count, and
wrong if it has found it at zero, whatever other processes do in between.

An observer keeps, for each process, the count that its last `sem_try` has examined.
-/

namespace Ece357.Semaphore

open Ece357.Machine

variable {P : Type} {c : Config P} {p : P} {m : Sem} {l : Local} {o : Outcome}

/-- The count that each process has examined last: that of the struct while it stands before
the test of `sem_try`. -/
def examine (s _ : State P) (examined : P → Int) (p : P) : Int :=
  if (s.loc p).pc = .tryTest then s.sem.count else examined p

/-- The semaphore with an observer of what is examined. -/
def examining [DecidableEq P] (c : Config P) (count : Int) :
    System (State P × (P → Int)) (Label P) :=
  (system c count fun _ => True).observed (fun _ _ => 0) examine

/-- What a call of `sem_try` has to return: 1 if it has decremented the count and 0 if not, in
particular if the count examined was 0. -/
def Truthful (took : Bool) (ret examined : Int) : Prop :=
  (ret = if took then 1 else 0) ∧ (examined = 0 → ret = 0)

/-- What the count examined has decided, and what the result is. -/
def Pc.Decided (examined : Int) : Pc → Prop
  | .tryLoad | .tryStore _ => examined ≠ 0
  | .tryUnlock took | .tryRet took => took = true ↔ examined ≠ 0
  | .tryDone took ret => (took = true ↔ examined ≠ 0) ∧ ret = 1
  | _ => True

/-- One instruction: the test decides, the rest of the call sticks to it, and the second read
finds a count that is not negative. -/
theorem instr_decided {examined : Int} (h : instr c p m l = some o)
    (hd : l.pc.Decided examined) (hnn : 0 ≤ m.count) :
    o.loc.pc.Decided (if l.pc = .tryTest then m.count else examined) := by
  cases hpc : l.pc <;> simp only [instr, hpc, reduceCtorEq, Option.some.injEq] at h <;> subst h <;>
    simp only [hpc, Pc.Decided] at hd
  case tryTas | waitTas | incTas =>
    by_cases hm : m.lock = 0 <;> simp [spin_pc, hm, hpc, Pc.Decided]
  case tryTest => by_cases hz : m.count = 0 <;> simp [hz, Pc.Decided]
  case waitTest | incScan => split_ifs <;> trivial
  case tryLoad | tryUnlock => simpa [Pc.Decided] using hd
  case tryStore v => simpa [Pc.Decided] using hd
  case tryRet took =>
    have hpos : m.count + 1 > 0 := by omega
    simpa [Pc.Decided, hpos] using hd
  all_goals trivial

theorem Pc.Jump.decided {pc pc' : Pc} {examined e' : Int} (h : pc.Jump pc')
    (hd : pc.Decided examined) (he : pc ≠ .tryTest → e' = examined) : pc'.Decided e' := by
  cases h with
  | stay =>
      by_cases htest : pc = .tryTest
      · rw [htest]
        trivial
      · rw [he htest]
        exact hd
  | call op => cases op <;> trivial
  | wake => trivial

variable [DecidableEq P] {count : Int} {x : State P × (P → Int)}

/-- Every process sticks to what it has decided. -/
theorem decided (hc : 0 ≤ count) (h : (examining c count).Reach (System.beside System.any) x) :
    ∀ p, (x.1.loc p).pc.Decided (x.2 p) := by
  refine h.watched (I := fun s e => ∀ p, (s.loc p).pc.Decided (e p)) (fun ha p => ?_) ?_
  · rw [ha.1.idle p]
    trivial
  · intro s lbl s' e hreach ha _ hst q
    have hnn := (Counted.reach hc hreach).nonneg
    have hkeep : (s.loc q).pc ≠ .tryTest → examine s s' e q = e q := fun htest => if_neg htest
    rcases step_control hst with ⟨-, -, -, hjump⟩ | ⟨p, o, -, -, ho, rfl⟩
    · exact (hjump q).decided (ha q) hkeep
    · rw [install_pc]
      split_ifs with hqp
      · subst hqp
        exact instr_decided ho (ha q) hnn
      · exact (Pc.Jump.stay _).decided (ha q) hkeep

/-- **When `sem_try` tells the truth**: exactly if the count it examined was not zero. -/
theorem sem_try_truthful_iff (c : Config P) (count : Int) (hc : 0 ≤ count)
    (x : State P × (P → Int)) (h : (examining c count).Reach (System.beside System.any) x)
    (p : P) (took : Bool) (ret : Int) (hpc : (x.1.loc p).pc = .tryDone took ret) :
    Truthful took ret (x.2 p) ↔ x.2 p ≠ 0 := by
  have hd := decided hc h p
  rw [hpc] at hd
  obtain ⟨htook, rfl⟩ := hd
  constructor
  · intro htrue hz
    cases htrue.2 hz
  · intro hne
    rw [htook.mpr hne]
    exact ⟨rfl, fun hz => absurd hz hne⟩

/-- Process 0 calls `sem_try` and returns. -/
def tryRun (steps : Nat) : List (Label Bool) :=
  .call false .semTry :: List.replicate steps (.exec false)

theorem sem_try_truthful_iff_one : ∃ x : State Bool × (Bool → Int),
    (examining pair 1).Reach (System.beside System.any) x ∧
      (x.1.loc false).pc = .tryDone true 1 ∧ (Truthful true 1 (x.2 false) ↔ x.2 false ≠ 0) := by
  obtain ⟨s, hreach, hpc⟩ := pair_reach 1 false (fun _ => True) System.any trivial (tryRun 6)
    (fun s => (s.loc false).pc = .tryDone true 1) (by decide +kernel)
  obtain ⟨e, hx⟩ : ∃ e, (examining pair 1).Reach (System.beside System.any) (s, e) :=
    hreach.observe
  exact ⟨_, hx, hpc, sem_try_truthful_iff pair 1 (by decide) _ hx false true 1 hpc⟩

/-- **A `sem_try` that lies.** The count is zero, and a single call returns 1 without having
decremented it. -/
theorem sem_try_lies : ¬ ∀ (x : State Bool × (Bool → Int)) (p : Bool) (took : Bool) (ret : Int),
    (examining pair 0).Reach (System.beside System.any) x → (x.1.loc p).pc = .tryDone took ret →
      Truthful took ret (x.2 p) := by
  intro hall
  obtain ⟨s, hreach, hpc⟩ := pair_reach 0 false (fun _ => True) System.any trivial (tryRun 4)
    (fun s => (s.loc false).pc = .tryDone false 1) (by decide +kernel)
  obtain ⟨e, hx⟩ : ∃ e, (examining pair 0).Reach (System.beside System.any) (s, e) :=
    hreach.observe
  have htrue := (hall _ false false 1 hx hpc).1
  cases htrue

end Ece357.Semaphore
