import Ece357.Machine.Ghost
import Ece357.Semaphore.Exclusion

/-!
# Ece357.Semaphore.Masks

**The signal mask of a waiter.** Each round of `sem_wait` blocks the signals of `new_mask`; a
round that has slept unblocks them all, also those that the caller had blocked itself; and the
call returns from the middle of a round, where they are blocked. What it saved in `old_mask`
is never put back.

So after any number of rounds the mask at the return is the mask at the entry with all of
`new_mask` added (`wait_returns`), and that is the same mask only if the caller had blocked
all of `new_mask` before (`sem_wait_mask_iff`). An observer keeps the masks at the entries.
-/

namespace Ece357.Semaphore

open Ece357.Machine

variable {P : Type} {c : Config P} {p : P} {m : Sem} {l : Local} {o : Outcome}

/-- The two masks block the same signals. -/
def SameMask (mask mask' : SigSet) : Prop := ∀ n, blockable n = true → mask n = mask' n

/-- The caller of `sem_wait` blocks all signals of `new_mask` already. -/
def BlocksNewMask (entry : SigSet) : Prop :=
  ∀ n, blockable n = true → newMask n = true → entry n = true

/-- The mask with which each process has entered its last `sem_wait`. -/
def entered (_ s' : State P) (entry : P → SigSet) (p : P) : SigSet :=
  if (s'.loc p).pc = .waitRegister then (s'.loc p).mask else entry p

/-- The semaphore with an observer of the masks at the entry of `sem_wait`. -/
def entering [DecidableEq P] (c : Config P) (count : Int) :
    System (State P × (P → SigSet)) (Label P) :=
  (system c count fun _ => True).observed (fun s p => (s.loc p).mask) entered

/-! ### The rounds -/

/-- The mask between two rounds: `new_mask` apart, it is the mask at the entry. -/
def Spared (entry mask : SigSet) : Prop :=
  ∀ n, blockable n = true → newMask n = false → mask n = entry n

/-- The mask within a round: that at the entry and all of `new_mask`. -/
def Added (entry mask : SigSet) : Prop :=
  ∀ n, blockable n = true → mask n = (entry n || newMask n)

/-- What the masks of a process in `sem_wait` have to do with the mask at the entry. -/
def Local.Masked (entry : SigSet) (l : Local) : Prop :=
  match l.pc with
  | .waitRegister => l.mask = entry
  | .waitTas | .waitSignal | .waitBlock => Spared entry l.mask
  | .waitTest | .waitClear | .waitLoad | .waitStore _ | .waitUnlock => Added entry l.mask
  | .waitRelease | .waitSuspend | .waitUnblock => Added entry l.mask
  | .waitAsleep => Added entry l.saved
  | _ => True

theorem Spared.block {entry mask : SigSet} (h : Spared entry mask) :
    Added entry (sigBlock mask newMask) := by
  intro n hn
  have hcan : unblockable n = false := by
    rw [blockable, Bool.and_eq_true, Bool.not_eq_true'] at hn
    exact hn.2
  cases hnew : newMask n with
  | true => simp [sigBlock, hnew, hcan]
  | false => simp [sigBlock, hnew, h n hn hnew]

theorem Added.unblock {entry mask : SigSet} (h : Added entry mask) :
    Spared entry (sigUnblock mask newMask) := by
  intro n hn hnew
  simp [sigUnblock, hnew, h n hn]

theorem instr_masked {entry : SigSet} (h : instr c p m l = some o) (hl : l.Masked entry) :
    o.loc.Masked entry := by
  cases hpc : l.pc <;> simp only [instr, hpc, reduceCtorEq, Option.some.injEq] at h <;> subst h <;>
    simp only [Local.Masked, hpc] at hl
  case tryTas | incTas => by_cases hm : m.lock = 0 <;> simp [spin, tas, hm, Local.Masked, hpc]
  case waitTas =>
    by_cases hm : m.lock = 0 <;> simpa [spin, tas, hm, Local.Masked, hpc] using hl
  case tryTest | incScan => split_ifs <;> trivial
  case waitTest => split_ifs <;> exact hl
  case waitRegister => exact fun n _ _ => by rw [hl]
  case waitBlock => exact hl.block
  case waitUnblock => exact hl.unblock
  case waitSignal | waitClear | waitLoad | waitStore | waitRelease | waitSuspend => exact hl
  all_goals trivial

/-- The sleep puts back the mask it found. -/
theorem deliver_masked {entry : SigSet} (hl : l.Masked entry) : l.deliver.Masked entry := by
  unfold Local.deliver
  split_ifs with _ hpc
  · simpa [Local.Masked, hpc] using hl
  · exact hl
  · exact hl

theorem receive_masked {entry : SigSet} {hit : Bool} (hl : l.Masked entry) :
    (l.receive hit).Masked entry := hl

theorem LocalMove.masked {entry : SigSet} {s : State P} {lbl : Label P} (h : LocalMove c s lbl p l)
    (hold : (s.loc p).Masked entry) (hpc : l.pc ≠ .waitRegister) : l.Masked entry := by
  cases h with
  | stays hit => exact receive_masked hold
  | calls op hidle =>
      cases op with
      | semWait => exact absurd rfl hpc
      | semTry | semInc => trivial
  | executes ho hit => exact receive_masked (instr_masked ho hold)
  | delivers => exact deliver_masked hold

section Runs
variable [DecidableEq P] {count : Int} {x : State P × (P → SigSet)} {s s' : State P}

theorem masked (h : (entering c count).Reach (System.beside System.any) x) :
    ∀ p, (x.1.loc p).Masked (x.2 p) := by
  refine h.watched (I := fun s e => ∀ p, (s.loc p).Masked (e p)) (fun ha p => ?_) ?_
  · simp [Local.Masked, ha.1.idle p]
  · intro s lbl s' e _ ha _ hst q
    by_cases henter : (s'.loc q).pc = .waitRegister
    · simp [Local.Masked, entered, henter]
    · rw [entered, if_neg henter]
      exact (step_local hst q).masked (ha q) henter

/-- **The mask at the return** of `sem_wait` is that at its entry and all of `new_mask`. -/
theorem wait_returns (h : (entering c count).Reach (System.beside System.any) x)
    (hpc : (x.1.loc p).pc = .waitUnlock) (hst : step c x.1 (.exec p) = some s') :
    (s'.loc p).pc = .idle ∧ Added (x.2 p) (s'.loc p).mask := by
  have hmask := masked h p
  rw [Local.Masked, hpc] at hmask
  simp only [step, instr, hpc, Option.map_some, Option.ite_none_right_eq_some,
    Option.some.injEq] at hst
  obtain ⟨-, rfl⟩ := hst
  simpa [State.install, Local.receive] using hmask

/-- **When `sem_wait` leaves the mask alone**: exactly if its caller had blocked all signals of
`sigfillset` but SIGINT and SIGUSR1 before. -/
theorem sem_wait_mask_iff (c : Config P) (count : Int) (x : State P × (P → SigSet))
    (h : (entering c count).Reach (System.beside System.any) x) (p : P) (s' : State P)
    (hpc : (x.1.loc p).pc = .waitUnlock) (hst : step c x.1 (.exec p) = some s') :
    SameMask (s'.loc p).mask (x.2 p) ↔ BlocksNewMask (x.2 p) := by
  have hadded := (wait_returns h hpc hst).2
  constructor
  · intro hsame n hn hnew
    rw [← hsame n hn, hadded n hn, hnew, Bool.or_true]
  · intro hblocks n hn
    rw [hadded n hn]
    cases hnew : newMask n with
    | true => rw [hblocks n hn hnew, Bool.true_or]
    | false => rw [Bool.or_false]

end Runs

/-! ### A mask that grows -/

/-- Process 0 waits successfully on a count of 1, up to the return. -/
def waitRun : List (Label Bool) := .call false .semWait :: List.replicate 8 (.exec false)

theorem wait_at_return : ∃ x, (entering pair 1).Reach (System.beside System.any) x ∧
    (x.1.loc false).pc = .waitUnlock ∧ (x.1.loc false).alive = true ∧ x.2 false SIGTERM = false :=
  pair_watch 1 false _ entered System.any waitRun _ (by decide +kernel)

theorem wait_exec {s : State Bool} (hpc : (s.loc false).pc = .waitUnlock)
    (halive : (s.loc false).alive = true) : ∃ s', step pair s (.exec false) = some s' := by
  simp [step, instr, hpc, halive]

theorem sem_wait_mask_iff_free : ∃ (x : State Bool × (Bool → SigSet)) (s' : State Bool),
    step pair x.1 (.exec false) = some s' ∧ (s'.loc false).pc = .idle ∧
      (SameMask (s'.loc false).mask (x.2 false) ↔ BlocksNewMask (x.2 false)) := by
  obtain ⟨x, hx, hpc, halive, -⟩ := wait_at_return
  obtain ⟨s', hst⟩ := wait_exec hpc halive
  exact ⟨x, s', hst, (wait_returns hx hpc hst).1, sem_wait_mask_iff pair 1 x hx false s' hpc hst⟩

/-- **A mask that grows.** SIGTERM is not blocked when process 0 calls `sem_wait`, and is
blocked when it returns. -/
theorem sem_wait_blocks : ¬ ∀ (x : State Bool × (Bool → SigSet)) (p : Bool) (s' : State Bool),
    (entering pair 1).Reach (System.beside System.any) x → (x.1.loc p).pc = .waitUnlock →
      step pair x.1 (.exec p) = some s' → SameMask (s'.loc p).mask (x.2 p) := by
  intro hall
  obtain ⟨x, hx, hpc, halive, hfree⟩ := wait_at_return
  obtain ⟨s', hst⟩ := wait_exec hpc halive
  have hsame := hall x false s' hx hpc hst SIGTERM (by decide)
  have hadded := (wait_returns hx hpc hst).2 SIGTERM (by decide)
  rw [hsame, hfree] at hadded
  exact absurd hadded (by decide)

end Ece357.Semaphore
