import Mathlib.Tactic.SplitIfs
import Ece357.Machine.TasLock
import Ece357.Semaphore.Model

/-!
# Ece357.Semaphore.Exclusion

**Mutual exclusion and conservation.** The count is read and written by separate
loads and stores, in three operations with differently shaped critical sections.
The invariant `Counted` ties the lock byte to the control points, fixes what each
control point inside a section knows about the count, and balances the count
against the ghost counters.

It is proved per instruction (`instr_lock`, `instr_pcOk`, `instr_balance`) for
the process that moves; the processes that do not move keep what they know
because only a process inside its section writes the count (`instr_count`).
-/

namespace Ece357.Semaphore

open Ece357.Machine

variable {P : Type} {c : Config P} {p : P} {m : Sem} {l : Local} {o : Outcome}

/-! ### Critical sections -/

/-- Between an exchange that returned 0 and the store `s->lock = 0`. -/
def Pc.inCrit : Pc → Bool
  | .tryTest | .tryLoad | .tryStore _ | .tryUnlock _ => true
  | .waitSignal | .waitBlock | .waitTest | .waitClear | .waitLoad | .waitStore _ => true
  | .waitUnlock | .waitRelease => true
  | .incLoad | .incStore _ | .incScan _ | .incKill _ | .incSend _ _ | .incUnlock => true
  | _ => false

/-- What a process inside its section knows about the count. -/
def Pc.Knows (count : Int) : Pc → Prop
  | .tryLoad | .waitClear | .waitLoad => 0 < count
  | .tryStore v | .waitStore v => v = count ∧ 0 < count
  | .incStore v => v = count
  | .waitRelease => count = 0
  | _ => True

theorem Pc.Knows.of_outside {count : Int} {pc : Pc} (h : pc.inCrit = false) : pc.Knows count := by
  cases pc <;> simp_all [Pc.inCrit, Pc.Knows]

/-! ### One instruction -/

/-- An instruction enters a section through the free lock, leaves one by freeing
it, or touches neither. -/
theorem instr_lock (h : instr c p m l = some o) :
    (m.lock = 0 ∧ l.pc.inCrit = false ∧ o.sem.lock ≠ 0 ∧ o.loc.pc.inCrit = true) ∨
    (l.pc.inCrit = true ∧ o.sem.lock = 0 ∧ o.loc.pc.inCrit = false) ∨
    ((o.sem.lock = 0 ↔ m.lock = 0) ∧ o.loc.pc.inCrit = l.pc.inCrit) := by
  cases hpc : l.pc <;> simp only [instr, hpc, reduceCtorEq, Option.some.injEq] at h <;> subst h
  case tryTas | waitTas | incTas => by_cases hm : m.lock = 0 <;> simp [spin_pc, hm, hpc, Pc.inCrit]
  case tryTest | waitTest | incScan => simp only [Pc.inCrit]; split_ifs <;> simp
  all_goals simp [Pc.inCrit]

/-- Only a process inside its section writes the count. -/
theorem instr_count (h : instr c p m l = some o) (hout : l.pc.inCrit = false) :
    o.sem.count = m.count := by
  cases hpc : l.pc <;> simp only [instr, hpc, reduceCtorEq, Option.some.injEq] at h <;> subst h
  all_goals simp_all [Pc.inCrit]

/-- The process that moves knows, at its next control point, what that point requires. -/
theorem instr_pcOk (h : instr c p m l = some o) (hk : l.pc.Knows m.count)
    (hnn : 0 ≤ m.count) : o.loc.pc.Knows o.sem.count := by
  cases hpc : l.pc <;> simp only [instr, hpc, reduceCtorEq, Option.some.injEq] at h <;> subst h <;>
    simp only [hpc, Pc.Knows] at hk
  case tryTas | waitTas | incTas => by_cases hm : m.lock = 0 <;> simp [spin_pc, hm, hpc, Pc.Knows]
  case tryTest | waitTest | incScan => split_ifs <;> simp only [Pc.Knows] <;> omega
  all_goals simp_all [Pc.Knows]

/-- The count moves by exactly what the ghost counters record, and stays non-negative. -/
theorem instr_balance (h : instr c p m l = some o) (hk : l.pc.Knows m.count)
    (hnn : 0 ≤ m.count) :
    0 ≤ o.sem.count ∧
    o.sem.count = m.count + (if o.fx = .incremented then 1 else 0)
      - (if o.fx = .decremented then 1 else 0) := by
  cases hpc : l.pc <;> simp only [instr, hpc, reduceCtorEq, Option.some.injEq] at h <;> subst h <;>
    simp only [hpc, Pc.Knows] at hk
  all_goals simp_all
  all_goals omega

/-! ### One step of the system -/

variable {s s' : State P} {lbl : Label P}

section Step
variable [DecidableEq P]

theorem install_pc (q : P) : ((s.install c p o).loc q).pc =
    if q = p then o.loc.pc else (s.loc q).pc := by
  by_cases hq : q = p <;> simp [State.install, Local.receive, Function.update_apply, hq]

/-- The control points a call or a delivery moves a process between. -/
inductive Pc.Jump : Pc → Pc → Prop
  | stay (pc : Pc) : Jump pc pc
  | call (op : Op) : Jump .idle op.entry
  | wake : Jump .waitAsleep .waitUnblock

theorem Pc.Jump.inCrit {pc pc' : Pc} (h : pc.Jump pc') : pc'.inCrit = pc.inCrit := by
  cases h with
  | stay => rfl
  | call op => cases op <;> rfl
  | wake => rfl

theorem Pc.Jump.knows {pc pc' : Pc} {count : Int} (h : pc.Jump pc') (hk : pc.Knows count) :
    pc'.Knows count := by
  cases h with
  | stay => exact hk
  | call op => cases op <;> trivial
  | wake => trivial

theorem deliver_jump (l : Local) : l.pc.Jump l.deliver.pc := by
  unfold Local.deliver
  split_ifs with _ hpc
  · rw [hpc]; exact .wake
  · exact .stay _
  · exact .stay _

/-- What a step can do to the struct, the counters and the control points: a call
or a delivery makes jumps and touches nothing shared; anything else is one
instruction of one process. -/
theorem step_control (h : step c s lbl = some s') :
    (s'.sem = s.sem ∧ s'.incs = s.incs ∧ s'.decs = s.decs ∧
      ∀ q, (s.loc q).pc.Jump (s'.loc q).pc) ∨
    ∃ p o, lbl = .exec p ∧ (s.loc p).alive = true ∧
      instr c p s.sem (s.loc p) = some o ∧ s' = s.install c p o := by
  cases lbl with
  | call p op =>
      simp only [step] at h
      split at h
      · rename_i hidle
        obtain rfl := Option.some.inj h
        refine .inl ⟨rfl, rfl, rfl, fun q => ?_⟩
        by_cases hq : q = p
        · simp only [hq, Function.update_self, hidle.2]
          exact .call op
        · simp only [Function.update_of_ne hq]
          exact .stay _
      · cases h
  | exec p =>
      simp only [step] at h
      split at h
      · rename_i halive
        obtain ⟨o, ho, rfl⟩ := Option.map_eq_some_iff.mp h
        exact .inr ⟨p, o, rfl, halive, ho, rfl⟩
      · cases h
  | deliver p =>
      simp only [step] at h
      split at h
      · obtain rfl := Option.some.inj h
        refine .inl ⟨rfl, rfl, rfl, fun q => ?_⟩
        by_cases hq : q = p
        · simp only [hq, Function.update_self]
          exact deliver_jump _
        · simp only [Function.update_of_ne hq]
          exact .stay _
      · cases h

theorem step_jump (h : step c s lbl = some s') (hlbl : ∀ p, lbl ≠ .exec p) :
    ∀ q, (s.loc q).pc.Jump (s'.loc q).pc := by
  rcases step_control h with ⟨-, -, -, hjump⟩ | ⟨p, _, hexec, -⟩
  · exact hjump
  · exact absurd hexec (hlbl p)

/-- What a step does to process `q`. -/
inductive LocalMove (c : Config P) (s : State P) (lbl : Label P) (q : P) : Local → Prop
  /-- Others move; one of them may send it a signal. -/
  | stays (hit : Bool) : LocalMove c s lbl q ((s.loc q).receive hit)
  | calls (op : Op) (hidle : (s.loc q).pc = .idle) :
      LocalMove c s lbl q { s.loc q with pc := op.entry }
  | executes {o : Outcome} (ho : instr c q s.sem (s.loc q) = some o) (hit : Bool) :
      LocalMove c s lbl q (o.loc.receive hit)
  | delivers (hlbl : lbl = .deliver q) : LocalMove c s lbl q (s.loc q).deliver

theorem receive_false (l : Local) : l.receive false = l := by
  simp [Local.receive]

theorem step_local (h : step c s lbl = some s') (q : P) : LocalMove c s lbl q (s'.loc q) := by
  have hstays : LocalMove c s lbl q (s.loc q) := by
    have hmove : LocalMove c s lbl q ((s.loc q).receive false) := .stays false
    rwa [receive_false] at hmove
  cases lbl with
  | call p op =>
      simp only [step, Option.ite_none_right_eq_some, Option.some.injEq] at h
      obtain ⟨hidle, rfl⟩ := h
      by_cases hq : q = p
      · subst hq
        simpa using LocalMove.calls op hidle.2
      · simpa [hq] using hstays
  | exec p =>
      simp only [step, Option.ite_none_right_eq_some, Option.map_eq_some_iff] at h
      obtain ⟨-, o, ho, rfl⟩ := h
      by_cases hq : q = p
      · subst hq
        simpa [State.install] using LocalMove.executes ho (o.fx.hits (c.pid q))
      · simpa [State.install, hq] using LocalMove.stays (o.fx.hits (c.pid q))
  | deliver p =>
      simp only [step, Option.ite_none_right_eq_some, Option.some.injEq] at h
      obtain ⟨-, rfl⟩ := h
      by_cases hq : q = p
      · subst hq
        simpa using LocalMove.delivers rfl
      · simpa [hq] using hstays

end Step

/-! ### The lock -/

/-- The lock byte is taken exactly while somebody is inside a section, and at most one
process ever is. -/
abbrev Guarded (s : State P) : Prop :=
  Exclusive (s.sem.lock = 0) fun p => (s.loc p).pc.inCrit = true

theorem Guarded.initial {count : Int} (h : Initial count s) : Guarded s := by
  obtain ⟨m, hm⟩ := h.sem
  exact .start (by simp [hm, semInit]) (by simp [h.idle, Pc.inCrit])

section Step
variable [DecidableEq P]

/-- For the process that moves and those that do not. -/
theorem Guarded.install (hg : Guarded s) (ho : instr c p s.sem (s.loc p) = some o) :
    Guarded (s.install c p o) := by
  rcases instr_lock ho with ⟨hfree, hout, htaken, hin⟩ | ⟨hin, hfree, hout⟩ | ⟨hlock, hsame⟩
  · refine hg.acquire (p := p) hfree htaken fun q => ?_
    by_cases hq : q = p <;> simp [install_pc, hq, hin]
  · refine hg.release (p := p) hin hfree fun q => ?_
    by_cases hq : q = p <;> simp [install_pc, hq, hout]
  · refine hg.keep hlock fun q => ?_
    by_cases hq : q = p <;> simp [install_pc, hq, hsame]

theorem Guarded.step (hg : Guarded s) (h : step c s lbl = some s') : Guarded s' := by
  rcases step_control h with ⟨hsem, -, -, hjump⟩ | ⟨p, o, -, -, ho, rfl⟩
  · exact hg.keep (by rw [hsem]) fun q => by rw [(hjump q).inCrit]
  · exact hg.install ho

/-- Whatever the initial count. -/
theorem Guarded.reach {count : Int} {extra : State P → Prop} {ok : State P → Label P → Prop}
    (h : (system c count extra).Reach ok s) : Guarded s :=
  h.invariant (fun ha => .initial ha.1) fun _ hg _ hst => hg.step hst

end Step

/-! ### The invariant -/

/-- The invariant behind mutual exclusion and conservation. -/
structure Counted (count : Int) (s : State P) : Prop where
  excl : Exclusive (s.sem.lock = 0) fun p => (s.loc p).pc.inCrit = true
  nonneg : 0 ≤ s.sem.count
  balance : s.sem.count = count + s.incs - s.decs
  knows : ∀ p, (s.loc p).pc.Knows s.sem.count

theorem Counted.initial {count : Int} (hc : 0 ≤ count) (h : Initial count s) :
    Counted count s := by
  obtain ⟨m, hm⟩ := h.sem
  exact
    { excl := Guarded.initial h
      nonneg := by simpa [hm, semInit] using hc
      balance := by simp [hm, semInit, h.incs, h.decs]
      knows := by simp [h.idle, Pc.Knows] }

variable [DecidableEq P]

theorem Counted.step {count : Int} (hi : Counted count s) (h : step c s lbl = some s') :
    Counted count s' := by
  rcases step_control h with ⟨hsem, hincs, hdecs, hjump⟩ | ⟨p, o, -, -, ho, rfl⟩
  · exact
      { excl := Guarded.step hi.excl h
        nonneg := by rw [hsem]; exact hi.nonneg
        balance := by rw [hsem, hincs, hdecs]; exact hi.balance
        knows := fun q => by rw [hsem]; exact (hjump q).knows (hi.knows q) }
  · obtain ⟨hnn, hbal⟩ := instr_balance ho (hi.knows p) hi.nonneg
    refine ⟨Guarded.install hi.excl ho, hnn, ?_, fun q => ?_⟩
    · have hold := hi.balance
      simp only [State.install]
      split_ifs at hbal ⊢ <;> push_cast <;> omega
    · rw [install_pc]
      by_cases hq : q = p
      · rw [if_pos hq]
        exact instr_pcOk ho (hi.knows p) hi.nonneg
      · rw [if_neg hq]
        -- `q` did not move: either `p` was outside and left the count alone, or `q` is outside.
        cases hp : (s.loc p).pc.inCrit with
        | false =>
            have hcount : (s.install c p o).sem.count = s.sem.count := instr_count ho hp
            rw [hcount]; exact hi.knows q
        | true => exact .of_outside (by simpa using hi.excl.not_holds hp hq)

/-- `Counted` holds in every state of every run, whatever steps the runs are
restricted to. -/
theorem Counted.reach {count : Int} (hc : 0 ≤ count) {extra : State P → Prop}
    {ok : State P → Label P → Prop} (h : (system c count extra).Reach ok s) : Counted count s :=
  h.invariant (fun ha => .initial hc ha.1) fun _ hi _ hst => hi.step hst

/-- **Mutual exclusion and conservation.** From any non-negative initial count, for
any processes and any interleaving: at most one process is inside a critical
section, the count is never negative, outside all sections it is the initial
count plus the completed increments minus the completed decrements, and never
more than that many acquisitions have succeeded. -/
theorem semaphore_conserves (c : Config P) (count : Int) (hc : 0 ≤ count) (s : State P)
    (h : (system c count fun _ => True).Reach System.any s) :
    (∀ p q, (s.loc p).pc.inCrit = true → (s.loc q).pc.inCrit = true → p = q) ∧
    0 ≤ s.sem.count ∧
    ((∀ p, (s.loc p).pc.inCrit = false) → s.sem.count = count + s.incs - s.decs) ∧
    (s.decs : Int) ≤ count + s.incs := by
  have hi := Counted.reach hc h
  refine ⟨fun p q hp hq => hi.excl.unique hp hq, hi.nonneg, fun _ => hi.balance, ?_⟩
  have hbal := hi.balance
  have hnn := hi.nonneg
  omega

/-- Process 0 waits successfully on a count of 1, then process 1 starts to increment. -/
def acquireRun : List (Label Bool) :=
  .call false .semWait :: List.replicate 9 (.exec false) ++
  .call true .semInc :: List.replicate 3 (.exec true)

theorem semaphore_conserves_acquired :
    ∃ s : State Bool, s.decs = 1 ∧ s.incs = 1 ∧ (s.decs : Int) ≤ 1 + s.incs := by
  obtain ⟨s, hreach, hdecs, hincs⟩ := pair_reach 1 false (fun _ => True) System.any trivial
    acquireRun (fun s => s.decs = 1 ∧ s.incs = 1) (by decide +kernel)
  exact ⟨s, hdecs, hincs, (semaphore_conserves pair 1 (by decide) s hreach).2.2.2⟩

end Ece357.Semaphore
