import Mathlib.Data.Fintype.Card
import Ece357.Machine.Halting
import Ece357.Semaphore.Handler

/-!
# Ece357.Semaphore.Progress

**The operations come to an end.** Turns at a lock that is taken, and new calls, apart, only so
many steps can be made: every process has only so many before it, the scan of a `sem_inc` sends
at most one signal for each slot, and a signal sets going no more than one round of a `sem_wait`
(`State.worth`).

And as long as not everybody is outside the operations or asleep in one, some process can make
such a step: whoever holds the lock is alive and never waits for anything, so the lock is freed.
No schedule leads to a deadlock, and in the end the sleepers are those that are left without a
count, if no wake-up has been lost (`calls_settle`).
-/

namespace Ece357.Semaphore

open Ece357.Machine

variable {P : Type} {c : Config P} {p : P} {m : Sem} {l : Local} {o : Outcome}

/-! ### Steps that get somewhere -/

/-- Before a turn of `while (tas(&s->lock)) ;`. -/
def Pc.spins : Pc → Bool
  | .tryTas | .waitTas | .incTas => true
  | _ => false

theorem Pc.inCrit_of_spins {pc : Pc} (h : pc.spins = true) : pc.inCrit = false := by
  cases pc <;> first | rfl | cases h

/-- No call is begun, and no turn is made at a lock that is taken. -/
def Useful (s : State P) : Label P → Prop
  | .call _ _ => False
  | .exec p => (s.loc p).pc.spins = true → s.sem.lock = 0
  | .deliver _ => True

instance (s : State P) : (lbl : Label P) → Decidable (Useful s lbl)
  | .call _ _ => .isFalse id
  | .exec p => inferInstanceAs (Decidable ((s.loc p).pc.spins = true → s.sem.lock = 0))
  | .deliver _ => .isTrue trivial

/-! ### What is left to do -/

/-- What a signal can set going: its delivery, and a round of `sem_wait`. -/
def roundSteps : Nat := 10

/-- The steps of a scan that has come to slot `i`, and those of the signals it has still to send. -/
def scanSteps (i : Nat) : Nat := (roundSteps + 3) * (nProc - i) + 2

/-- The steps of a process until it is outside the operations or asleep, and those of the signals
it sends on the way. -/
def Pc.steps : Pc → Nat
  | .idle => 0
  | .tryTas => 7
  | .tryTest => 6
  | .tryLoad => 5
  | .tryStore _ => 4
  | .tryUnlock _ => 3
  | .tryRet _ => 2
  | .tryDone _ _ => 1
  | .waitRegister => 9
  | .waitTas => 8
  | .waitSignal => 7
  | .waitBlock => 6
  | .waitTest => 5
  | .waitClear => 4
  | .waitLoad => 3
  | .waitStore _ => 2
  | .waitUnlock => 1
  | .waitRelease => 2
  | .waitSuspend => 1
  | .waitAsleep => 0
  | .waitUnblock => 9
  | .incTas => scanSteps 0 + 3
  | .incLoad => scanSteps 0 + 2
  | .incStore _ => scanSteps 0 + 1
  | .incScan i => scanSteps i
  | .incKill i => scanSteps (i + 1) + roundSteps + 2
  | .incSend i _ => scanSteps (i + 1) + roundSteps + 1
  | .incUnlock => 1

/-- The signals an instruction sends. -/
def Effect.signals : Effect → Nat
  | .kill _ => 1
  | _ => 0

/-- The signals that wait for a process. -/
def Local.signals (l : Local) : Nat := if l.usr1Pending then 1 else 0

theorem scanSteps_succ {i : Nat} (h : i < nProc) :
    scanSteps i = scanSteps (i + 1) + roundSteps + 3 := by
  unfold scanSteps roundSteps nProc at *
  omega

theorem scanSteps_le (i : Nat) : scanSteps i ≤ scanSteps 0 := by
  unfold scanSteps roundSteps
  omega

theorem Pc.steps_le (pc : Pc) : pc.steps ≤ scanSteps 0 + 3 := by
  have hzero : scanSteps 0 = 834 := by decide
  cases pc with
  | incScan i =>
      have hle := scanSteps_le i
      simp only [Pc.steps]
      omega
  | incKill i | incSend i =>
      simp only [Pc.steps, scanSteps, roundSteps, nProc]
      omega
  | _ =>
      simp only [Pc.steps]
      omega

/-- An instruction that gets somewhere takes itself, and a round for each signal it sends, off
the steps that are left. -/
theorem instr_steps (h : instr c p m l = some o) (hspin : l.pc.spins = true → m.lock = 0) :
    o.loc.pc.steps + 1 + roundSteps * o.fx.signals ≤ l.pc.steps := by
  cases hpc : l.pc <;> simp only [instr, hpc, reduceCtorEq, Option.some.injEq] at h <;> subst h
  case tryTas | waitTas | incTas =>
    have hfree : m.lock = 0 := hspin (by rw [hpc]; rfl)
    simp [spin_pc, hfree, Pc.steps, Effect.signals]
  case tryTest | waitTest => split_ifs <;> simp [Pc.steps, Effect.signals]
  case incScan i =>
    simp only [Effect.signals, Nat.mul_zero]
    split_ifs with hi hslot
    · have hsucc := scanSteps_succ hi
      simp only [Pc.steps]
      omega
    · have hsucc := scanSteps_succ hi
      simp only [Pc.steps]
      omega
    · simp only [Pc.steps, scanSteps]
      omega
  all_goals
    simp only [Pc.steps, Effect.signals, roundSteps]
    omega

/-! ### One step -/

section Step
variable [Fintype P] {s s' : State P} {lbl : Label P}

/-- What is left to do, for all processes. -/
def State.worth (s : State P) : Nat :=
  ∑ p, (s.loc p).pc.steps + roundSteps * ∑ p, (s.loc p).signals

theorem State.worth_le (s : State P) : s.worth ≤ Fintype.card P * 847 := by
  have hsteps : ∑ p, (s.loc p).pc.steps ≤ Fintype.card P * 837 := by
    rw [← smul_eq_mul]
    exact Finset.sum_le_card_nsmul _ _ 837 fun p _ => (s.loc p).pc.steps_le
  have hsignals : ∑ p, (s.loc p).signals ≤ Fintype.card P * 1 := by
    rw [← smul_eq_mul]
    refine Finset.sum_le_card_nsmul _ _ 1 fun p _ => ?_
    unfold Local.signals
    split_ifs <;> omega
  unfold worth roundSteps
  omega

variable [DecidableEq P]

/-- A signal reaches at most one process. -/
theorem install_signals (hr : Registered c s) (ho : instr c p s.sem (s.loc p) = some o) :
    ∑ q, ((s.install c p o).loc q).signals ≤ ∑ q, (s.loc q).signals + o.fx.signals := by
  have hpending : ∀ q, ((s.install c p o).loc q).usr1Pending =
      ((s.loc q).usr1Pending || o.fx.hits (c.pid q)) := by
    intro q
    rw [install_pending]
    split_ifs with hq
    · rw [instr_pending ho, hq]
    · rfl
  cases hfx : o.fx with
  | kill v =>
      obtain ⟨i, hpc⟩ : ∃ i, (s.loc p).pc = .incSend i v := instr_kill ho hfx
      obtain ⟨r, -, -, -, honly⟩ := hr.target hpc
      have hoff : ∀ q, q ≠ r → ((s.install c p o).loc q).signals = (s.loc q).signals := by
        intro q hq
        have hmiss : (Effect.kill v).hits (c.pid q) = false :=
          Bool.eq_false_iff.mpr fun hhit => hq (honly q hhit)
        rw [Local.signals, hpending, hfx, hmiss, Bool.or_false, Local.signals]
      have hsum := sum_off hoff
      have hone : ((s.install c p o).loc r).signals ≤ 1 := by
        unfold Local.signals
        split_ifs <;> omega
      simp only [Effect.signals]
      omega
  | _ =>
      refine Finset.sum_le_sum fun q _ => ?_
      rw [Local.signals, hpending, hfx]
      simp [Effect.hits, Local.signals]

/-- **A step that gets somewhere** leaves less to do. -/
theorem Useful.spends (hr : Registered c s) (hu : Useful s lbl) (h : step c s lbl = some s') :
    s'.worth + 1 ≤ s.worth := by
  cases lbl with
  | call p op => exact hu.elim
  | exec p =>
      simp only [step, Option.ite_none_right_eq_some, Option.map_eq_some_iff] at h
      obtain ⟨-, o, ho, rfl⟩ := h
      have hsteps := instr_steps ho hu
      have hsignals := install_signals hr ho
      have hsum := sum_off (f := fun q => (s.loc q).pc.steps)
        (g := fun q => ((s.install c p o).loc q).pc.steps) (a := p)
        fun q hq => by simp [install_pc, hq]
      simp only [install_pc, if_true] at hsum
      unfold State.worth
      simp only [install_pc]
      unfold roundSteps at *
      omega
  | deliver p =>
      simp only [step, Option.ite_none_right_eq_some, Option.some.injEq] at h
      obtain ⟨⟨-, hpending, -⟩, rfl⟩ := h
      have hsteps := sum_off (f := fun q => (s.loc q).pc.steps)
        (g := fun q => (Function.update s.loc p (s.loc p).deliver q).pc.steps) (a := p)
        fun q hq => by simp [hq]
      have hsignals := sum_off (f := fun q => (s.loc q).signals)
        (g := fun q => (Function.update s.loc p (s.loc p).deliver q).signals) (a := p)
        fun q hq => by simp [hq]
      have hone : (s.loc p).signals = 1 := by simp [Local.signals, hpending]
      have hnone : (s.loc p).deliver.signals = 0 := by
        unfold Local.deliver
        split_ifs <;> rfl
      have hround : (s.loc p).deliver.pc.steps ≤ (s.loc p).pc.steps + 9 := by
        unfold Local.deliver
        split_ifs <;> simp [Pc.steps]
      simp only [Function.update_self] at hsteps hsignals
      unfold State.worth roundSteps
      dsimp only
      omega

end Step

/-! ### Who can go on -/

/-- Nothing terminates the process, and in its sleep it can be woken. -/
structure Local.Prepared (l : Local) : Prop where
  handler : l.usr1Handler = true
  alive : l.alive = true
  wakes : l.pc = .waitAsleep → l.mask SIGUSR1 = false

theorem instr_wakes (h : instr c p m l = some o) (hpc' : o.loc.pc = .waitAsleep) :
    o.loc.mask SIGUSR1 = false := by
  cases hpc : l.pc <;> simp only [instr, hpc, reduceCtorEq, Option.some.injEq] at h <;> subst h
  case tryTas | waitTas | incTas =>
    rw [spin_pc] at hpc'
    split_ifs at hpc'
    rw [hpc] at hpc'
    cases hpc'
  case tryTest | waitTest | incScan => split_ifs at hpc'
  case waitSuspend => exact (by decide : suspendMask newMask SIGUSR1 = false)
  all_goals cases hpc'

/-- A process in an operation that is not asleep has an instruction to execute. -/
theorem instr_ready (hidle : l.pc ≠ .idle) (hasleep : l.pc ≠ .waitAsleep) :
    ∃ o, instr c p m l = some o := by
  cases hpc : l.pc <;> simp_all [instr]

section Runs
variable {s s' : State P} {lbl : Label P} {count : Int}

theorem LocalMove.prepared (h : LocalMove c s lbl p l) (hp : (s.loc p).Prepared) : l.Prepared := by
  have hhandler := hp.handler
  cases h with
  | stays hit => exact ⟨hp.handler, hp.alive, hp.wakes⟩
  | calls op hidle => exact ⟨hp.handler, hp.alive, fun hpc => by cases op <;> cases hpc⟩
  | executes ho hit =>
      exact ⟨instr_handler ho hp.handler, (instr_alive ho).trans hp.alive, instr_wakes ho⟩
  | delivers hlbl =>
      simp only [Local.deliver, hhandler, if_true]
      split_ifs with hasleep
      · exact ⟨rfl, hp.alive, fun hpc => by cases hpc⟩
      · exact ⟨rfl, hp.alive, fun hpc => absurd hpc hasleep⟩

/-- Everybody is outside the operations, or asleep in one with no signal to come, and the lock
is free. -/
structure Settled (s : State P) : Prop where
  still : ∀ p, (s.loc p).pc = .idle ∨ (s.loc p).pc = .waitAsleep ∧ (s.loc p).usr1Pending = false
  free : s.sem.lock = 0

/-- Whoever sleeps when everything has settled sleeps on a count of zero. -/
theorem Settled.zero (hs : Settled s) (hh : Heard c s) (hg : Guarded s)
    (hasleep : (s.loc p).pc = .waitAsleep) : s.sem.count = 0 := by
  have hpending : (s.loc p).usr1Pending = false := by
    rcases hs.still p with hidle | ⟨-, hnone⟩
    · rw [hidle] at hasleep
      cases hasleep
    · exact hnone
  rcases hh.heard p (by rw [hasleep]; rfl) hpending with hzero | ⟨q, hreach⟩
  · exact hzero
  · exact absurd (Pc.inCrit_of_reaches hreach) (hg.free_iff.mp hs.free q)

variable [DecidableEq P]

theorem prepared {ok : State P → Label P → Prop}
    (h : (system c count (Handlers true)).Reach ok s) : ∀ p, (s.loc p).Prepared :=
  h.invariant (I := fun s => ∀ p, (s.loc p).Prepared)
    (fun ha p => ⟨ha.2 p, ha.1.alive p, fun hpc => by rw [ha.1.idle p] at hpc; cases hpc⟩)
    fun _ hi _ hst p => (step_local hst p).prepared (hi p)

theorem exec_ready (hp : (s.loc p).Prepared) (hidle : (s.loc p).pc ≠ .idle)
    (hasleep : (s.loc p).pc ≠ .waitAsleep) : ∃ s', step c s (.exec p) = some s' := by
  obtain ⟨o, ho⟩ := instr_ready (c := c) (p := p) (m := s.sem) hidle hasleep
  exact ⟨s.install c p o, by simp [step, hp.alive, ho]⟩

/-- **No deadlock**: unless everything has settled, some step gets somewhere. -/
theorem settled_or_useful (hg : Guarded s) (hp : ∀ p, (s.loc p).Prepared) :
    Settled s ∨ ∃ lbl s', Useful s lbl ∧ step c s lbl = some s' := by
  by_cases hcrit : ∃ p, (s.loc p).pc.inCrit = true
  · -- whoever is inside its section never waits
    obtain ⟨p, hin⟩ := hcrit
    obtain ⟨s', hst⟩ := exec_ready (c := c) (hp p) (fun hpc => by rw [hpc] at hin; cases hin)
      fun hpc => by rw [hpc] at hin; cases hin
    refine .inr ⟨.exec p, s', fun hspin => ?_, hst⟩
    rw [Pc.inCrit_of_spins hspin] at hin
    cases hin
  · have hfree : s.sem.lock = 0 := hg.free_iff.mpr fun p hin => hcrit ⟨p, hin⟩
    by_cases hstill : ∀ p, (s.loc p).pc = .idle ∨
        (s.loc p).pc = .waitAsleep ∧ (s.loc p).usr1Pending = false
    · exact .inl ⟨hstill, hfree⟩
    · obtain ⟨p, hmoves⟩ := not_forall.mp hstill
      obtain ⟨hidle, hawake⟩ := not_or.mp hmoves
      refine .inr ?_
      by_cases hasleep : (s.loc p).pc = .waitAsleep
      · -- its signal wakes it up
        have hpending : (s.loc p).usr1Pending = true := by
          by_contra hnone
          exact hawake ⟨hasleep, by simpa using hnone⟩
        exact ⟨.deliver p, _, trivial, by
          rw [step, if_pos ⟨(hp p).alive, hpending, (hp p).wakes hasleep⟩]⟩
      · obtain ⟨s', hst⟩ := exec_ready (c := c) (hp p) hidle hasleep
        exact ⟨.exec p, s', fun _ => hfree, hst⟩

/-- **The operations come to an end.** With the handler installed everywhere, from every state that
the processes can reach: a stretch of a schedule in which no call is begun, and no turn made at a
lock that is taken, has no more than 54208 steps; behind it some process can make another one, as
long as not everybody is outside the operations or asleep in one; and then, if no signal has been
lost in the window before a sleep, whoever is asleep waits for a count that is zero. -/
theorem calls_settle (c : Config P) (count : Int) (hc : 0 ≤ count) (s : State P)
    (h : (system c count (Handlers true)).Reach System.any s) (ls : List (Label P)) (s' : State P)
    (hrun : System.exec (step c) (fun s lbl => decide (Useful s lbl)) s ls = some s') :
    ls.length ≤ nProc * 847 ∧
      (Settled s' ∨ ∃ lbl s'', Useful s' lbl ∧ step c s' lbl = some s'') ∧
      ((system c count (Handlers true)).Reach NoWindowDelivery s' → Settled s' →
        ∀ p, (s'.loc p).pc = .waitAsleep → s'.sem.count = 0) := by
  -- distinct numbers below 64 are those of at most 64 processes
  have hinj : Function.Injective fun p => (⟨c.myProcnum p, c.myProcnum_lt p⟩ : Fin nProc) :=
    fun p q hpq => c.myProcnum_inj (Fin.mk.inj hpq)
  have : Fintype P := Fintype.ofInjective _ hinj
  have hcard : Fintype.card P ≤ nProc := by
    simpa using Fintype.card_le_of_injective _ hinj
  obtain ⟨hreach, hspent⟩ := System.exec_counted
    (I := fun n t => (system c count (Handlers true)).Reach System.any t ∧ t.worth + n ≤ s.worth)
    (fun {n t lbl t'} ht hu hst => by
      have hspends := Useful.spends (.reach ht.1) (of_decide_eq_true hu) hst
      have hbefore := ht.2
      exact ⟨ht.1.step trivial hst, by omega⟩)
    (n := 0) ⟨h, le_rfl⟩ hrun
  refine ⟨?_, settled_or_useful (.reach hreach) (prepared hreach), fun hheard hsettled p => ?_⟩
  · have hworth := s.worth_le
    have hmost : Fintype.card P * 847 ≤ nProc * 847 := Nat.mul_le_mul_right 847 hcard
    omega
  · have hh : Heard c s' := hheard.invariant (fun ha => .initial ha.1 ha.2)
      fun hr hh hok hst => hh.step (.reach hc hr) (.reach hr) hok hst
    exact hsettled.zero hh (.reach hreach)

end Runs

/-- Process 1 increments the count on which process 0 sleeps, and process 0 acquires it. -/
def wokenRun : List (Label Bool) :=
  List.replicate 71 (.exec true) ++ .deliver false :: List.replicate 9 (.exec false)

theorem calls_settle_woken : ∃ s s' : State Bool, (s.loc false).pc = .waitAsleep ∧
    System.exec (step pair) (fun s lbl => decide (Useful s lbl)) s wokenRun = some s' ∧
    (Settled s' ∨ ∃ lbl s'', Useful s' lbl ∧ step pair s' lbl = some s'') := by
  obtain ⟨s, hreach, hasleep, hsome⟩ := pair_reach 0 true (Handlers true) System.any
    (fun _ => rfl) (sleepRun ++ [.call true .semInc]) (fun s => (s.loc false).pc = .waitAsleep ∧
      (System.exec (step pair) (fun s lbl => decide (Useful s lbl)) s wokenRun).isSome = true)
    (by decide +kernel)
  obtain ⟨s', hrun⟩ := Option.isSome_iff_exists.mp hsome
  exact ⟨s, s', hasleep, hrun, (calls_settle pair 0 le_rfl s hreach wokenRun s' hrun).2.1⟩

end Ece357.Semaphore
