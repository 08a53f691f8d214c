import Ece357.Semaphore.WakeUp

/-!
# Ece357.Semaphore.Handler

**Signals to unprepared processes.** On its first `sem_wait` a process stores its
pid in `procs` before it takes the lock, and installs the handler after. A
`sem_inc` that holds the lock meanwhile finds the pid and sends `SIGUSR1` to a
process whose default action is still to terminate.

The runs that avoid this are those in which the exposed situation never arises
(`Unexposed`): no process registers without a handler while a running scan has
its slot still to come, and no `sem_inc` takes the lock while such a process is
waiting for it. Once the situation has arisen the signal is certain, because the
exposed process cannot get past the lock.
-/

namespace Ece357.Semaphore

open Ece357.Machine

variable {P : Type} {c : Config P} {p : P} {m : Sem} {l : Local} {o : Outcome}

/-- The step condition: no step makes a process without handler and a scan meet. -/
def Unexposed (c : Config P) (s : State P) : Label P → Prop
  | .exec p =>
      ((s.loc p).pc = .waitRegister → (s.loc p).usr1Handler = false →
        ∀ q, (s.loc q).pc.reaches (c.myProcnum p) = false) ∧
      ((s.loc p).pc = .incTas → s.sem.lock = 0 →
        ∀ q, (s.loc q).pc = .waitTas → (s.loc q).usr1Handler = true)
  | _ => True

/-- Inside the loop of `sem_wait` and past the call of `signal`. -/
def Pc.prepared : Pc → Bool
  | .waitBlock | .waitTest | .waitClear | .waitRelease => true
  | .waitSuspend | .waitAsleep | .waitUnblock => true
  | _ => false

/-- A control point past `signal` is reached only with the handler installed. -/
theorem instr_prepared (h : instr c p m l = some o)
    (hl : l.pc.prepared = true → l.usr1Handler = true) (ho : o.loc.pc.prepared = true) :
    o.loc.usr1Handler = true := by
  cases hpc : l.pc <;> simp only [instr, hpc, reduceCtorEq, Option.some.injEq] at h <;> subst h <;>
    simp only [hpc, Pc.prepared, forall_const, Bool.false_eq_true, false_implies] at hl
  case tryTas | waitTas | incTas =>
    by_cases hm : m.lock = 0 <;> simp [spin_pc, hm, hpc, Pc.prepared] at ho
  case tryTest | incScan => split_ifs at ho <;> simp [Pc.prepared] at ho
  case waitSignal => rfl
  case waitBlock | waitTest | waitRelease | waitSuspend => exact hl
  all_goals simp [Pc.prepared] at ho

/-- A process comes to wait for the lock by registering, or with the handler installed. -/
theorem instr_waitTas (h : instr c p m l = some o)
    (hl : l.pc.prepared = true → l.usr1Handler = true) (ho : o.loc.pc = .waitTas)
    (hno : o.loc.usr1Handler = false) :
    l.usr1Handler = false ∧ (l.pc = .waitRegister ∨ l.pc = .waitTas) := by
  cases hpc : l.pc <;> simp only [instr, hpc, reduceCtorEq, Option.some.injEq] at h <;> subst h <;>
    simp only [hpc, Pc.prepared, forall_const, Bool.false_eq_true, false_implies] at hl
  case tryTas | incTas => by_cases hm : m.lock = 0 <;> simp [spin_pc, hm, hpc] at ho
  case tryTest | waitTest | incScan => split_ifs at ho
  case waitTas =>
    by_cases hm : m.lock = 0
    · simp [spin_pc, hm] at ho
    · exact ⟨by simpa [spin, tas, hm] using hno, .inr rfl⟩
  case waitRegister => exact ⟨hno, .inl rfl⟩
  case waitUnblock => simp [hl] at hno
  all_goals simp at ho

/-- A scan comes to have a slot ahead by taking the lock, or had it ahead already. -/
theorem instr_reaches_of {i : Nat} (h : instr c p m l = some o) (ho : o.loc.pc.reaches i = true) :
    l.pc.reaches i = true ∨ (l.pc = .incTas ∧ m.lock = 0) := by
  cases hpc : l.pc <;> simp only [instr, hpc, reduceCtorEq, Option.some.injEq] at h <;> subst h
  case incTas =>
    by_cases hm : m.lock = 0
    · exact .inr ⟨rfl, hm⟩
    · simp [spin_pc, hm, hpc, Pc.reaches] at ho
  case tryTas | waitTas => by_cases hm : m.lock = 0 <;> simp [spin_pc, hm, hpc, Pc.reaches] at ho
  case tryTest | waitTest => split_ifs at ho <;> simp [Pc.reaches] at ho
  case incScan j =>
    left
    by_cases hj : j < nProc <;> by_cases hz : m.procs j = 0 <;>
      simp only [hj, hz, ne_eq, not_true_eq_false, not_false_eq_true, if_true, if_false,
        Pc.reaches, decide_eq_true_eq, Bool.false_eq_true] at ho ⊢ <;> omega
  case incLoad | incStore => left; rfl
  case incKill j => left; exact ho
  case incSend j v => left; simp only [Pc.reaches, decide_eq_true_eq] at ho ⊢; omega
  all_goals simp [Pc.reaches] at ho

/-- Signals only reach prepared processes. -/
structure Safe (c : Config P) (s : State P) : Prop where
  alive : ∀ p, (s.loc p).alive = true
  pending : ∀ p, (s.loc p).usr1Pending = true → (s.loc p).usr1Handler = true
  prepared : ∀ p, (s.loc p).pc.prepared = true → (s.loc p).usr1Handler = true
  apart : ∀ p q, (s.loc p).pc = .waitTas → (s.loc p).usr1Handler = false →
    (s.loc q).pc.reaches (c.myProcnum p) = false

variable {s s' : State P} {lbl : Label P} {count : Int}

theorem Safe.initial (h : Initial count s) : Safe c s where
  alive := h.alive
  pending p hp := by simp [h.noPending] at hp
  prepared p hp := by simp [h.idle, Pc.prepared] at hp
  apart p q hp := by simp [h.idle] at hp

theorem instr_alive (h : instr c p m l = some o) : o.loc.alive = l.alive := by
  cases hpc : l.pc <;> simp only [instr, hpc, reduceCtorEq, Option.some.injEq] at h <;> subst h
  case tryTas | waitTas | incTas => by_cases hm : m.lock = 0 <;> simp [spin, tas, hm]
  all_goals rfl

/-- **The target of a signal.** A `sem_inc` about to call `kill` holds the pid of
exactly one process, and in a safe state that process has installed the handler. -/
theorem Safe.target (hs : Safe c s) (hi : Counted count s) (hr : Registered c s) {q : P}
    {i : Nat} {v : Int} (hpc : (s.loc q).pc = .incSend i v) :
    ∃ p, c.pid p = v ∧ (s.loc p).usr1Handler = true ∧
      ∀ r, (Effect.kill v).hits (c.pid r) = true → r = p := by
  obtain ⟨p, rfl, hpid, hreg, honly⟩ := hr.target hpc
  refine ⟨p, hpid, ?_, honly⟩
  by_contra hno
  have hno : (s.loc p).usr1Handler = false := by simpa using hno
  have hqin : (s.loc q).pc.inCrit = true := by simp [hpc, Pc.inCrit]
  have hprep := hs.prepared p
  rw [hno] at hprep
  -- Registered without handler: waiting for the lock, or holding it against `q`.
  cases hp : (s.loc p).pc <;> simp [hp, Pc.registered, Pc.prepared] at hreg hprep
  case waitTas =>
      have hahead := hs.apart p q hp hno
      simp [hpc, Pc.reaches] at hahead
  case waitSignal =>
      have hpq := hi.excl.unique (p := p) (q := q) (by simp [hp, Pc.inCrit]) hqin
      rw [hpq, hpc] at hp
      cases hp

/-- Only the call of `kill` signals, and with the pid its control point carries. -/
theorem instr_kill {v : Int} (h : instr c p m l = some o) (hfx : o.fx = .kill v) :
    ∃ i, l.pc = .incSend i v := by
  cases hpc : l.pc <;> simp only [instr, hpc, reduceCtorEq, Option.some.injEq] at h <;> subst h
  case incSend i w => obtain rfl : w = v := by simpa using hfx
                      exact ⟨i, rfl⟩
  all_goals simp at hfx

section Step
variable [DecidableEq P]

theorem install_alive (q : P) : ((s.install c p o).loc q).alive =
    if q = p then o.loc.alive else (s.loc q).alive := by
  by_cases hq : q = p <;> simp [State.install, Local.receive, Function.update_apply, hq]

theorem Safe.install (hs : Safe c s) (hi : Counted count s) (hr : Registered c s)
    (hok : Unexposed c s (.exec p)) (ho : instr c p s.sem (s.loc p) = some o) :
    Safe c (s.install c p o) := by
  obtain ⟨hregister, henter⟩ := hok
  have hkeep : ∀ q, (s.loc q).usr1Handler = true →
      ((s.install c p o).loc q).usr1Handler = true := by
    intro q hq
    rw [install_handler]
    split_ifs with hqp
    · exact instr_handler ho (hqp ▸ hq)
    · exact hq
  refine ⟨fun q => ?_, fun q hpend => ?_, fun q hprep => ?_, fun q r hpc hno => ?_⟩
  · rw [install_alive]
    split_ifs
    · rw [instr_alive ho]; exact hs.alive p
    · exact hs.alive q
  · rw [install_pending] at hpend
    rcases Bool.or_eq_true_iff.mp hpend with hold | hhit
    · refine hkeep q (hs.pending q ?_)
      split_ifs at hold with hqp
      · rw [hqp, ← instr_pending ho]; exact hold
      · exact hold
    · cases hfx : o.fx with
      | kill v =>
          rw [hfx] at hhit
          -- who is signalled is registered, and by then prepared
          obtain ⟨i, hpc⟩ := instr_kill ho hfx
          obtain ⟨t, -, hprep, honly⟩ := hs.target hi hr hpc
          rw [honly q hhit]
          exact hkeep t hprep
      | _ => simp [hfx, Effect.hits] at hhit
  · rw [install_pc] at hprep
    rw [install_handler]
    split_ifs at hprep ⊢ with hqp
    · exact instr_prepared ho (hs.prepared p) hprep
    · exact hs.prepared q hprep
  · -- `q` waits for the lock without handler; the scan of `r` cannot have it ahead.
    rw [install_pc] at hpc ⊢
    rw [install_handler] at hno
    by_contra hreach
    rw [Bool.not_eq_false] at hreach
    by_cases hqp : q = p
    · rw [if_pos hqp] at hpc hno
      obtain ⟨hold, hfrom⟩ := instr_waitTas ho (hs.prepared p) hpc hno
      by_cases hrp : r = p
      · rw [if_pos hrp, hpc] at hreach
        cases hreach
      · rw [if_neg hrp, hqp] at hreach
        rcases hfrom with hfrom | hfrom
        · rw [hregister hfrom hold r] at hreach; cases hreach
        · rw [hs.apart p r hfrom hold] at hreach; cases hreach
    · rw [if_neg hqp] at hpc hno
      by_cases hrp : r = p
      · rw [if_pos hrp] at hreach
        rcases instr_reaches_of ho hreach with hbefore | ⟨hinc, hfree⟩
        · rw [hs.apart q p hpc hno] at hbefore; cases hbefore
        · rw [henter hinc hfree q hpc] at hno; cases hno
      · rw [if_neg hrp, hs.apart q r hpc hno] at hreach
        cases hreach

end Step

/-! ### Calls and deliveries -/

theorem Pc.Jump.prepared {pc pc' : Pc} (h : pc.Jump pc') (hp : pc'.prepared = true) :
    pc.prepared = true := by
  cases h with
  | stay => exact hp
  | call op => cases op <;> cases hp
  | wake => rfl

theorem Pc.Jump.waitTas {pc pc' : Pc} (h : pc.Jump pc') (hp : pc' = .waitTas) :
    pc = .waitTas := by
  cases h with
  | stay => exact hp
  | call op => cases op <;> cases hp
  | wake => cases hp

/-- Jumps that install no signal and remove no handler keep the state safe. -/
theorem Safe.jump (hs : Safe c s) (hjump : ∀ q, (s.loc q).pc.Jump (s'.loc q).pc)
    (hhandler : ∀ q, (s'.loc q).usr1Handler = (s.loc q).usr1Handler)
    (halive : ∀ q, (s'.loc q).alive = true)
    (hpend : ∀ q, (s'.loc q).usr1Pending = true → (s.loc q).usr1Pending = true) : Safe c s' where
  alive := halive
  pending q hq := by rw [hhandler]; exact hs.pending q (hpend q hq)
  prepared q hq := by rw [hhandler]; exact hs.prepared q ((hjump q).prepared hq)
  apart q r hq hno := by
    rw [(hjump r).reaches]
    exact hs.apart q r ((hjump q).waitTas hq) (by rw [← hhandler]; exact hno)

variable [DecidableEq P]

theorem Safe.step (hs : Safe c s) (hi : Counted count s) (hr : Registered c s)
    (hok : Unexposed c s lbl) (h : step c s lbl = some s') : Safe c s' := by
  cases lbl with
  | call p op =>
      have hjump := step_jump h (by simp)
      simp only [Ece357.Semaphore.step] at h
      split at h
      · obtain rfl := Option.some.inj h
        refine hs.jump hjump (fun q => ?_) (fun q => ?_) (fun q => ?_) <;>
          by_cases hq : q = p <;> simp [hq, hs.alive]
      · cases h
  | exec p =>
      simp only [Ece357.Semaphore.step] at h
      split at h
      · obtain ⟨o, ho, rfl⟩ := Option.map_eq_some_iff.mp h
        exact hs.install hi hr hok ho
      · cases h
  | deliver p =>
      have hjump := step_jump h (by simp)
      simp only [Ece357.Semaphore.step] at h
      split at h
      · rename_i hguard
        obtain rfl := Option.some.inj h
        -- The signal was pending, so the handler is there and the process survives.
        have hthere : (s.loc p).usr1Handler = true := hs.pending p hguard.2.1
        refine hs.jump hjump (fun q => ?_) (fun q => ?_) (fun q => ?_) <;> by_cases hq : q = p
        · simp only [hq, Function.update_self, Local.deliver, hthere, if_true]
          split_ifs <;> rfl
        · simp [hq]
        · simp only [hq, Function.update_self, Local.deliver, hthere, if_true]
          split_ifs <;> exact hs.alive p
        · simpa [hq] using hs.alive q
        · intro _; rw [hq]; exact hguard.2.1
        · simp [hq]
      · cases h

/-- **Wake-ups hit prepared processes only.** In every run in which no process
registers without handler ahead of a running scan, and no `sem_inc` takes the
lock while such a process waits for it: the pid a `sem_inc` is about to signal is
that of one process, which has installed the handler; and nobody is ever
terminated. -/
theorem wakeUp_prepared (c : Config P) (count : Int) (hc : 0 ≤ count) (s : State P)
    (h : (system c count (Handlers false)).Reach (Unexposed c) s) :
    (∀ q i v, (s.loc q).pc = .incSend i v → ∃ p, c.pid p = v ∧ (s.loc p).usr1Handler = true ∧
      ∀ r, (Effect.kill v).hits (c.pid r) = true → r = p) ∧
    ∀ p, (s.loc p).alive = true := by
  have hsafe : Safe c s :=
    h.invariant (fun ha => .initial ha.1) fun hreach hs hok hst =>
      hs.step (.reach hc hreach) (.reach hreach) hok hst
  exact ⟨fun q i v hpc => hsafe.target (.reach hc h) (.reach h) hpc, hsafe.alive⟩

instance (c : Config Bool) (s : State Bool) : (lbl : Label Bool) → Decidable (Unexposed c s lbl)
  | .exec p => inferInstanceAs (Decidable
      (((s.loc p).pc = .waitRegister → (s.loc p).usr1Handler = false →
        ∀ q, (s.loc q).pc.reaches (c.myProcnum p) = false) ∧
      ((s.loc p).pc = .incTas → s.sem.lock = 0 →
        ∀ q, (s.loc q).pc = .waitTas → (s.loc q).usr1Handler = true)))
  | .call _ _ => .isTrue trivial
  | .deliver _ => .isTrue trivial

/-- Process 0 goes to sleep on its first `sem_wait`; process 1 then signals it. -/
def signalRun : List (Label Bool) :=
  .call false .semWait :: List.replicate 7 (.exec false) ++
  .call true .semInc :: List.replicate 5 (.exec true)

theorem wakeUp_prepared_signal :
    ∃ s : State Bool, (s.loc true).pc = .incSend 0 100 ∧
      ∃ p, pair.pid p = 100 ∧ (s.loc p).usr1Handler = true := by
  obtain ⟨s, hreach, hpc⟩ := pair_reach 0 false (Handlers false) (Unexposed pair) (fun _ => rfl)
    signalRun (fun s => (s.loc true).pc = .incSend 0 100) (by decide +kernel)
  obtain ⟨p, hpid, hhandler, -⟩ :=
    (wakeUp_prepared pair 0 (by decide) s hreach).1 true 0 100 hpc
  exact ⟨s, hpc, p, hpid, hhandler⟩

/-- Process 0 registers in its first `sem_wait`; process 1 signals it before it gets
the lock; the signal arrives once it has. -/
def exposedRun : List (Label Bool) :=
  .call false .semWait :: .exec false ::
  .call true .semInc :: List.replicate 71 (.exec true) ++ [.exec false, .deliver false]

/-- **The fatal wake-up.** Nobody has a handler at the start. Process 1 is about to
signal process 0, which has not called `signal`; and a run goes on to terminate
process 0 inside its critical section, with the lock taken for ever. -/
theorem wakeUp_fatal :
    (∃ s : State Bool, (system pair 0 (Handlers false)).Reach System.any s ∧
      (s.loc true).pc = .incSend 0 (pair.pid false) ∧ (s.loc false).usr1Handler = false) ∧
    ∃ s : State Bool, (system pair 0 (Handlers false)).Reach System.any s ∧
      (s.loc false).alive = false ∧ (s.loc false).pc.inCrit = true ∧ s.sem.lock = 1 := by
  constructor
  · exact pair_reach 0 false (Handlers false) System.any (fun _ => rfl) (exposedRun.take 8) _
      (by decide +kernel)
  · exact pair_reach 0 false (Handlers false) System.any (fun _ => rfl) exposedRun _
      (by decide +kernel)

end Ece357.Semaphore
