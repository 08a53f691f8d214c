import Ece357.Semaphore.Handler

/-!
# Ece357.Semaphore.Targets

**Whom a scan signals.** A process in the waiting loop shows its pid from outside the lock
until, inside it, it decrements the count; `sem_inc` scans under the lock. So a pid that it
passes to `kill` is that of a process which is still waiting, and a process that was asleep
when the scan started cannot withdraw its pid before the scan has come to its slot.

There is one way to leave the loop without clearing the slot: to be terminated in it, by a
`SIGUSR1` that comes before the handler is installed. The entry is stale from then on
(`wakeUp_stale`), and off those deliveries there are no stale entries (`wakeUp_targets`).
An observer keeps, for the last scan of each process, who was asleep when it started and
which pids it has signalled.
-/

namespace Ece357.Semaphore

open Ece357.Machine

variable {P : Type} {c : Config P} {p q : P} {m : Sem} {l : Local} {o : Outcome}

/-- Inside `sem_wait`, before the store that decrements the count. -/
def Pc.waits : Pc → Bool
  | .waitRegister | .waitLoad | .waitStore _ => true
  | pc => pc.registered

theorem Pc.waits_of_registered {pc : Pc} (h : pc.registered = true) : pc.waits = true := by
  cases pc <;> first | rfl | exact h

/-- The step condition: no `SIGUSR1` is delivered to a process that has not executed
`signal(SIGUSR1, usr1_handler)`. -/
def DeliversHandled (s : State P) : Label P → Prop
  | .deliver p => (s.loc p).usr1Handler = true
  | _ => True

/-! ### The log of a scan -/

/-- What the observer keeps of the last scan of a process. -/
structure ScanLog (P : Type) where
  /-- The processes asleep in `sigsuspend` when the scan started. -/
  asleep : P → Bool
  /-- The pids that the scan has sent the signal to. -/
  sent : List Int

/-- A scan starts behind the store of the count; `kill` adds its pid. -/
def logged (s s' : State P) (log : P → ScanLog P) (q : P) : ScanLog P :=
  match (s.loc q).pc, (s'.loc q).pc with
  | .incStore _, .incScan _ => ⟨fun p => (s.loc p).pc = .waitAsleep, []⟩
  | .incSend _ v, .incScan _ => { log q with sent := v :: (log q).sent }
  | _, _ => log q

/-- The semaphore with an observer of the scans. -/
def scanning [DecidableEq P] (c : Config P) (count : Int) :
    System (State P × (P → ScanLog P)) (Label P) :=
  (system c count fun _ => True).observed (fun _ _ => ⟨fun _ => false, []⟩) logged

theorem logged_same {s s' : State P} (log : P → ScanLog P)
    (h : (s'.loc q).pc = (s.loc q).pc) : logged s s' log q = log q := by
  simp only [logged, h]
  cases (s.loc q).pc <;> rfl

/-- The first slot that a scan has not dealt with. -/
def Pc.scanSlot : Pc → Option Nat
  | .incScan i | .incKill i | .incSend i _ => some i
  | .incUnlock => some nProc
  | _ => none

theorem Pc.inCrit_of_scanSlot {pc : Pc} {i : Nat} (h : pc.scanSlot = some i) :
    pc.inCrit = true := by
  cases pc <;> simp_all [Pc.scanSlot, Pc.inCrit]

theorem Pc.Jump.of_scanSlot {pc pc' : Pc} {i : Nat} (h : pc.Jump pc')
    (hi : pc'.scanSlot = some i) : pc' = pc := by
  cases h with
  | stay => rfl
  | call op => cases op <;> cases hi
  | wake => cases hi

/-- A scan starts at slot 0, signals the owner of a slot, or passes an empty slot. -/
theorem instr_scanSlot {i : Nat} (h : instr c p m l = some o)
    (hi : o.loc.pc.scanSlot = some i) :
    (∃ v, l.pc = .incStore v ∧ o.loc.pc = .incScan 0 ∧ i = 0) ∨
    (∃ j v, l.pc = .incSend j v ∧ o.loc.pc = .incScan (j + 1) ∧ i = j + 1) ∨
    ∃ j, (l.pc = .incScan j ∨ l.pc = .incKill j) ∧
      ∀ k, k < nProc → k < i → k < j ∨ (k = j ∧ m.procs j = 0) := by
  cases hpc : l.pc <;> simp only [instr, hpc, reduceCtorEq, Option.some.injEq] at h <;> subst h
  case tryTas | waitTas | incTas =>
    by_cases hm : m.lock = 0 <;> simp [spin_pc, hm, hpc, Pc.scanSlot] at hi
  case tryTest | waitTest => split_ifs at hi <;> cases hi
  case incStore v =>
      obtain rfl := Option.some.inj hi
      exact .inl ⟨v, rfl, rfl, rfl⟩
  case incScan j =>
      refine .inr (.inr ⟨j, .inl rfl, fun k hk hki => ?_⟩)
      split_ifs at hi with hj hne <;> obtain rfl := Option.some.inj hi
      · exact .inl hki
      · rcases Nat.lt_or_eq_of_le (Nat.le_of_lt_succ hki) with hlt | heq
        · exact .inl hlt
        · exact .inr ⟨heq, not_not.mp hne⟩
      · exact .inl (by omega)
  case incKill j =>
      obtain rfl := Option.some.inj hi
      exact .inr (.inr ⟨j, .inr rfl, fun k _ hki => .inl hki⟩)
  case incSend j v =>
      obtain rfl := Option.some.inj hi
      exact .inr (.inl ⟨j, v, rfl, rfl, rfl⟩)
  all_goals cases hi

/-! ### The invariant of a scan -/

/-- Whoever was asleep when the scan started is still registered, and is signalled once the
scan has passed its slot. -/
def ScanLog.Covers (c : Config P) (s : State P) (q : P) (log : ScanLog P) : Prop :=
  ∀ i, (s.loc q).pc.scanSlot = some i → ∀ p, log.asleep p = true →
    (s.loc p).pc.registered = true ∧ (c.myProcnum p < i → c.pid p ∈ log.sent)

variable {s s' : State P} {lbl : Label P} {log : P → ScanLog P}

/-- Only a `SIGUSR1` without handler terminates a process. -/
theorem LocalMove.alive (h : LocalMove c s lbl p l) (hok : DeliversHandled s lbl)
    (hp : (s.loc p).alive = true) : l.alive = true := by
  cases h with
  | stays hit => exact hp
  | calls op hidle => exact hp
  | executes ho hit => exact (instr_alive ho).trans hp
  | delivers hlbl =>
      subst hlbl
      have hhandler : (s.loc p).usr1Handler = true := hok
      simp only [Local.deliver, hhandler, if_true]
      split_ifs <;> exact hp

section Step
variable [DecidableEq P]

/-- Nobody clears its slot during the scan of another. -/
theorem registered_kept (hg : Guarded s) (h : step c s lbl = some s')
    (hq : (s.loc q).pc.inCrit = true) (hpq : p ≠ q) (hp : (s.loc p).pc.registered = true) :
    (s'.loc p).pc.registered = true := by
  rcases step_control h with ⟨-, -, -, hjump⟩ | ⟨r, o, -, -, ho, rfl⟩
  · rw [(hjump p).registered, hp]
  · rw [install_pc]
    by_cases hpr : p = r
    · subst hpr
      rw [if_pos rfl]
      rcases instr_procs ho with ⟨hpc, -, -⟩ | ⟨hpc, -, -⟩ | ⟨-, hreg⟩
      · simp [hpc, Pc.registered] at hp
      · exact absurd (hg.unique (by simp [hpc, Pc.inCrit]) hq) hpq
      · rw [hreg, hp]
    · rw [if_neg hpr, hp]

theorem ScanLog.Covers.keep (hcov : (log q).Covers c s q) (hg : Guarded s)
    (h : step c s lbl = some s') (hpc : (s'.loc q).pc = (s.loc q).pc) :
    (logged s s' log q).Covers c s' q := by
  rw [logged_same log hpc]
  intro i hi p hasleep
  rw [hpc] at hi
  obtain ⟨hreg, hsent⟩ := hcov i hi p hasleep
  have hpq : p ≠ q := by
    intro heq
    subst heq
    cases hp : (s.loc p).pc <;> simp [hp, Pc.scanSlot, Pc.registered] at hi hreg
  exact ⟨registered_kept hg h (Pc.inCrit_of_scanSlot hi) hpq hreg, hsent⟩

/-- The scanning process moves on. -/
theorem ScanLog.Covers.install (hcov : (log q).Covers c s q) (hr : Registered c s)
    (ho : instr c q s.sem (s.loc q) = some o) :
    (logged s (s.install c q o) log q).Covers c (s.install c q o) q := by
  have hpc : ((s.install c q o).loc q).pc = o.loc.pc := by rw [install_pc, if_pos rfl]
  have hother : ∀ p, (s.loc p).pc.registered = true → (s.loc q).pc.registered = false →
      ((s.install c q o).loc p).pc.registered = true := by
    intro p hp hq
    have hpq : p ≠ q := by
      intro heq
      subst heq
      rw [hp] at hq
      cases hq
    rw [install_pc, if_neg hpq, hp]
  intro i hi p hasleep
  rw [hpc] at hi
  rcases instr_scanSlot ho hi with ⟨v, hold, hnew, rfl⟩ | ⟨j, v, hold, hnew, rfl⟩ |
    ⟨j, hold, hpassed⟩
  · -- The scan starts: whoever is asleep is registered.
    simp only [logged, hpc, hold, hnew, decide_eq_true_eq] at hasleep
    exact ⟨hother p (by rw [hasleep]; rfl) (by rw [hold]; rfl), fun hlt => absurd hlt (by omega)⟩
  · -- `kill` has been called for slot `j`.
    simp only [logged, hpc, hold, hnew] at hasleep ⊢
    obtain ⟨hreg, hsent⟩ := hcov j (by rw [hold]; rfl) p hasleep
    refine ⟨hother p hreg (by rw [hold]; rfl), fun hlt => ?_⟩
    rcases Nat.lt_or_eq_of_le (Nat.le_of_lt_succ hlt) with hbefore | hhere
    · exact List.mem_cons_of_mem _ (hsent hbefore)
    · have hscan := hr.scanned q
      simp only [hold, Pc.Scanned, ← hhere, hr.slot_eq hreg] at hscan
      rw [hscan.2.2]
      exact List.mem_cons_self
  · have hslot : (s.loc q).pc.scanSlot = some j ∧ (s.loc q).pc.registered = false := by
      rcases hold with hold | hold <;> rw [hold] <;> exact ⟨rfl, rfl⟩
    have hlog : logged s (s.install c q o) log q = log q := by
      rcases hold with hold | hold <;> simp only [logged, hold]
    rw [hlog] at hasleep ⊢
    obtain ⟨hreg, hsent⟩ := hcov j hslot.1 p hasleep
    refine ⟨hother p hreg hslot.2, fun hlt => ?_⟩
    rcases hpassed _ (c.myProcnum_lt p) hlt with hbefore | ⟨hhere, hempty⟩
    · exact hsent hbefore
    · -- An empty slot is not that of a registered process.
      rw [← hhere, hr.slot_eq hreg] at hempty
      have := c.pid_pos p
      omega

theorem ScanLog.Covers.step (hcov : (log q).Covers c s q) (hg : Guarded s) (hr : Registered c s)
    (h : step c s lbl = some s') : (logged s s' log q).Covers c s' q := by
  rcases step_control h with ⟨-, -, -, hjump⟩ | ⟨r, o, -, -, ho, rfl⟩
  · by_cases hpc : (s'.loc q).pc = (s.loc q).pc
    · exact hcov.keep hg h hpc
    · exact fun i hi => absurd ((hjump q).of_scanSlot hi) hpc
  · by_cases hqr : q = r
    · subst hqr
      exact hcov.install hr ho
    · exact hcov.keep hg h (by rw [install_pc, if_neg hqr])

variable {count : Int} {x : State P × (P → ScanLog P)}

theorem covered (h : (scanning c count).Reach (System.beside DeliversHandled) x) :
    ∀ q, (x.2 q).Covers c x.1 q := by
  refine h.watched (I := fun s log => ∀ q, (log q).Covers c s q) (fun _ _ _ _ _ hno => ?_) ?_
  · cases hno
  · intro s lbl s' log hreach hcov _ hst q
    exact (hcov q).step (.reach hreach) (.reach hreach) hst

theorem alive_of_reach {s : State P}
    (h : (system c count fun _ => True).Reach DeliversHandled s) : ∀ p, (s.loc p).alive = true :=
  h.invariant (I := fun s => ∀ p, (s.loc p).alive = true) (fun ha => ha.1.alive)
    fun _ hi hok hst p => (step_local hst p).alive hok (hi p)

/-- **Wake-ups go to waiters.** In every run in which no `SIGUSR1` is delivered to a process
without handler: the pid that a `sem_inc` passes to `kill` is that of a process that is inside
`sem_wait` and has not decremented the count, and no other process gets the signal; and a
scan that comes to its end has signalled every process that was asleep when it started. -/
theorem wakeUp_targets (c : Config P) (count : Int) (x : State P × (P → ScanLog P))
    (h : (scanning c count).Reach (System.beside DeliversHandled) x) :
    (∀ q i v, (x.1.loc q).pc = .incSend i v → ∃ p, c.pid p = v ∧ (x.1.loc p).alive = true ∧
      (x.1.loc p).pc.waits = true ∧ ∀ r, (Effect.kill v).hits (c.pid r) = true → r = p) ∧
    ∀ q, (x.1.loc q).pc = .incUnlock → ∀ p, (x.2 q).asleep p = true →
      c.pid p ∈ (x.2 q).sent := by
  refine ⟨fun q i v hpc => ?_, fun q hpc p hasleep => ?_⟩
  · obtain ⟨p, -, hpid, hreg, honly⟩ := (Registered.reach h.forget).target hpc
    exact ⟨p, hpid, alive_of_reach h.forget p, Pc.waits_of_registered hreg, honly⟩
  · exact (covered h q nProc (by rw [hpc]; rfl) p hasleep).2 (c.myProcnum_lt p)

end Step

instance (s : State P) : (lbl : Label P) → Decidable (DeliversHandled s lbl)
  | .deliver p => inferInstanceAs (Decidable ((s.loc p).usr1Handler = true))
  | .call _ _ => .isTrue trivial
  | .exec _ => .isTrue trivial

/-- Process 0 goes to sleep on a count of zero; process 1 increments it and scans to the end. -/
def scanRun : List (Label Bool) :=
  sleepRun ++ .call true .semInc :: List.replicate 70 (.exec true)

theorem wakeUp_targets_asleep : ∃ x : State Bool × (Bool → ScanLog Bool),
    (x.1.loc true).pc = .incUnlock ∧ (x.2 true).asleep false = true ∧
      pair.pid false ∈ (x.2 true).sent := by
  obtain ⟨x, hreach, hpc, hasleep⟩ := pair_watch 0 false (fun _ _ => ⟨fun _ => false, []⟩) logged
    DeliversHandled scanRun
    (fun x => (x.1.loc true).pc = .incUnlock ∧ (x.2 true).asleep false = true) (by decide +kernel)
  exact ⟨x, hpc, hasleep, (wakeUp_targets pair 0 x hreach).2 true hpc false hasleep⟩

/-- Process 0 has registered and waits for the lock when process 1 signals it; the signal
terminates it. Then process 1 scans again. -/
def staleRun : List (Label Bool) :=
  .call false .semWait :: .exec false :: .call true .semInc :: List.replicate 71 (.exec true) ++
  .deliver false :: .call true .semInc :: List.replicate 5 (.exec true)

/-- **A stale entry.** Process 1 is about to signal pid 100, and the process with that pid,
which had called `sem_wait`, has been terminated. -/
theorem wakeUp_stale : ¬ ∀ x, (scanning pair 0).Reach (System.beside System.any) x →
    ∀ q i v, (x.1.loc q).pc = .incSend i v → ∃ p, pair.pid p = v ∧ (x.1.loc p).alive = true ∧
      (x.1.loc p).pc.waits = true := by
  intro hall
  obtain ⟨x, hreach, hpc, hdead⟩ := pair_watch 0 false (fun _ _ => ⟨fun _ => false, []⟩) logged
    System.any staleRun
    (fun x => (x.1.loc true).pc = .incSend 0 100 ∧ (x.1.loc false).alive = false)
    (by decide +kernel)
  obtain ⟨p, hpid, halive, -⟩ := hall x hreach true 0 100 hpc
  cases p with
  | false => rw [hdead] at halive; cases halive
  | true => exact absurd hpid (by decide)

end Ece357.Semaphore
