import Ece357.Semaphore.Exclusion

/-!
# Ece357.Semaphore.Registry

**Who is registered in `procs`.** A slot is written by its own process only: set
outside the lock on entry to `sem_wait`, cleared inside it just before the
decrement. The scan of `sem_inc` reads all slots under the lock, so what it has
loaded cannot be cleared behind its back, and a slot it has not reached yet
still shows every process that is in the waiting loop.
-/

namespace Ece357.Semaphore

open Ece357.Machine

variable {P : Type} {c : Config P} {p : P} {m : Sem} {l : Local} {o : Outcome}

/-- Inside `sem_wait`, between the store of the pid and the store that clears it. -/
def Pc.registered : Pc → Bool
  | .waitTas | .waitSignal | .waitBlock | .waitTest | .waitClear => true
  | .waitRelease | .waitSuspend | .waitAsleep | .waitUnblock => true
  | _ => false

/-- What the scan has loaded is still in the array. -/
def Pc.Scanned (procs : Nat → Int) : Pc → Prop
  | .incKill i => i < nProc ∧ procs i ≠ 0
  | .incSend i v => i < nProc ∧ procs i ≠ 0 ∧ v = procs i
  | _ => True

theorem Pc.Scanned.of_outside {procs : Nat → Int} {pc : Pc} (h : pc.inCrit = false) :
    pc.Scanned procs := by
  cases pc <;> simp_all [Pc.inCrit, Pc.Scanned]

/-- How one instruction treats the array: a process sets its own slot from outside
the lock, clears it from inside, or leaves the array and its registration alone. -/
theorem instr_procs (h : instr c p m l = some o) :
    (l.pc = .waitRegister ∧ o.loc.pc = .waitTas ∧
      o.sem.procs = Function.update m.procs (c.myProcnum p) (c.pid p)) ∨
    (l.pc = .waitClear ∧ o.loc.pc = .waitLoad ∧
      o.sem.procs = Function.update m.procs (c.myProcnum p) 0) ∨
    (o.sem.procs = m.procs ∧ o.loc.pc.registered = l.pc.registered) := by
  cases hpc : l.pc <;> simp only [instr, hpc, reduceCtorEq, Option.some.injEq] at h <;> subst h
  case tryTas | waitTas | incTas =>
    by_cases hm : m.lock = 0 <;> simp [spin_pc, hm, hpc, Pc.registered]
  case tryTest | waitTest | incScan => simp only [Pc.registered]; split_ifs <;> simp
  all_goals simp [Pc.registered]

theorem instr_scanned (h : instr c p m l = some o) (hs : l.pc.Scanned m.procs) :
    o.loc.pc.Scanned o.sem.procs := by
  cases hpc : l.pc <;> simp only [instr, hpc, reduceCtorEq, Option.some.injEq] at h <;> subst h <;>
    simp only [hpc, Pc.Scanned] at hs
  case tryTas | waitTas | incTas =>
    by_cases hm : m.lock = 0 <;> simp [spin_pc, hm, hpc, Pc.Scanned]
  case tryTest | waitTest => split_ifs <;> trivial
  case incScan => split_ifs <;> simp_all [Pc.Scanned]
  all_goals simp_all [Pc.Scanned]

/-- The array agrees with the control points. -/
structure Registered (c : Config P) (s : State P) : Prop where
  slot : ∀ p, s.sem.procs (c.myProcnum p) = if (s.loc p).pc.registered then c.pid p else 0
  owned : ∀ i, i < nProc → s.sem.procs i ≠ 0 → ∃ p, c.myProcnum p = i
  scanned : ∀ q, (s.loc q).pc.Scanned s.sem.procs

variable {s s' : State P} {lbl : Label P} {count : Int}

theorem Registered.initial (h : Initial count s) : Registered c s := by
  obtain ⟨m, hm⟩ := h.sem
  refine ⟨fun p => ?_, fun i hi hne => ?_, fun q => ?_⟩
  · simp [hm, semInit, c.myProcnum_lt, h.idle, Pc.registered]
  · exact absurd (by simp [hm, semInit, hi]) hne
  · simp [h.idle, Pc.Scanned]

theorem Pc.Jump.registered {pc pc' : Pc} (h : pc.Jump pc') : pc'.registered = pc.registered := by
  cases h with
  | stay => rfl
  | call op => cases op <;> rfl
  | wake => rfl

theorem Pc.Jump.scanned {pc pc' : Pc} {procs : Nat → Int} (h : pc.Jump pc')
    (hs : pc.Scanned procs) : pc'.Scanned procs := by
  cases h with
  | stay => exact hs
  | call op => cases op <;> trivial
  | wake => trivial

/-- A registered process shows its own pid. -/
theorem Registered.slot_eq (hr : Registered c s) (hp : (s.loc p).pc.registered = true) :
    s.sem.procs (c.myProcnum p) = c.pid p := by
  rw [hr.slot, if_pos hp]

/-- A non-zero slot belongs to a registered process, and holds its pid. -/
theorem Registered.of_ne_zero (hr : Registered c s) {i : Nat} (hi : i < nProc)
    (hne : s.sem.procs i ≠ 0) :
    ∃ p, c.myProcnum p = i ∧ (s.loc p).pc.registered = true ∧ s.sem.procs i = c.pid p := by
  obtain ⟨p, rfl⟩ := hr.owned i hi hne
  have hslot := hr.slot p
  split_ifs at hslot with hreg
  · exact ⟨p, rfl, hreg, hslot⟩
  · exact absurd hslot hne

/-- A `sem_inc` about to call `kill` holds the pid of the process whose slot it has scanned,
which is registered, and the signal reaches no other. -/
theorem Registered.target (hr : Registered c s) {q : P} {i : Nat} {v : Int}
    (hpc : (s.loc q).pc = .incSend i v) :
    ∃ p, c.myProcnum p = i ∧ c.pid p = v ∧ (s.loc p).pc.registered = true ∧
      ∀ r, (Effect.kill v).hits (c.pid r) = true → r = p := by
  have hscan := hr.scanned q
  simp only [hpc, Pc.Scanned] at hscan
  obtain ⟨hlt, hne, hv⟩ := hscan
  obtain ⟨p, hidx, hreg, hval⟩ := hr.of_ne_zero hlt hne
  have hpid : c.pid p = v := by rw [hv, hval]
  refine ⟨p, hidx, hpid, hreg, fun r hhit => ?_⟩
  have hpos := c.pid_pos p
  have hv : v ≠ 0 := by omega
  simp only [Effect.hits, Bool.or_eq_true, decide_eq_true_eq, hv, or_false] at hhit
  exact c.pid_inj (hhit.symm.trans hpid.symm)

variable [DecidableEq P]

/-- A process writes its own slot only: what its registration says. -/
theorem Registered.write (hr : Registered c s) {v : Int}
    (hprocs : o.sem.procs = Function.update s.sem.procs (c.myProcnum p) v)
    (hv : v = if o.loc.pc.registered then c.pid p else 0) :
    (∀ q, (s.install c p o).sem.procs (c.myProcnum q) =
      if ((s.install c p o).loc q).pc.registered then c.pid q else 0) ∧
    ∀ i, i < nProc → (s.install c p o).sem.procs i ≠ 0 → ∃ q, c.myProcnum q = i := by
  have hsem : (s.install c p o).sem = o.sem := rfl
  refine ⟨fun q => ?_, fun i hlt hne => ?_⟩
  · rw [hsem, hprocs, install_pc]
    by_cases hq : q = p
    · simp [hq, hv]
    · have hidx : c.myProcnum q ≠ c.myProcnum p := fun he => hq (c.myProcnum_inj he)
      simp [hq, hidx, hr.slot]
  · by_cases hip : i = c.myProcnum p
    · exact ⟨p, hip.symm⟩
    · exact hr.owned i hlt (by simpa [hsem, hprocs, hip] using hne)

theorem Registered.install (hr : Registered c s) (hg : Guarded s)
    (ho : instr c p s.sem (s.loc p) = some o) : Registered c (s.install c p o) := by
  have hsem : (s.install c p o).sem = o.sem := rfl
  rcases instr_procs ho with ⟨hpc, hpc', hprocs⟩ | ⟨hpc, hpc', hprocs⟩ | ⟨hprocs, hreg⟩
  · -- `p` registers: its slot was empty, so no scan has loaded it.
    have hempty : s.sem.procs (c.myProcnum p) = 0 := by simp [hr.slot, hpc, Pc.registered]
    obtain ⟨hslot, howned⟩ := hr.write hprocs (by simp [hpc', Pc.registered])
    refine ⟨hslot, howned, fun q => ?_⟩
    rw [hsem, hprocs, install_pc]
    by_cases hq : q = p
    · simp [hq, hpc', Pc.Scanned]
    · rw [if_neg hq]
      have hold := hr.scanned q
      cases hqpc : (s.loc q).pc <;> simp only [hqpc, Pc.Scanned] at hold ⊢
      case incKill i =>
          have hip : i ≠ c.myProcnum p := fun he => hold.2 (he ▸ hempty)
          simpa [hip] using hold
      case incSend i v =>
          have hip : i ≠ c.myProcnum p := fun he => hold.2.1 (he ▸ hempty)
          simpa [hip] using hold
  · -- `p` clears its slot: it holds the lock, so nobody is scanning.
    have hcrit : (s.loc p).pc.inCrit = true := by simp [hpc, Pc.inCrit]
    obtain ⟨hslot, howned⟩ := hr.write hprocs (by simp [hpc', Pc.registered])
    refine ⟨hslot, howned, fun q => ?_⟩
    rw [install_pc]
    by_cases hq : q = p
    · simp [hq, hpc', Pc.Scanned]
    · rw [if_neg hq]
      exact .of_outside (by simpa using hg.not_holds hcrit hq)
  · -- `procs` stays as it is, and so does who is registered
    refine ⟨fun q => ?_, fun i hlt hne => ?_, fun q => ?_⟩
    · rw [hsem, hprocs, install_pc]
      by_cases hq : q = p
      · rw [if_pos hq, hreg, hq, hr.slot]
      · rw [if_neg hq, hr.slot]
    · exact hr.owned i hlt (by rwa [hsem, hprocs] at hne)
    · rw [install_pc]
      by_cases hq : q = p
      · rw [if_pos hq]
        exact instr_scanned ho (hr.scanned p)
      · rw [if_neg hq, hsem, hprocs]
        exact hr.scanned q

theorem Registered.step (hr : Registered c s) (hg : Guarded s)
    (h : step c s lbl = some s') : Registered c s' := by
  rcases step_control h with ⟨hsem, -, -, hjump⟩ | ⟨p, o, -, -, ho, rfl⟩
  · exact
      { slot := fun q => by rw [hsem, (hjump q).registered]; exact hr.slot q
        owned := by rw [hsem]; exact hr.owned
        scanned := fun q => by rw [hsem]; exact (hjump q).scanned (hr.scanned q) }
  · exact hr.install hg ho

theorem Registered.reach {extra : State P → Prop} {ok : State P → Label P → Prop}
    (h : (system c count extra).Reach ok s) : Registered c s :=
  h.invariant (fun ha => .initial ha.1) fun hreach hr _ hst => hr.step (.reach hreach) hst

end Ece357.Semaphore
