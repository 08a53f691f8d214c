import Ece357.Semaphore.Registry

/-!
# Ece357.Semaphore.WakeUp

**Lost wake-ups.** `sem_wait` decides to sleep under the lock, releases the lock,
and calls `sigsuspend`. `new_mask` leaves `SIGUSR1` unblocked both before and
during the sleep, so a signal of a `sem_inc` that falls between the release and
the `sigsuspend` runs the empty handler there and is gone: the process goes to
sleep on a positive count.

The property therefore holds exactly of the runs in which no `SIGUSR1` is
delivered at that point while the count is positive (`NoWindowDelivery`). The
invariant is that a process in the window or asleep with nothing pending either
saw a count that is still zero, or has its slot ahead of a scan in progress.
-/

namespace Ece357.Semaphore

open Ece357.Machine

variable {P : Type} {c : Config P} {p : P} {m : Sem} {l : Local} {o : Outcome}

/-- Inside `sem_inc`. -/
def Pc.inInc : Pc → Bool
  | .incTas | .incLoad | .incStore _ | .incScan _ | .incKill _ | .incSend _ _ | .incUnlock => true
  | _ => false

/-- A `sem_inc` holding the lock that has still to deal with slot `i`. -/
def Pc.reaches (i : Nat) : Pc → Bool
  | .incLoad | .incStore _ => true
  | .incScan j | .incKill j | .incSend j _ => j ≤ i
  | _ => false

theorem Pc.inCrit_of_reaches {i : Nat} {pc : Pc} (h : pc.reaches i = true) :
    pc.inCrit = true := by
  cases pc <;> simp_all [Pc.reaches, Pc.inCrit]

/-- A scan stays short of a non-zero slot until it sends the signal to its owner. -/
theorem instr_reaches {i : Nat} (h : instr c p m l = some o) (hr : l.pc.reaches i = true)
    (hs : l.pc.Scanned m.procs) (hi : i < nProc) (hne : m.procs i ≠ 0) :
    o.loc.pc.reaches i = true ∨ o.fx = .kill (m.procs i) := by
  cases hpc : l.pc <;> simp only [instr, hpc, reduceCtorEq, Option.some.injEq] at h <;> subst h <;>
    simp only [hpc, Pc.reaches, decide_eq_true_eq, Bool.false_eq_true] at hr
  case incLoad => simp [Pc.reaches]
  case incStore v => simp [Pc.reaches]
  case incScan j =>
      left
      rcases Nat.lt_or_eq_of_le hr with hlt | rfl
      · have hj : j < nProc := Nat.lt_trans hlt hi
        simp only [hj, if_true]
        by_cases hz : m.procs j = 0
        · simpa [hz, Pc.reaches] using Nat.succ_le_of_lt hlt
        · simpa [hz, Pc.reaches] using hr
      · simp [hi, hne, Pc.reaches]
  case incKill j => left; simpa [Pc.reaches] using hr
  case incSend j v =>
      rcases Nat.lt_or_eq_of_le hr with hlt | rfl
      · left; simpa [Pc.reaches] using Nat.succ_le_of_lt hlt
      · right
        simp only [hpc, Pc.Scanned] at hs
        rw [hs.2.2]

/-- The count leaves zero only by the store of a `sem_inc`, which then scans all slots. -/
theorem instr_raises {i : Nat} (h : instr c p m l = some o) (hk : l.pc.Knows m.count)
    (hzero : m.count = 0) : o.sem.count = 0 ∨ o.loc.pc.reaches i = true := by
  cases hpc : l.pc <;> simp only [instr, hpc, reduceCtorEq, Option.some.injEq] at h <;> subst h <;>
    simp only [hpc, Pc.Knows] at hk
  case tryStore v | waitStore v => omega
  case incStore v => right; simp [Pc.reaches]
  all_goals left; simpa using hzero

/-! ### The invariant -/

/-- Between the release of the lock and the end of the sleep. -/
def Pc.sleepy : Pc → Bool
  | .waitSuspend | .waitAsleep => true
  | _ => false

/-- A process enters the window only from a round that saw the count at zero. -/
theorem instr_sleepy (h : instr c p m l = some o) (hs : o.loc.pc.sleepy = true)
    (hk : l.pc.Knows m.count) :
    o.sem.count = 0 ∨ (l.pc = .waitSuspend ∧ o.sem = m) := by
  cases hpc : l.pc <;> simp only [instr, hpc, reduceCtorEq, Option.some.injEq] at h <;> subst h <;>
    simp only [hpc, Pc.Knows] at hk
  case tryTas | waitTas | incTas =>
    by_cases hm : m.lock = 0 <;> simp [spin_pc, hm, hpc, Pc.sleepy] at hs
  case tryTest | waitTest | incScan => split_ifs at hs <;> simp [Pc.sleepy] at hs
  case waitRelease => left; exact hk
  case waitSuspend => right; exact ⟨rfl, rfl⟩
  all_goals simp [Pc.sleepy] at hs

/-- The step condition: a `SIGUSR1` delivered to a process that has released the
lock and not yet called `sigsuspend` finds the count at zero. -/
def NoWindowDelivery (s : State P) : Label P → Prop
  | .deliver p => (s.loc p).pc = .waitSuspend → s.sem.count = 0
  | _ => True

/-- With the handler installed everywhere, nobody sleeps on a positive count that
no running `sem_inc` will still announce. -/
structure Heard (c : Config P) (s : State P) : Prop where
  handler : ∀ p, (s.loc p).usr1Handler = true
  heard : ∀ p, (s.loc p).pc.sleepy = true → (s.loc p).usr1Pending = false →
    s.sem.count = 0 ∨ ∃ q, (s.loc q).pc.reaches (c.myProcnum p) = true

variable {s s' : State P} {lbl : Label P} {count : Int}

theorem instr_handler (h : instr c p m l = some o) (hl : l.usr1Handler = true) :
    o.loc.usr1Handler = true := by
  cases hpc : l.pc <;> simp only [instr, hpc, reduceCtorEq, Option.some.injEq] at h <;> subst h
  case tryTas | waitTas | incTas => by_cases hm : m.lock = 0 <;> simp [spin, tas, hm, hl]
  all_goals first | exact hl | rfl

theorem instr_pending (h : instr c p m l = some o) : o.loc.usr1Pending = l.usr1Pending := by
  cases hpc : l.pc <;> simp only [instr, hpc, reduceCtorEq, Option.some.injEq] at h <;> subst h
  case tryTas | waitTas | incTas => by_cases hm : m.lock = 0 <;> simp [spin, tas, hm]
  all_goals rfl

theorem Heard.initial (h : Initial count s) (hh : Handlers true s) : Heard c s :=
  ⟨hh, fun p hs => by simp [h.idle, Pc.sleepy] at hs⟩

theorem Pc.Jump.reaches {pc pc' : Pc} {i : Nat} (h : pc.Jump pc') :
    pc'.reaches i = pc.reaches i := by
  cases h with
  | stay => rfl
  | call op => cases op <;> rfl
  | wake => rfl

/-- Jumps of control points keep every promise made to a process that slept already. -/
theorem Heard.jump (hh : Heard c s) (hsem : s'.sem = s.sem)
    (hjump : ∀ q, (s.loc q).pc.Jump (s'.loc q).pc)
    (hhandler : ∀ q, (s'.loc q).usr1Handler = (s.loc q).usr1Handler)
    (hslept : ∀ q, (s'.loc q).pc.sleepy = true → (s'.loc q).usr1Pending = false →
      s.sem.count = 0 ∨ ((s.loc q).pc.sleepy = true ∧ (s.loc q).usr1Pending = false)) :
    Heard c s' := by
  refine ⟨fun q => (hhandler q).trans (hh.handler q), fun q hsleepy hpend => ?_⟩
  rw [hsem]
  rcases hslept q hsleepy hpend with hz | ⟨hsl, hnp⟩
  · exact .inl hz
  · rcases hh.heard q hsl hnp with hz | ⟨r, hreach⟩
    · exact .inl hz
    · exact .inr ⟨r, (hjump r).reaches.trans hreach⟩

variable [DecidableEq P]

theorem install_pending (q : P) : ((s.install c p o).loc q).usr1Pending =
    ((if q = p then o.loc.usr1Pending else (s.loc q).usr1Pending) || o.fx.hits (c.pid q)) := by
  by_cases hq : q = p <;> simp [State.install, Local.receive, Function.update_apply, hq]

theorem install_handler (q : P) : ((s.install c p o).loc q).usr1Handler =
    if q = p then o.loc.usr1Handler else (s.loc q).usr1Handler := by
  by_cases hq : q = p <;> simp [State.install, Local.receive, Function.update_apply, hq]

theorem Heard.install (hh : Heard c s) (hi : Counted count s) (hr : Registered c s)
    (ho : instr c p s.sem (s.loc p) = some o) : Heard c (s.install c p o) := by
  have hcount : (s.install c p o).sem.count = o.sem.count := rfl
  refine ⟨fun q => ?_, fun q hsleepy hpend => ?_⟩
  · rw [install_handler]
    split_ifs
    · exact instr_handler ho (hh.handler p)
    · exact hh.handler q
  · rw [install_pending] at hpend
    rw [install_pc] at hsleepy
    obtain ⟨hpend, hmiss⟩ := Bool.or_eq_false_iff.mp hpend
    rw [hcount]
    -- The old state already promised something to `q`, unless `q` has just released the lock.
    have hold : o.sem.count = 0 ∨ ((s.loc q).pc.sleepy = true ∧
        (s.loc q).usr1Pending = false) := by
      by_cases hq : q = p
      · subst hq
        rw [if_pos rfl] at hsleepy hpend
        rcases instr_sleepy ho hsleepy (hi.knows q) with hz | ⟨hpc, -⟩
        · exact .inl hz
        · exact .inr ⟨by simp [hpc, Pc.sleepy], by rw [← instr_pending ho]; exact hpend⟩
      · rw [if_neg hq] at hsleepy hpend
        exact .inr ⟨hsleepy, hpend⟩
    rcases hold with hz | ⟨hsl, hnp⟩
    · exact .inl hz
    · rcases hh.heard q hsl hnp with hzero | ⟨r, hreach⟩
      · rcases instr_raises (i := c.myProcnum q) ho (hi.knows p) hzero with hz | hreach
        · exact .inl hz
        · exact .inr ⟨p, by rw [install_pc, if_pos rfl]; exact hreach⟩
      · by_cases hrp : r = p
        · subst hrp
          have hslot : s.sem.procs (c.myProcnum q) = c.pid q :=
            hr.slot_eq (by cases hpc : (s.loc q).pc <;> simp_all [Pc.sleepy, Pc.registered])
          have hne : s.sem.procs (c.myProcnum q) ≠ 0 := by
            rw [hslot]; have := c.pid_pos q; omega
          rcases instr_reaches ho hreach (hr.scanned r) (c.myProcnum_lt q) hne with hnext | hkill
          · exact .inr ⟨r, by rw [install_pc, if_pos rfl]; exact hnext⟩
          · simp [hkill, hslot, Effect.hits] at hmiss
        · exact .inr ⟨r, by rw [install_pc, if_neg hrp]; exact hreach⟩

theorem Heard.deliver (hh : Heard c s) (hok : NoWindowDelivery s (.deliver p))
    (h : Ece357.Semaphore.step c s (.deliver p) = some s') : Heard c s' := by
  have hjump := step_jump h (by simp)
  simp only [Ece357.Semaphore.step] at h
  split at h
  · obtain rfl := Option.some.inj h
    refine hh.jump rfl hjump (fun q => ?_) fun q hsleepy hpend => ?_
    · by_cases hq : q = p
      · simp only [hq, Function.update_self, Local.deliver, hh.handler p, if_true]
        split_ifs <;> rfl
      · simp [hq]
    · by_cases hq : q = p
      · subst hq
        -- Delivered asleep, `q` is awake now; delivered before the sleep, the condition applies.
        simp only [Function.update_self, Local.deliver, hh.handler q, if_true] at hsleepy
        split_ifs at hsleepy with hasleep
        · simp [Pc.sleepy] at hsleepy
        · have hpc : (s.loc q).pc = .waitSuspend := by
            cases hpc : (s.loc q).pc <;> simp_all [Pc.sleepy]
          exact .inl (hok hpc)
      · simp only [Function.update_of_ne hq] at hsleepy hpend
        exact .inr ⟨hsleepy, hpend⟩
  · cases h

theorem Heard.call (hh : Heard c s) {op : Op}
    (h : Ece357.Semaphore.step c s (.call p op) = some s') : Heard c s' := by
  have hjump := step_jump h (by simp)
  simp only [Ece357.Semaphore.step] at h
  split at h
  · obtain rfl := Option.some.inj h
    refine hh.jump rfl hjump (fun q => ?_) fun q hsleepy hpend => ?_
    · by_cases hq : q = p <;> simp [hq]
    · by_cases hq : q = p
      · subst hq
        cases op <;> simp [Op.entry, Pc.sleepy] at hsleepy
      · simp only [Function.update_of_ne hq] at hsleepy hpend
        exact .inr ⟨hsleepy, hpend⟩
  · cases h

theorem Heard.step (hh : Heard c s) (hi : Counted count s) (hr : Registered c s)
    (hok : NoWindowDelivery s lbl) (h : step c s lbl = some s') : Heard c s' := by
  cases lbl with
  | call p op => exact hh.call h
  | exec p =>
      simp only [Ece357.Semaphore.step] at h
      split at h
      · obtain ⟨o, ho, rfl⟩ := Option.map_eq_some_iff.mp h
        exact hh.install hi hr ho
      · cases h
  | deliver p => exact hh.deliver hok h

/-- **No lost wake-up, off the window.** In every run in which no `SIGUSR1` is
delivered between the release of the lock and the `sigsuspend` while the count is
positive: whoever is asleep with nothing pending, while nobody holds the lock and
no `sem_inc` is running, sleeps on a count of zero. -/
theorem wakeUp_not_lost (c : Config P) (count : Int) (hc : 0 ≤ count) (s : State P)
    (h : (system c count (Handlers true)).Reach NoWindowDelivery s)
    (p : P) (hasleep : (s.loc p).pc = .waitAsleep) (hpend : (s.loc p).usr1Pending = false)
    (hfree : ∀ q, (s.loc q).pc.inCrit = false) : s.sem.count = 0 := by
  have hheard : Heard c s :=
    h.invariant (fun ha => .initial ha.1 ha.2) fun hreach hh hok hst =>
      hh.step (.reach hc hreach) (.reach hreach) hok hst
  rcases hheard.heard p (by simp [hasleep, Pc.sleepy]) hpend with hz | ⟨q, hreach⟩
  · exact hz
  · exact absurd (Pc.inCrit_of_reaches hreach) (by simp [hfree q])

instance (s : State P) : (lbl : Label P) → Decidable (NoWindowDelivery s lbl)
  | .deliver p => inferInstanceAs (Decidable ((s.loc p).pc = .waitSuspend → s.sem.count = 0))
  | .call _ _ => .isTrue trivial
  | .exec _ => .isTrue trivial

/-- Process 0 goes to sleep on a count of zero. A `sem_inc` of process 1 wakes it up; but process 1
takes the permit itself, and process 0 goes to sleep again. -/
def sleepRun : List (Label Bool) :=
  .call false .semWait :: List.replicate 7 (.exec false) ++
  .call true .semInc :: List.replicate 6 (.exec true) ++
  .deliver false :: List.replicate 65 (.exec true) ++
  .call true .semWait :: List.replicate 9 (.exec true) ++ List.replicate 7 (.exec false)

theorem wakeUp_not_lost_asleep :
    ∃ s : State Bool, (s.loc false).pc = .waitAsleep ∧ s.incs = 1 ∧ s.decs = 1 ∧
      s.sem.count = 0 := by
  obtain ⟨s, hreach, hasleep, hpend, hfree, hinc, hdec⟩ := pair_reach 0 true (Handlers true)
    NoWindowDelivery (fun _ => rfl) sleepRun (fun s => (s.loc false).pc = .waitAsleep ∧
      (s.loc false).usr1Pending = false ∧ (∀ q, (s.loc q).pc.inCrit = false) ∧
      s.incs = 1 ∧ s.decs = 1) (by decide +kernel)
  exact ⟨s, hasleep, hinc, hdec,
    wakeUp_not_lost pair 0 (by decide) s hreach false hasleep hpend hfree⟩

/-- Process 0 sees the count at zero and releases the lock; process 1 increments the
count and sends its signal, which is delivered before process 0 calls `sigsuspend`. -/
def lostRun : List (Label Bool) :=
  .call false .semWait :: List.replicate 6 (.exec false) ++
  .call true .semInc :: List.replicate 6 (.exec true) ++
  .deliver false :: List.replicate 65 (.exec true) ++ [.exec false]

/-- **The lost wake-up.** The handler is installed everywhere, nobody holds the lock,
no `sem_inc` is running, nothing is pending, and process 0 sleeps on a count of 1. -/
theorem wakeUp_lost :
    ∃ s : State Bool,
      (system pair 0 (Handlers true)).Reach System.any s ∧
      (s.loc false).pc = .waitAsleep ∧ (s.loc false).usr1Pending = false ∧
      (∀ q, (s.loc q).pc.inCrit = false) ∧ (∀ q, (s.loc q).pc.inInc = false) ∧
      s.sem.count = 1 := by
  exact pair_reach 0 true (Handlers true) System.any (fun _ => rfl) lostRun _ (by decide +kernel)

end Ece357.Semaphore
