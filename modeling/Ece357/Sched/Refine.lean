import Ece357.ProcTable.Waiting
import Ece357.Sched.Steps

/-!
# Ece357.Sched.Refine

**The scheduler implements a process table.** Forgetting slots, addresses,
priorities and stacks leaves a table of pids: `State.table`. Every move of the
scheduler is a step of that table or leaves it alone (`Move.refines`), so the
tables of reachable states are reachable tables (`reach_table`), and what
`ProcTable` proves of those holds of the scheduler.
-/

namespace Ece357.Sched

open Ece357.Machine Ece357.ProcTable State

/-! ### The table of a state -/

namespace State

/-- The record in the slot of pid `k`. -/
def lookup (s : State) (k : Int) : Option Ptr :=
  if 1 ≤ k ∧ k ≤ schedNproc then s.procs (k - 1).toNat else none

/-- The call stack of the task with record `p`: running, or saved. -/
def stackOf (s : State) (p : Ptr) : List Frame :=
  if p = s.current then s.frames else (s.heap p).ctx.frames

/-- What the table says of the process with record `p`. It is waiting if its stack is
inside `sched_wait`; the stack of a dead process means nothing. -/
def entryOf (s : State) (p : Ptr) : Entry Int where
  parent := (s.heap p).ppid
  status := (s.heap p).state
  waiting := decide ((s.heap p).state ≠ .zombie) && (s.stackOf p).any Frame.isWait

/-- The process table, by pid. -/
def table (s : State) : Table Int where
  entry k := (s.lookup k).map s.entryOf
  cur := s.cur.pid

end State

variable {s s' : State}

theorem Base.lookup_eq (h : Base s) {k : Int} {p : Ptr} :
    s.lookup k = some p ↔ s.InTable p ∧ (s.heap p).pid = k := by
  unfold lookup
  constructor
  · intro hp
    split_ifs at hp with hk
    have hlt : (k - 1).toNat < schedNproc := by omega
    refine ⟨⟨_, hlt, hp⟩, ?_⟩
    have hpid := h.pid _ hlt p hp
    omega
  · intro hin
    obtain ⟨⟨i, hi, hp⟩, rfl⟩ := hin
    have hpid := h.pid i hi p hp
    rw [if_pos (by omega), hpid]
    simpa using hp

theorem Base.entry_eq (h : Base s) {k : Int} {e : Entry Int} :
    s.table.entry k = some e ↔ ∃ p, s.InTable p ∧ (s.heap p).pid = k ∧ e = s.entryOf p := by
  simp only [table, Option.map_eq_some_iff, h.lookup_eq]
  constructor
  · intro hentry
    obtain ⟨p, ⟨hp, hk⟩, rfl⟩ := hentry
    exact ⟨p, hp, hk, rfl⟩
  · intro hentry
    obtain ⟨p, hp, hk, rfl⟩ := hentry
    exact ⟨p, ⟨hp, hk⟩, rfl⟩

theorem Base.entry_of (h : Base s) {p : Ptr} (hp : s.InTable p) :
    s.table.entry (s.heap p).pid = some (s.entryOf p) :=
  h.entry_eq.mpr ⟨p, hp, rfl, rfl⟩

theorem Base.entry_cur (h : Base s) : s.table.entry s.table.cur = some (s.entryOf s.current) :=
  h.entry_of h.current

theorem Base.pid_eq_cur (h : Base s) {p : Ptr} (hp : s.InTable p) :
    (s.heap p).pid = s.table.cur ↔ p = s.current :=
  ⟨h.pid_inj hp h.current, fun hpc => by subst hpc; rfl⟩

/-- To compute the table of a state, look at its records one by one. -/
theorem table_eq (h : Base s) {t : Table Int} (hcur : s.cur.pid = t.cur)
    (hin : ∀ p, s.InTable p → t.entry (s.heap p).pid = some (s.entryOf p))
    (hout : ∀ k e, t.entry k = some e → ∃ p, s.InTable p ∧ (s.heap p).pid = k) : s.table = t := by
  obtain ⟨entry, cur⟩ := t
  have hentry : s.table.entry = entry := by
    funext k
    cases hk : s.table.entry k with
    | some e =>
        obtain ⟨p, hp, rfl, rfl⟩ := h.entry_eq.mp hk
        exact (hin p hp).symm
    | none =>
        cases ht : entry k with
        | none => rfl
        | some e =>
            obtain ⟨p, hp, rfl⟩ := hout k e ht
            rw [h.entry_of hp] at hk
            cases hk
  subst hentry
  obtain rfl : s.cur.pid = cur := hcur
  rfl

/-! ### Moves are steps of the table -/

theorem entryOf_congr {p : Ptr} (hppid : (s'.heap p).ppid = (s.heap p).ppid)
    (hst : (s'.heap p).state = (s.heap p).state)
    (hwait : (s'.stackOf p).any Frame.isWait = (s.stackOf p).any Frame.isWait) :
    s'.entryOf p = s.entryOf p := by
  unfold entryOf
  rw [hppid, hst, hwait]

theorem Quiet.table_eq (h : Base s) (h' : Base s') {new : List Event} (hq : Quiet s new s') :
    s'.table = s.table := by
  have hin := inTable_congr hq.procs
  have hcur : s'.cur.pid = s.cur.pid := by
    unfold State.cur
    rw [hq.current]
    exact (hq.record _ h.current).pid
  refine Sched.table_eq h' hcur (fun p hp => ?_) fun k e hk => ?_
  · have hsame := hq.record p ((hin p).mp hp)
    rw [hsame.pid, h.entry_of ((hin p).mp hp)]
    refine congrArg some (entryOf_congr hsame.ppid hsame.state ?_).symm
    unfold stackOf
    rw [hq.current, hsame.ctx]
    split_ifs
    · exact hq.frames.any_isWait
    · rfl
  · obtain ⟨p, hp, rfl, -⟩ := h.entry_eq.mp hk
    refine ⟨p, ?_, (hq.record p hp).pid⟩
    exact (hin p).mpr hp

/-- The current task's record changes, and nobody else's. -/
theorem table_set_cur (h : Base s) (h' : Base s') {r : SchedProc} (hprocs : s'.procs = s.procs)
    (hcur : s'.current = s.current) (hheap : s'.heap = Function.update s.heap s.current r)
    (hpid : r.pid = s.cur.pid) : s'.table = s.table.set s.table.cur (s'.entryOf s.current) := by
  have hin := inTable_congr hprocs
  have hnum : ∀ p, (s'.heap p).pid = (s.heap p).pid := by
    intro p
    by_cases hp : p = s.current
    · subst hp
      simpa [hheap, State.cur] using hpid
    · simp [hheap, hp]
  refine table_eq h' ?_ (fun p hp => ?_) fun k e hk => ?_
  · show s'.cur.pid = s.cur.pid
    unfold State.cur
    rw [hcur, hnum]
  · have hp' := (hin p).mp hp
    rw [hnum, Table.set_entry, h.entry_of hp']
    split_ifs with hpc
    · rw [(h.pid_eq_cur hp').mp hpc]
    · have hne : p ≠ s.current := fun hpc' => hpc ((h.pid_eq_cur hp').mpr hpc')
      refine congrArg some (entryOf_congr ?_ ?_ ?_).symm <;>
        simp [hheap, stackOf, hcur, hne]
  · rw [Table.set_entry] at hk
    split_ifs at hk with hkc
    · exact ⟨s.current, (hin _).mpr h.current, by rw [hnum, hkc]; rfl⟩
    · obtain ⟨p, hp, rfl, -⟩ := h.entry_eq.mp hk
      exact ⟨p, (hin p).mpr hp, hnum p⟩

/-- The current task's record changes, and control goes to another task. -/
theorem table_hand_over (h : Base s) (h' : Base s') {q : Ptr} {r r' : SchedProc}
    (hq : s.InTable q) (hne : q ≠ s.current) (hprocs : s'.procs = s.procs)
    (hcur : s'.current = q)
    (hheap : s'.heap = Function.update (Function.update s.heap s.current r) q r')
    (hpid : r.pid = s.cur.pid) (hpid' : r'.pid = (s.heap q).pid) :
    s'.table = { (s.table.set s.table.cur (s'.entryOf s.current)).set (s.heap q).pid
      (s'.entryOf q) with cur := (s.heap q).pid } := by
  have hin := inTable_congr hprocs
  have hnum : ∀ p, (s'.heap p).pid = (s.heap p).pid := by
    intro p
    by_cases hpq : p = q
    · subst hpq
      simpa [hheap] using hpid'
    · by_cases hp : p = s.current
      · subst hp
        simpa [hheap, hpq, State.cur] using hpid
      · simp [hheap, hpq, hp]
  refine table_eq h' ?_ (fun p hp => ?_) fun k e hk => ?_
  · show (s'.heap s'.current).pid = _
    rw [hcur, hnum]
  · have hp' := (hin p).mp hp
    simp only [hnum, Table.set_entry]
    split_ifs with hpq hpc
    · rw [h.pid_inj hp' hq hpq]
    · rw [(h.pid_eq_cur hp').mp hpc]
    · have hneq : p ≠ q := fun hpq' => hpq (by rw [hpq'])
      have hnec : p ≠ s.current := fun hpc' => hpc ((h.pid_eq_cur hp').mpr hpc')
      rw [h.entry_of hp']
      refine congrArg some (entryOf_congr ?_ ?_ ?_).symm <;>
        simp [hheap, stackOf, hcur, hneq, hnec]
  · simp only [Table.set_entry] at hk
    split_ifs at hk with hkq hkc
    · exact ⟨q, (hin q).mpr hq, by rw [hnum, hkq]⟩
    · exact ⟨s.current, (hin _).mpr h.current, by rw [hnum, hkc]; rfl⟩
    · obtain ⟨p, hp, rfl, -⟩ := h.entry_eq.mp hk
      exact ⟨p, (hin p).mpr hp, hnum p⟩

theorem table_forked (h : Sound s) {z : Ptr} {content : SchedProc} {i : Nat} {newsp : Addr}
    (hcall : s.frames = []) (hi : i < schedNproc) (hfree : s.procs i = none)
    (hz : s.live z = false) : (s.forked z content i newsp).table =
      s.table.set (i + 1) ⟨s.table.cur, .ready, false⟩ := by
  have hnew := fun p (hp : s.InTable p) => h.base.ne_of_free hp hz
  have hheap : ∀ p, s.InTable p → (s.forked z content i newsp).heap p = s.heap p :=
    fun p hp => forked_heap (hnew p hp)
  have hfreepid : ∀ p, s.InTable p → (s.heap p).pid ≠ i + 1 := by
    intro p hp hpid
    obtain ⟨j, hj, hp⟩ := hp
    have hpj := h.base.pid j hj p hp
    obtain rfl : j = i := by omega
    rw [hfree] at hp
    cases hp
  refine table_eq (h.fork hcall hfree hz).base ?_ (fun p hp => ?_) fun k e hk => ?_
  · exact congrArg SchedProc.pid (hheap _ h.base.current)
  · rw [Table.set_entry]
    rcases (forked_inTable hi hfree).mp hp with rfl | hp
    · have hne : p ≠ s.current := (hnew _ h.base.current).symm
      simp [forked, newRecord, entryOf, stackOf, hcall, hne, table]
    · rw [hheap p hp, if_neg (hfreepid p hp), h.base.entry_of hp]
      refine congrArg some (entryOf_congr ?_ ?_ ?_).symm
      · rw [hheap p hp]
      · rw [hheap p hp]
      · unfold stackOf
        rw [hheap p hp]
        rfl
  · rw [Table.set_entry] at hk
    split_ifs at hk with hki
    · exact ⟨z, (forked_inTable hi hfree).mpr (.inl rfl), by simp [forked, newRecord, hki]⟩
    · obtain ⟨p, hp, rfl, -⟩ := h.base.entry_eq.mp hk
      exact ⟨p, (forked_inTable hi hfree).mpr (.inr hp), by rw [hheap p hp]⟩

theorem table_reaped (h : Sound s) {z : Ptr} {gone : SchedProc} {i : Nat} (hi : i < schedNproc)
    (hz : s.procs i = some z) (hne : z ≠ s.current) (hparent : (s.heap z).ppid = s.cur.pid) :
    (s.reaped i z gone).table = s.table.reaped (s.entryOf s.current) (s.heap z).pid := by
  have hzin : s.InTable z := ⟨i, hi, hz⟩
  have hheap : ∀ p, p ≠ z → (s.reaped i z gone).heap p = s.heap p := fun p => reaped_heap
  refine table_eq (h.reap hi hz hne hparent).base ?_ (fun p hp => ?_) fun k e hk => ?_
  · exact congrArg SchedProc.pid (hheap _ hne.symm)
  · obtain ⟨hp, hpz⟩ := (h.base.reaped_inTable hi hz).mp hp
    have hpid : (s.heap p).pid ≠ (s.heap z).pid := fun heq => hpz (h.base.pid_inj hp hzin heq)
    rw [hheap p hpz, Table.reaped_entry, if_neg hpid]
    split_ifs with hpc
    · obtain rfl := (h.base.pid_eq_cur hp).mp hpc
      simp [entryOf, State.reaped, hpz, stackOf]
    · have hnec : p ≠ s.current := fun heq => hpc ((h.base.pid_eq_cur hp).mpr heq)
      rw [h.base.entry_of hp]
      simp [entryOf, State.reaped, hpz, stackOf, hnec]
  · rw [Table.reaped_entry] at hk
    split_ifs at hk with hkz hkc
    · refine ⟨s.current, (h.base.reaped_inTable hi hz).mpr ⟨h.base.current, hne.symm⟩, ?_⟩
      rw [hheap _ hne.symm, hkc]
      rfl
    · obtain ⟨p, hp, rfl, -⟩ := h.base.entry_eq.mp hk
      have hpz : p ≠ z := fun heq => hkz (by rw [heq])
      exact ⟨p, (h.base.reaped_inTable hi hz).mpr ⟨hp, hpz⟩, by rw [hheap p hpz]⟩

/-- Which step of the table a move with a given label may be. -/
inductive Acts (s : State) : Option Label → Table.Act Int → Prop
  | fork {mem newsp} (hcall : s.frames = []) :
      Acts s (some (.fork (some mem) newsp)) (.fork (nextpid s))
  | sleep {freed l} (hround : WaitRound freed s.frames l) : Acts s (some l) .sleep
  | reap {freed l k} (hround : WaitRound freed s.frames l) : Acts s (some l) (.reap k)
  | exit {code} (hcall : s.frames = []) : Acts s (some (.exit code)) .exit
  | switch : Acts s none .switch

/-! ### What the table shows of the moves -/

theorem entryOf_exited (code : Int) :
    ({ s.exited code with blocked := false, frames := [.exitSwitch] } : State).entryOf s.current =
      { s.entryOf s.current with status := .zombie, waiting := false } := by
  simp [entryOf, exited, State.modify, State.log]

theorem entryOf_slept : s.slept.entryOf s.current =
    { s.entryOf s.current with status := .sleeping, waiting := true } := by
  simp [entryOf, slept, State.modify, stackOf, Frame.isWait]

theorem entryOf_yielded : s.yielded.entryOf s.current =
    { s.entryOf s.current with status := Table.leave (s.entryOf s.current).status } := by
  simp only [entryOf, yielded, State.modify, Function.update_self, stackOf]
  cases (s.heap s.current).state <;> simp [Table.leave]

section HandOver
variable {q : Ptr} (hne : q ≠ s.current)
include hne

theorem exited_resume_heap (code : Int) : (resume (s.exited code) s.current q).heap =
    Function.update (Function.update s.heap s.current
      { s.cur with state := .zombie, exitCode := code }) q
        { s.heap q with state := .running } := by
  simp [resume_eq, exited, State.modify, State.log, hne, State.cur]

theorem savectx_resume_heap : (resume (savectx s s.current .switch) s.current q).heap =
    Function.update (Function.update s.heap s.current
      { s.cur with ctx := ⟨.switch, s.frames⟩ }) q { s.heap q with state := .running } := by
  simp [resume_eq, savectx, State.modify, State.log, hne, State.cur]

/-- The task that has exited. -/
theorem entryOf_exitWake_left (code : Int) :
    (resume (s.exited code) s.current q).entryOf s.current =
      { s.entryOf s.current with status := .zombie, waiting := false } := by
  simp [entryOf, exited_resume_heap hne, hne.symm, State.cur]

/-- Its parent, which goes on where it fell asleep. -/
theorem entryOf_exitWake_woken (code : Int) (hasleep : (s.heap q).state = .sleeping) :
    (resume (s.exited code) s.current q).entryOf q =
      { s.entryOf q with status := .running } := by
  simp [entryOf, hasleep, stackOf, hne, resume_eq, exited, State.modify, State.log]

/-- The task that `sched_switch` leaves: its stack is saved as it is. -/
theorem entryOf_dispatch_left (hrun : s.cur.state ≠ .running) :
    (resume (savectx s s.current .switch) s.current q).entryOf s.current =
      { s.entryOf s.current with status := Table.leave (s.entryOf s.current).status } := by
  have hleave : Table.leave s.cur.state = s.cur.state := by
    cases hst : s.cur.state <;> simp_all [Table.leave]
  have hcurne : (resume (savectx s s.current .switch) s.current q).current ≠ s.current := by
    rw [resume_eq]
    exact hne
  have hold : (resume (savectx s s.current .switch) s.current q).heap s.current =
      { s.cur with ctx := ⟨.switch, s.frames⟩ } := by
    rw [savectx_resume_heap hne, Function.update_of_ne hne.symm, Function.update_self]
  unfold entryOf stackOf
  rw [hold, if_neg hcurne.symm, if_pos rfl]
  rw [Entry.mk.injEq]
  exact ⟨rfl, hleave.symm, rfl⟩

/-- The task it goes to. -/
theorem entryOf_dispatch_chosen (hready : (s.heap q).state = .ready) :
    (resume (savectx s s.current .switch) s.current q).entryOf q =
      { s.entryOf q with status := .running } := by
  simp [entryOf, hready, stackOf, hne, resume_eq, savectx, State.modify, State.log]

end HandOver

/-- The move's effect on the table of pids: a step of it, or none. -/
theorem Move.refines (h : Sound s) {m : Option Label} (hlive : onCalls Disciplined s m)
    (hm : Move s m s') : s'.table = s.table ∨ ∃ a, s.table.Step a s'.table ∧ Acts s m a := by
  have h' : Sound s' := h.move (fun l hl => (hlive l hl).sparesSelf) hm
  have hcur := h.base.entry_cur
  cases hm with
  | quiet hq => exact .inl (hq.table_eq h.base h'.base)
  | forkFail hq => exact .inl (hq.table_eq h.base h'.base)
  | noChild hq => exact .inl (hq.table_eq h.base h'.base)
  | exitReturn hq => exact .inl (hq.table_eq h.base h'.base)
  | @fork z content newsp i hcall hi hfree hlow hz =>
      refine .inr ⟨.fork (i + 1), ?_, nextpid_eq hi hfree hlow ▸ .fork hcall⟩
      · rw [table_forked h hcall hi hfree hz]
        -- the slot is free, so its number has no entry
        refine .fork (Option.not_isSome_iff_eq_none.mp fun hsome => ?_)
        obtain ⟨e, he⟩ := Option.isSome_iff_exists.mp hsome
        obtain ⟨p, ⟨j, hj, hp⟩, hpid, -⟩ := h.base.entry_eq.mp he
        have hpj := h.base.pid j hj p hp
        obtain rfl : j = i := by omega
        rw [hfree] at hp
        cases hp
  | @exit code hcall hawake =>
      refine .inr ⟨.exit, ?_, .exit hcall⟩
      rw [table_set_cur h.base h'.base (r := { s.cur with state := .zombie, exitCode := code })
        rfl rfl rfl rfl]
      rw [entryOf_exited]
      -- the parent, if it has an entry, was seen awake
      refine .exit hcur fun ep hep hne => ?_
      obtain ⟨p, hp, hpid, rfl⟩ := h.base.entry_eq.mp hep
      exact hawake p hp (fun hpc => hne (hpid ▸ (h.base.pid_eq_cur hp).mpr hpc)) hpid
  | @exitWake code q hcall hq hne hparent hasleep =>
      refine .inr ⟨.exit, ?_, .exit hcall⟩
      have hpar : (s.entryOf s.current).parent = (s.heap q).pid := hparent.symm
      rw [table_hand_over h.base h'.base hq hne (by rw [resume_eq]; rfl) (by rw [resume_eq])
        (exited_resume_heap hne code) rfl rfl]
      have hnpid : (s.heap q).pid ≠ s.table.cur := fun heq => hne ((h.base.pid_eq_cur hq).mp heq)
      rw [entryOf_exitWake_left hne, entryOf_exitWake_woken hne code hasleep, ← hpar]
      exact .exitWake hcur (hpar ▸ hnpid) (hpar ▸ h.base.entry_of hq) hasleep
  | @reap _ _ _ z hround hi hz hparent hzombie =>
      have hne := h.reap_ne hround (hlive _ rfl).sparesSelf hparent hzombie
      refine .inr ⟨.reap (s.heap z).pid, ?_, .reap hround⟩
      rw [table_reaped h hi hz hne hparent]
      have hzin : s.InTable _ := ⟨_, hi, hz⟩
      exact .reap hcur (fun heq => hne ((h.base.pid_eq_cur hzin).mp heq)) (h.base.entry_of hzin)
        hparent hzombie
  | sleep hround hchild hquiet =>
      refine .inr ⟨.sleep, ?_, .sleep hround⟩
      rw [table_set_cur h.base h'.base (r := { s.cur with state := .sleeping }) rfl rfl rfl rfl]
      have halive := h.wait_alive hround (hlive _ rfl)
      rw [entryOf_slept]
      -- in the first round a child was found, in a later one the task was waiting before
      refine .sleep hcur halive ?_ fun k e hk hpar hz => ?_
      · rcases hround.frames with hnil | hagain
        · obtain ⟨q, hq, hpar⟩ := hchild hnil
          exact .inr ⟨_, _, h.base.entry_of hq, hpar⟩
        · left
          have hst : (s.heap s.current).state ≠ .zombie := halive
          simp [entryOf, stackOf, hagain, Frame.isWait, hst]
      · obtain ⟨p, hp, rfl, rfl⟩ := h.base.entry_eq.mp hk
        exact hquiet p hp hpar hz
  | yield =>
      refine .inr ⟨.switch, ?_, .switch⟩
      rw [table_set_cur h.base h'.base (r := { s.cur with state := Table.leave s.cur.state })
        rfl rfl rfl rfl]
      rw [entryOf_yielded]
      exact .keep hcur
  | @dispatch q hq hne hready hrun =>
      refine .inr ⟨.switch, ?_, .switch⟩
      rw [table_hand_over h.base h'.base hq hne (by rw [resume_eq]; rfl) (by rw [resume_eq])
        (savectx_resume_heap hne) rfl rfl]
      rw [entryOf_dispatch_left hne hrun, entryOf_dispatch_chosen hne hready]
      exact .dispatch hcur (fun heq => hne ((h.base.pid_eq_cur hq).mp heq)) (h.base.entry_of hq)
        hready

/-! ### Runs -/

theorem Started.table_eq (h : Started s) : s.table =
    ⟨Function.update (fun _ => none) 1 (some ⟨1, .running, false⟩), 1⟩ := by
  have hin : ∀ p, s.InTable p → p = s.current := fun p ⟨i, _, hp⟩ => (h.slot hp).2
  have hpid : (s.heap s.current).pid = 1 := h.pid
  refine Sched.table_eq h.sound.base h.pid (fun p hp => ?_) fun k e hk => ?_
  · obtain rfl := hin p hp
    have hentry : s.entryOf s.current = ⟨1, .running, false⟩ := by
      have hppid : (s.heap s.current).ppid = 1 := h.ppid
      have hst : (s.heap s.current).state = .running := h.state
      simp [entryOf, stackOf, h.frames, hppid, hst]
    simp [hpid, hentry]
  · simp only [Function.update_apply, Option.ite_none_right_eq_some] at hk
    obtain ⟨hk1, -⟩ := hk
    exact ⟨s.current, h.sound.base.current, hpid.trans hk1.symm⟩

section Runs
variable {ok : State → Label → Prop} {okT : Table Int → Table.Act Int → Prop}
  (hlive : ∀ {s l}, ok s l → Disciplined s l)
  (hact : ∀ {s m a}, Sound s → onCalls ok s m → Acts s m a → okT s.table a)
include hlive hact

theorem moves_table (h : moves.Reach (onCalls ok) s) : (Table.machine 1).Reach okT s.table := by
  refine h.simulate State.table (fun ha => ha.started.table_eq) ?_
  intro a m b hreach hok hm
  have hsound := Sound.of_moves (fun hok => (hlive hok).sparesSelf) hreach
  rcases Move.refines hsound (fun l hl => hlive (hok l hl)) hm with heq | ⟨x, hs, hx⟩
  · rw [heq]
    exact .refl
  · exact .single ⟨x, hact hsound hok hx, hs⟩

/-- **Tables of reachable states are reachable tables.** A condition on the steps may be
carried over. -/
theorem reach_table (h : sched.Reach ok s) : (Table.machine 1).Reach okT s.table :=
  moves_table hlive hact (reach_moves (fun hok => (hlive hok).sparesSelf) h)

end Runs

/-- The table of a reachable state is well formed. -/
theorem Table.Wf.of_reach (h : sched.Reach Disciplined s) : s.table.Wf := by
  have hreach : (Table.machine 1).Reach System.any s.table :=
    reach_table id (fun _ _ _ => trivial) h
  exact .reach hreach

end Ece357.Sched
