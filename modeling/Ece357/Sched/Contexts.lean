import Ece357.Machine.History
import Ece357.Sched.Steps

/-!
# Ece357.Sched.Contexts

**Every resumption is of the latest suspension.** What the trace says of one record
since it was last put into the table is its `Story`: who created it, where it was
last suspended, whether it has ever run, which returns from its `sched_fork` there
have been, whether it has exited. The table and the stories agree in every reachable
state (`Storied`): a task that is neither running nor dead holds in `ctx` what its
story says. So each `restorectx` continues the suspension it ought to continue, and
each successful `sched_fork` returns once in the parent and once in the child.
-/

namespace Ece357.Sched

open Ece357.Machine Ece357.ProcTable State

/-! ### Stories -/

/-- What the trace says of a record since it was last put into the table. -/
structure Story where
  /-- The task whose `sched_fork` put it there; the initial process has none. -/
  creator : Option Ptr
  /-- By whom, and with what, its `ctx` was filled since it last ran. -/
  suspended : Option (Ptr × Savectx)
  /-- Has it run? -/
  ran : Bool
  /-- In which tasks, and with what value, its `sched_fork` has returned. -/
  returns : List (Ptr × Int)
  /-- Has it exited? -/
  dead : Bool

/-- How an event continues the story of the record at `p`. -/
def Story.next (p : Ptr) (st : Story) : Event → Story
  | .forked parent q => if q = p then ⟨some parent, none, false, [], false⟩ else st
  | .saved by_ q ctx => if q = p then { st with suspended := some (by_, ctx) } else st
  | .restored _ q _ => if q = p then { st with suspended := none, ran := true } else st
  | .exited q _ => if q = p then { st with dead := true } else st
  | .forkReturned task (some q) ret =>
      if q = p then { st with returns := (task, ret) :: st.returns } else st
  | _ => st

/-- The story of the record at `p`; before the first event it is the initial process's. -/
def story (p : Ptr) : List Event → Story
  | [] => ⟨none, none, true, [], false⟩
  | e :: h => (story p h).next p e

/-- The returns of the `sched_fork` of `parent` that created `p` with the given pid: one
in the parent, and one in the child if that has run. -/
def forkReturns (parent p : Ptr) (pid : Int) (ran : Bool) : List (Ptr × Int) :=
  (if ran then [(p, 0)] else []) ++ [(parent, pid)]

/-- A resumption continues the latest suspension: in `sched_switch`, where the task left
off itself, or, if it has never run, in the `sched_fork` that created it. -/
def Continues (q : Ptr) (ctx : Savectx) (st : Story) : Prop :=
  (ctx.pc = .switch ∧ st.suspended = some (q, ctx) ∧ st.ran = true) ∨
  ctx.pc = .fork ∧ ∃ parent, st.creator = some parent ∧ st.suspended = some (parent, ctx) ∧
    st.ran = false

/-- What must have happened before an event: a task resumed is another one than the one
that resumes it, has not exited, and continues its latest suspension. -/
def Resuming : Event → List Event → Prop
  | .restored by_ q ctx, h => q ≠ by_ ∧ (story q h).dead = false ∧ Continues q ctx (story q h)
  | _, _ => True

/-- The table agrees with the stories of its records. -/
structure Storied (s : State) : Prop where
  dead : ∀ p, s.InTable p → ((story p s.trace).dead = true ↔ (s.heap p).state = .zombie)
  cur : (story s.current s.trace).ran = true
  ctx : ∀ p, s.InTable p → p ≠ s.current → (s.heap p).state ≠ .zombie →
    Continues p (s.heap p).ctx (story p s.trace)
  returns : ∀ p parent, (story p s.trace).creator = some parent → ∃ pid : Int, 0 < pid ∧
    (s.InTable p → (s.heap p).pid = pid) ∧
    (story p s.trace).returns = forkReturns parent p pid (story p s.trace).ran
  past : Always Resuming s.trace

variable {s s' : State}

/-- An event that continues no story and resumes nobody. -/
def Event.Idle (e : Event) : Prop := (∀ p st, Story.next p st e = st) ∧ ∀ h, Resuming e h

theorem story_append {new h : List Event} (hnew : ∀ e ∈ new, e.Idle) (p : Ptr) :
    story p (new ++ h) = story p h := by
  induction new with
  | nil => rfl
  | cons e new ih =>
      have hrest := ih fun x hx => hnew x (List.mem_cons_of_mem _ hx)
      rw [List.cons_append, story, hrest]
      exact (hnew e (List.mem_cons_self ..)).1 p _

/-- The story of a task that is resumed, and of the others. -/
theorem story_resume (by_ p q : Ptr) (ctx : Savectx) (h : List Event) :
    story p (resumption q ctx ++ .restored by_ q ctx :: h) =
      if q = p then { story p h with
        suspended := none, ran := true,
        returns := (if ctx.pc = .fork then [(q, 0)] else []) ++ (story p h).returns }
      else story p h := by
  unfold resumption
  cases hpc : ctx.pc <;> by_cases hqp : q = p <;> simp [story, Story.next, hqp]

/-- Moves after which the records still in the table have the pid and the context they
had, and whose events are of no interest. -/
theorem Storied.keep (h : Storied s) (new : List Event) (hnew : ∀ e ∈ new, e.Idle)
    (htrace : s'.trace = new ++ s.trace) (hcur : s'.current = s.current)
    (hin : ∀ p, s'.InTable p → s.InTable p)
    (hpid : ∀ p, s'.InTable p → (s'.heap p).pid = (s.heap p).pid)
    (hctx : ∀ p, s'.InTable p → (s'.heap p).ctx = (s.heap p).ctx)
    (hst : ∀ p, s'.InTable p → ((s'.heap p).state = .zombie ↔ (s.heap p).state = .zombie)) :
    Storied s' := by
  have hstory : ∀ p, story p s'.trace = story p s.trace := fun p => by
    rw [htrace]
    exact story_append hnew p
  refine ⟨fun p hp => ?_, ?_, fun p hp hne hz => ?_, fun p parent hcr => ?_, ?_⟩
  · rw [hstory, hst p hp]
    exact h.dead p (hin p hp)
  · rw [hstory, hcur]
    exact h.cur
  · rw [hcur] at hne
    rw [hstory, hctx p hp]
    exact h.ctx p (hin p hp) hne fun hz' => hz ((hst p hp).mpr hz')
  · rw [hstory] at hcr ⊢
    obtain ⟨pid, hpos, hp, hret⟩ := h.returns p parent hcr
    exact ⟨pid, hpos, fun hp' => (hpid p hp').trans (hp (hin p hp')), hret⟩
  · rw [htrace]
    exact h.past.append fun e he => (hnew e he).2

/-- An event of the current task that leaves its creation and its returns as they were. -/
theorem Storied.mark (h : Storied s) {e : Event} (htrace : s'.trace = e :: s.trace)
    (hcur : s'.current = s.current) (hprocs : s'.procs = s.procs)
    (hother : ∀ p, p ≠ s.current → s'.heap p = s.heap p ∧ story p s'.trace = story p s.trace)
    (hself : (story s.current s'.trace).creator = (story s.current s.trace).creator ∧
      (story s.current s'.trace).ran = (story s.current s.trace).ran ∧
      (story s.current s'.trace).returns = (story s.current s.trace).returns)
    (hpid : (s'.heap s.current).pid = (s.heap s.current).pid)
    (hdead : s.InTable s.current →
      ((story s.current s'.trace).dead = true ↔ (s'.heap s.current).state = .zombie))
    (he : Resuming e s.trace) : Storied s' := by
  have hin : ∀ p, s'.InTable p → s.InTable p := fun p => (inTable_congr hprocs p).mp
  refine ⟨fun p hp => ?_, ?_, fun p hp hne hz => ?_, fun p parent hcr => ?_, ?_⟩
  · by_cases hpc : p = s.current
    · subst hpc
      exact hdead (hin _ hp)
    · obtain ⟨hheap, hstory⟩ := hother p hpc
      rw [hheap, hstory]
      exact h.dead p (hin p hp)
  · rw [hcur, hself.2.1]
    exact h.cur
  · rw [hcur] at hne
    obtain ⟨hheap, hstory⟩ := hother p hne
    rw [hheap] at hz ⊢
    rw [hstory]
    exact h.ctx p (hin p hp) hne hz
  · by_cases hpc : p = s.current
    · subst hpc
      rw [hself.1] at hcr
      obtain ⟨pid, hpos, hp, hret⟩ := h.returns s.current parent hcr
      rw [hself.2.1, hself.2.2]
      exact ⟨pid, hpos, fun hp' => hpid.trans (hp (hin _ hp')), hret⟩
    · obtain ⟨hheap, hstory⟩ := hother p hpc
      rw [hstory] at hcr ⊢
      rw [hheap]
      obtain ⟨pid, hpos, hp, hret⟩ := h.returns p parent hcr
      exact ⟨pid, hpos, fun hp' => hp (hin p hp'), hret⟩
  · rw [htrace]
    exact always_cons.mpr ⟨he, h.past⟩

theorem Storied.exited (h : Storied s) (code : Int) : Storied (s.exited code) := by
  have hstory : ∀ p, story p (s.exited code).trace =
      if s.current = p then { story p s.trace with dead := true } else story p s.trace :=
    fun p => rfl
  refine h.mark (e := .exited s.current code) rfl rfl rfl (fun p hp => ?_) ?_
    (exited_field SchedProc.pid s (fun _ => rfl) _) (fun _ => ?_) trivial
  · rw [hstory, if_neg hp.symm]
    exact ⟨by simp [State.exited, State.modify, State.log, hp], rfl⟩
  · rw [hstory, if_pos rfl]
    exact ⟨rfl, rfl, rfl⟩
  · rw [hstory, if_pos rfl]
    simp [State.exited, State.modify, State.log]

theorem Storied.savectx (h : Storied s) : Storied (savectx s s.current .switch) := by
  have hstory : ∀ p, story p (Sched.savectx s s.current .switch).trace =
      if s.current = p then
        { story p s.trace with suspended := some (s.current, ⟨.switch, s.frames⟩) }
      else story p s.trace := fun p => rfl
  refine h.mark (e := .saved s.current s.current ⟨.switch, s.frames⟩) rfl rfl rfl
    (fun p hp => ?_) ?_ (savectx_field SchedProc.pid s (fun _ => rfl) _) (fun hin => ?_) trivial
  · rw [hstory, if_neg hp.symm]
    exact ⟨by simp [Sched.savectx, State.modify, State.log, hp], rfl⟩
  · rw [hstory, if_pos rfl]
    exact ⟨rfl, rfl, rfl⟩
  · rw [hstory, if_pos rfl, savectx_field SchedProc.state s fun _ => rfl]
    exact h.dead _ hin

/-- Control passes from the current task, dead or with its context saved, to `q`. -/
theorem Storied.resume (h : Storied s) (hleft : s.cur.state ≠ .zombie →
      Continues s.current s.cur.ctx (story s.current s.trace)) {q : Ptr} (hq : s.InTable q)
    (hne : q ≠ s.current) (hst : (s.heap q).state ≠ .zombie) :
    Storied (resume s s.current q) := by
  have hcont := h.ctx q hq hne hst
  have hstory : ∀ p, story p (Sched.resume s s.current q).trace =
      if q = p then { story p s.trace with
        suspended := none, ran := true,
        returns := (if (s.heap q).ctx.pc = .fork then [(q, 0)] else []) ++
          (story p s.trace).returns }
      else story p s.trace := fun p => by
    rw [resume_trace]
    exact story_resume ..
  have hin := inTable_congr (resume_procs s s.current q)
  have hother : ∀ p, p ≠ q → (Sched.resume s s.current q).heap p = s.heap p := fun p hp => by
    simp [resume_eq, hp]
  have hdead : (story q s.trace).dead = false := by
    rw [Bool.eq_false_iff]
    exact fun hd => hst ((h.dead q hq).mp hd)
  refine ⟨fun p hp => ?_, ?_, fun p hp hnp hz => ?_, fun p parent hcr => ?_, ?_⟩
  · rw [hstory]
    by_cases hqp : q = p
    · subst hqp
      simp [resume_eq, hdead]
    · rw [if_neg hqp, hother p (Ne.symm hqp)]
      exact h.dead p ((hin p).mp hp)
  · rw [hstory, resume_current, if_pos rfl]
  · rw [resume_current] at hnp
    rw [hother p hnp] at hz ⊢
    rw [hstory, if_neg hnp.symm]
    by_cases hpc : p = s.current
    · subst hpc
      exact hleft hz
    · exact h.ctx p ((hin p).mp hp) hpc hz
  · rw [hstory] at hcr ⊢
    by_cases hqp : q = p
    · subst hqp
      rw [if_pos rfl] at hcr ⊢
      obtain ⟨pid, hpos, hp, hret⟩ := h.returns q parent hcr
      refine ⟨pid, hpos, fun hp' => ?_, ?_⟩
      · rw [resume_field SchedProc.pid _ fun _ => rfl]
        exact hp ((hin q).mp hp')
      · -- Resumed for the first time in the `sched_fork`, or again in `sched_switch`.
        rcases hcont with ⟨hpc, -, hran⟩ | ⟨hpc, -, -, -, hran⟩
        · simp [hret, hpc, hran]
        · simp [hret, hpc, hran, forkReturns]
    · rw [if_neg hqp] at hcr ⊢
      obtain ⟨pid, hpos, hp, hret⟩ := h.returns p parent hcr
      refine ⟨pid, hpos, fun hp' => ?_, hret⟩
      rw [resume_field SchedProc.pid _ fun _ => rfl]
      exact hp ((hin p).mp hp')
  · rw [resume_trace]
    refine (always_cons.mpr ⟨⟨hne, hdead, hcont⟩, h.past⟩).append fun e he old => ?_
    unfold resumption at he
    split at he
    · obtain rfl := List.mem_singleton.mp he
      trivial
    · cases he

theorem Storied.fork (h : Storied s) (hsound : Sound s) {z : Ptr} {content : SchedProc}
    {newsp : Addr} {i : Nat} (hi : i < schedNproc) (hfree : s.procs i = none)
    (hz : s.live z = false) : Storied (s.forked z content i newsp) := by
  have hstory : ∀ p, story p (s.forked z content i newsp).trace =
      if z = p then ⟨some s.current, some (s.current, ⟨.fork, s.frames⟩), false,
        [(s.current, i + 1)], false⟩
      else story p s.trace := fun p => by
    by_cases hzp : z = p <;> simp [State.forked, story, Story.next, hzp]
  have hheap : ∀ p, p ≠ z → (s.forked z content i newsp).heap p = s.heap p :=
    fun p => forked_heap
  have hnew : (s.forked z content i newsp).heap z = newRecord s content i newsp := by
    simp [State.forked]
  have hcz : s.current ≠ z := hsound.base.ne_of_free hsound.base.current hz
  refine ⟨fun p hp => ?_, ?_, fun p hp hnp hst => ?_, fun p parent hcr => ?_, ?_⟩
  · rw [hstory]
    rcases (forked_inTable hi hfree).mp hp with rfl | hpold
    · simp [hnew, newRecord]
    · have hpz := hsound.base.ne_of_free hpold hz
      rw [if_neg hpz.symm, hheap p hpz]
      exact h.dead p hpold
  · show (story s.current _).ran = true
    rw [hstory, if_neg hcz.symm]
    exact h.cur
  · rw [hstory]
    rcases (forked_inTable hi hfree).mp hp with rfl | hpold
    · rw [if_pos rfl, hnew]
      exact .inr ⟨rfl, s.current, rfl, rfl, rfl⟩
    · have hpz := hsound.base.ne_of_free hpold hz
      rw [hheap p hpz] at hst ⊢
      rw [if_neg hpz.symm]
      exact h.ctx p hpold hnp hst
  · rw [hstory] at hcr ⊢
    by_cases hzp : z = p
    · subst hzp
      rw [if_pos rfl] at hcr ⊢
      obtain rfl := Option.some.inj hcr
      -- so far only the creator has returned from the `sched_fork`
      exact ⟨i + 1, by omega, fun _ => by rw [hnew]; rfl, rfl⟩
    · rw [if_neg hzp] at hcr ⊢
      obtain ⟨pid, hpos, hp, hret⟩ := h.returns p parent hcr
      refine ⟨pid, hpos, fun hp' => ?_, hret⟩
      rcases (forked_inTable hi hfree).mp hp' with rfl | hpold
      · exact absurd rfl hzp
      · rw [hheap p (Ne.symm hzp)]
        exact hp hpold
  · exact always_cons.mpr ⟨trivial, always_cons.mpr ⟨trivial, always_cons.mpr ⟨trivial, h.past⟩⟩⟩

/-- Every move keeps the table and the stories of its records in agreement. -/
theorem Storied.move (h : Storied s) (hsound : Sound s) {m : Option Label}
    (hok : onCalls Disciplined s m) (hm : Move s m s') : Storied s' := by
  have hquiet : ∀ {new}, Quiet s new s' → (∀ e ∈ new, e.Idle) → Storied s' := by
    intro new hq hnew
    have hin : ∀ p, s'.InTable p → s.InTable p := fun p => (inTable_congr hq.procs p).mp
    refine h.keep new hnew hq.trace hq.current hin (fun p hp => ?_) (fun p hp => ?_) fun p hp => ?_
    · exact (hq.record p (hin p hp)).pid
    · exact (hq.record p (hin p hp)).ctx
    · rw [(hq.record p (hin p hp)).state]
  have hstay : ∀ {st : SchedProc → Status}, (∀ r, st r = .zombie ↔ r.state = .zombie) →
      ∀ p, ((s.modify s.current fun r => { r with state := st r }).heap p).state = .zombie ↔
        (s.heap p).state = .zombie := by
    intro st hst p
    by_cases hpc : p = s.current
    · subst hpc
      simpa [State.modify] using hst (s.heap s.current)
    · simp [State.modify, hpc]
  cases hm with
  | quiet hq => exact hquiet hq (by simp)
  | forkFail hq => exact hquiet hq (by simp [Event.Idle, Story.next, Resuming])
  | noChild hq => exact hquiet hq (by simp [Event.Idle, Story.next, Resuming])
  | exitReturn hq => exact hquiet hq (by simp [Event.Idle, Story.next, Resuming])
  | fork hcall hi hfree hlow hz => exact h.fork hsound hi hfree hz
  | @exit code hcall hawake =>
      exact (h.exited code).keep [] (by simp) rfl rfl (fun _ hp => hp) (fun _ _ => rfl)
        (fun _ _ => rfl) fun _ _ => .rfl
  | @exitWake code q hcall hq hne hparent hasleep =>
      -- who has exited has no context to come back to
      refine (h.exited code).resume (fun hz => absurd ?_ hz) hq hne ?_
      · simp [State.exited, State.modify, State.log, State.cur]
      · simp [State.exited, State.modify, State.log, hne, hasleep]
  | @reap l freed i z hround hi hz hparent hzombie =>
      have hin : ∀ p, (s.reaped i z (freed (s.heap z))).InTable p → s.InTable p ∧ p ≠ z :=
        fun p hp => (hsound.base.reaped_inTable hi hz).mp hp
      refine h.keep [.waitReturned s.current 0 (some (freed (s.heap z)).exitCode),
        .reaped s.current z] ?_ rfl rfl (fun p hp => (hin p hp).1) (fun p hp => ?_)
        (fun p hp => ?_) fun p hp => ?_
      · simp [Event.Idle, Story.next, Resuming]
      all_goals rw [reaped_heap (hin p hp).2]
  | sleep hround =>
      have halive := hsound.wait_alive hround (hok _ rfl)
      refine h.keep [] (by simp) rfl rfl (fun _ hp => hp)
        (fun p _ => slept_field SchedProc.pid s (fun _ => rfl) p)
        (fun p _ => slept_field SchedProc.ctx s (fun _ => rfl) p) fun p _ => ?_
      by_cases hpc : p = s.current
      · subst hpc
        have hst : (s.heap s.current).state ≠ .zombie := halive
        simp [slept, State.modify, hst]
      · simp [slept, State.modify, hpc]
  | yield =>
      refine h.keep [] (by simp) rfl rfl (fun _ hp => hp)
        (fun p _ => yielded_field SchedProc.pid s (fun _ => rfl) p)
        (fun p _ => yielded_field SchedProc.ctx s (fun _ => rfl) p)
        fun p _ => hstay (fun r => ?_) p
      cases r.state <;> simp [Table.leave]
  | @dispatch q hq hne hready hcur =>
      -- who is left has just saved its context
      refine h.savectx.resume (fun _ => .inl ?_) hq hne ?_
      · have hself : (Sched.savectx s s.current .switch).cur.ctx = ⟨.switch, s.frames⟩ := by
          simp [Sched.savectx, State.modify, State.log, State.cur]
        rw [hself]
        refine ⟨rfl, ?_, h.savectx.cur⟩
        simp [Sched.savectx, State.modify, State.log, story, Story.next]
      · simp [Sched.savectx, State.modify, State.log, hne, hready]

theorem Started.storied (h : Started s) : Storied s := by
  have hin : ∀ p, s.InTable p → p = s.current := fun p ⟨_, _, hp⟩ => (h.slot hp).2
  refine ⟨fun p hp => ?_, ?_, fun p hp hne => absurd (hin p hp) hne, fun p parent hcr => ?_, ?_⟩
  · obtain rfl := hin p hp
    have hst : (s.heap s.current).state = .running := h.state
    simp [h.trace, story, hst]
  · simp [h.trace, story]
  · simp [h.trace, story] at hcr
  · rw [h.trace]
    exact always_nil _

/-! ### Every resumption is valid -/

/-- **Every `restorectx` continues the latest suspension.** At every resumption in every
run: the task resumed is not the one that resumes it and has not exited, and its
context was filled where it was last suspended, by its own call of `sched_switch`, or
by the `sched_fork` that created it if it has never run. A `sched_fork` that created
a record has returned once in the parent with the pid of the record, and once in the
child with 0 if that has run, and not at all otherwise. Having exited is being a
ZOMBIE in the table. -/
theorem resumptions_valid (h : sched.Reach Disciplined s) :
    (∀ new by_ q ctx old, s.trace = new ++ .restored by_ q ctx :: old →
      q ≠ by_ ∧ (story q old).dead = false ∧
      ((ctx.pc = .switch ∧ (story q old).suspended = some (q, ctx) ∧ (story q old).ran = true) ∨
        ctx.pc = .fork ∧ ∃ parent, (story q old).creator = some parent ∧
          (story q old).suspended = some (parent, ctx) ∧ (story q old).ran = false)) ∧
    (∀ p parent, (story p s.trace).creator = some parent → ∃ pid : Int, 0 < pid ∧
      (s.InTable p → (s.heap p).pid = pid) ∧
      (story p s.trace).returns =
        (if (story p s.trace).ran then [(p, 0)] else []) ++ [(parent, pid)]) ∧
    ∀ p, s.InTable p → ((story p s.trace).dead = true ↔ (s.heap p).state = .zombie) := by
  have hstoried : Storied s := invariant_of_moves (I := Storied) Disciplined.sparesSelf h
    Started.storied fun _ hsound hs hok hm => hs.move hsound hok hm
  exact ⟨fun new by_ q ctx old heq => hstoried.past new _ old heq, hstoried.returns,
    hstoried.dead⟩

/-- A child runs for the first time: its `sched_fork` has returned twice. -/
theorem resumptions_valid_child : ∃ s : State, ∃ old, s.trace =
      .forkReturned 101 (some 101) 0 :: .restored 100 101 ⟨.fork, []⟩ :: old ∧
    (story 101 old).suspended = some (100, ⟨.fork, []⟩) ∧
    ∃ pid, (story 101 s.trace).returns = [(101, 0), (100, pid)] := by
  have hrun : ∃ s, sched.Reach Disciplined s ∧
      (s.trace.take 2 = [.forkReturned 101 (some 101) 0, .restored 100 101 ⟨.fork, []⟩] &&
        (story 101 s.trace).creator = some 100 && (story 101 s.trace).ran &&
        (story 101 (s.trace.drop 2)).creator = some 100) = true :=
    start_reach _ (fun s l => decide (Disciplined s l))
      [.fork (some (101, blank)) 65536, .wait id, .go id]
      _ (fun _ _ _ => of_decide_eq_true) (by decide +kernel)
  obtain ⟨s, hreach, hs⟩ := hrun
  simp only [Bool.and_eq_true, decide_eq_true_eq] at hs
  obtain ⟨⟨⟨htop, hcr⟩, hran⟩, hcrold⟩ := hs
  have htrace : s.trace = [.forkReturned 101 (some 101) 0] ++
      .restored 100 101 ⟨.fork, []⟩ :: s.trace.drop 2 := by
    rw [← List.take_append_drop 2 s.trace, htop]
    simp
  obtain ⟨hpast, hreturns, -⟩ := resumptions_valid hreach
  obtain ⟨-, -, hcont⟩ := hpast _ _ _ _ _ htrace
  obtain ⟨parent, hpar, hsusp, -⟩ := (hcont.resolve_left (by simp)).2
  obtain rfl := Option.some.inj (hcrold.symm.trans hpar)
  obtain ⟨pid, -, -, hret⟩ := hreturns 101 100 hcr
  exact ⟨s, _, htrace, hsusp, pid, by rw [hret, hran]; rfl⟩

end Ece357.Sched
