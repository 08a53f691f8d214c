import Ece357.Sched.Steps

/-!
# Ece357.Sched.Stacks

**Stack areas.** `sched_init` and `sched_fork` map a stack area for each process; nothing
ever unmaps one. `sched_wait` frees the record of the child it reaps, and with it the only
pointer to the child's stack.

So the areas mapped are the stacks of the processes in the table as long as no `sched_wait`
has reaped anybody, and from the first reaping on they never are again: the area of the
child reaped stays mapped, and no later process can get it (`stacks_released`).
-/

namespace Ece357.Sched

open Ece357.Machine Ece357.ProcTable State

variable {s s' t : State}

/-- The stack areas mapped are exactly the stacks of the processes in the table. -/
def State.StacksExact (s : State) : Prop :=
  ∀ a, a ∈ s.mapped ↔ ∃ p, s.InTable p ∧ (s.heap p).stack = a

/-- The current task has a zombie child to reap. -/
def State.ZombieChild (s : State) (z : Ptr) : Prop :=
  s.InTable z ∧ (s.heap z).ppid = s.cur.pid ∧ (s.heap z).state = .zombie

/-- The step is no round of `sched_wait` that finds a zombie child. -/
def ReapsNobody (s : State) (l : Label) : Prop :=
  ∀ freed, WaitRound freed s.frames l → ∀ z, ¬ s.ZombieChild z

/-- A stack area is mapped, and belongs to no process in the table. -/
def State.Leaked (s : State) (a : Addr) : Prop :=
  a ∈ s.mapped ∧ ∀ p, s.InTable p → (s.heap p).stack ≠ a

/-- The stacks of the processes in the table are mapped, and different from each other. -/
structure OwnStacks (s : State) : Prop where
  mapped : ∀ p, s.InTable p → (s.heap p).stack ∈ s.mapped
  inj : ∀ p q, s.InTable p → s.InTable q → (s.heap p).stack = (s.heap q).stack → p = q

/-! ### What a move does to stacks -/

/-- The stacks as a move leaves them. -/
inductive StackMove (s : State) (m : Option Label) (s' : State) : Prop
  | same (hmapped : s'.mapped = s.mapped) (hin : ∀ p, s'.InTable p ↔ s.InTable p)
      (hstack : ∀ p, s.InTable p → (s'.heap p).stack = (s.heap p).stack)
  /-- A new process gets a new area. -/
  | map {z newsp} (hfresh : newsp ∉ s.mapped) (hmapped : s'.mapped = newsp :: s.mapped)
      (hin : ∀ p, s'.InTable p ↔ p = z ∨ s.InTable p) (hne : ∀ p, s.InTable p → p ≠ z)
      (hnew : (s'.heap z).stack = newsp)
      (hstack : ∀ p, s.InTable p → (s'.heap p).stack = (s.heap p).stack)
  /-- A process leaves the table. -/
  | drop {l freed z} (hl : m = some l) (hround : WaitRound freed s.frames l)
      (hz : s.ZombieChild z) (hmapped : s'.mapped = s.mapped)
      (hin : ∀ p, s'.InTable p ↔ s.InTable p ∧ p ≠ z)
      (hstack : ∀ p, p ≠ z → (s'.heap p).stack = (s.heap p).stack)

theorem Move.stacks (h : Sound s) {m : Option Label} (hm : Move s m s') : StackMove s m s' := by
  have hquiet : ∀ {new}, Quiet s new s' → StackMove s m s' := fun hq =>
    .same hq.mapped (inTable_congr hq.procs) fun p hp => (hq.record p hp).stack
  have hresume : ∀ {u : State} {q : Ptr}, u.mapped = s.mapped → u.procs = s.procs →
      (∀ p, (u.heap p).stack = (s.heap p).stack) → StackMove s m (resume u s.current q) := by
    intro u q hmapped hprocs hstack
    refine .same ?_ (inTable_congr ((resume_procs _ _ _).trans hprocs)) fun p _ => ?_
    · rw [resume_eq]
      exact hmapped
    · exact (resume_field SchedProc.stack u (fun _ => rfl) _ q p).trans (hstack p)
  cases hm with
  | quiet hq => exact hquiet hq
  | forkFail hq => exact hquiet hq
  | noChild hq => exact hquiet hq
  | exitReturn hq => exact hquiet hq
  | @fork z content newsp i hcall hi hfree hlow hz hsp =>
      have hne := fun p (hp : s.InTable p) => h.base.ne_of_free hp hz
      refine .map hsp rfl (fun p => forked_inTable hi hfree) hne ?_ fun p hp => ?_
      · simp [forked, newRecord]
      · rw [forked_heap (hne p hp)]
  | @exit code =>
      refine .same rfl (fun _ => Iff.rfl) fun p _ => ?_
      exact exited_field SchedProc.stack s (fun _ => rfl) p
  | @exitWake code q =>
      exact hresume rfl rfl (exited_field SchedProc.stack s fun _ => rfl)
  | @reap l freed i z hround hi hz hparent hzombie =>
      refine .drop rfl hround ⟨⟨i, hi, hz⟩, hparent, hzombie⟩ rfl
        (fun p => h.base.reaped_inTable hi hz) fun p hp => ?_
      rw [reaped_heap hp]
  | sleep =>
      exact .same rfl (fun _ => Iff.rfl) fun p _ => slept_field SchedProc.stack s (fun _ => rfl) p
  | yield =>
      exact .same rfl (fun _ => Iff.rfl) fun p _ => yielded_field SchedProc.stack s (fun _ => rfl) p
  | dispatch => exact hresume rfl rfl (savectx_field SchedProc.stack s fun _ => rfl)

theorem StackMove.exact {m : Option Label} (h : s.StacksExact) (hm : StackMove s m s')
    (hnone : onCalls ReapsNobody s m) : s'.StacksExact := by
  cases hm with
  | same hmapped hin hstack =>
      intro a
      rw [hmapped, h a]
      refine exists_congr fun p => ?_
      rw [hin p]
      exact and_congr_right fun hp => by rw [hstack p hp]
  | @map z newsp hfresh hmapped hin hne hnew hstack =>
      intro a
      rw [hmapped, List.mem_cons, h a]
      constructor
      · intro ha
        rcases ha with rfl | ⟨p, hp, rfl⟩
        · exact ⟨z, (hin z).mpr (.inl rfl), hnew⟩
        · exact ⟨p, (hin p).mpr (.inr hp), hstack p hp⟩
      · intro ha
        obtain ⟨p, hp, rfl⟩ := ha
        rcases (hin p).mp hp with rfl | hp
        · exact .inl hnew
        · exact .inr ⟨p, hp, (hstack p hp).symm⟩
  | drop hl hround hz => exact absurd hz (hnone _ hl _ hround _)

theorem StackMove.own {m : Option Label} (h : OwnStacks s) (hm : StackMove s m s') :
    OwnStacks s' := by
  cases hm with
  | same hmapped hin hstack =>
      refine ⟨fun p hp => ?_, fun p q hp hq heq => ?_⟩
      · have hp := (hin p).mp hp
        rw [hmapped, hstack p hp]
        exact h.mapped p hp
      · have hp := (hin p).mp hp
        have hq := (hin q).mp hq
        rw [hstack p hp, hstack q hq] at heq
        exact h.inj p q hp hq heq
  | @map z newsp hfresh hmapped hin hne hnew hstack =>
      -- `mmap` gives out what is not mapped, and all stacks are
      have hold : ∀ p, s.InTable p → (s'.heap p).stack ≠ newsp := by
        intro p hp heq
        rw [hstack p hp] at heq
        exact hfresh (heq ▸ h.mapped p hp)
      refine ⟨fun p hp => ?_, fun p q hp hq heq => ?_⟩
      · rw [hmapped, List.mem_cons]
        rcases (hin p).mp hp with rfl | hp
        · exact .inl hnew
        · rw [hstack p hp]
          exact .inr (h.mapped p hp)
      · rcases (hin p).mp hp with rfl | hp <;> rcases (hin q).mp hq with rfl | hq
        · rfl
        · exact absurd (heq.symm.trans hnew) (hold q hq)
        · exact absurd (heq.trans hnew) (hold p hp)
        · rw [hstack p hp, hstack q hq] at heq
          exact h.inj p q hp hq heq
  | @drop l freed z hl hround hz hmapped hin hstack =>
      refine ⟨fun p hp => ?_, fun p q hp hq heq => ?_⟩
      · obtain ⟨hp, hpz⟩ := (hin p).mp hp
        rw [hmapped, hstack p hpz]
        exact h.mapped p hp
      · obtain ⟨hp, hpz⟩ := (hin p).mp hp
        obtain ⟨hq, hqz⟩ := (hin q).mp hq
        rw [hstack p hpz, hstack q hqz] at heq
        exact h.inj p q hp hq heq

/-- What has leaked stays leaked: a new process gets an area that is not mapped. -/
theorem StackMove.leaked {m : Option Label} {a : Addr} (h : s.Leaked a)
    (hm : StackMove s m s') : s'.Leaked a := by
  obtain ⟨ha, hfree⟩ := h
  cases hm with
  | same hmapped hin hstack =>
      refine ⟨hmapped ▸ ha, fun p hp => ?_⟩
      have hp := (hin p).mp hp
      rw [hstack p hp]
      exact hfree p hp
  | @map z newsp hfresh hmapped hin hne hnew hstack =>
      refine ⟨by rw [hmapped]; exact List.mem_cons_of_mem _ ha, fun p hp => ?_⟩
      rcases (hin p).mp hp with rfl | hp
      · rw [hnew]
        exact fun heq => hfresh (heq ▸ ha)
      · rw [hstack p hp]
        exact hfree p hp
  | drop hl hround hz hmapped hin hstack =>
      refine ⟨hmapped ▸ ha, fun p hp => ?_⟩
      obtain ⟨hp, hpz⟩ := (hin p).mp hp
      rw [hstack p hpz]
      exact hfree p hp

/-! ### Runs without reaping -/

theorem ReapsNobody.sparesSelf (h : Sound s) {l : Label} (hs : step s l = some s')
    (hnone : ReapsNobody s l) : SparesSelf s l := by
  intro hwait hz hself
  obtain ⟨freed, rfl⟩ := hwait
  simp only [step, Option.ite_none_right_eq_some] at hs
  refine hnone freed ?_ s.current ⟨h.base.current, hself, hz⟩
  rw [hs.1]
  exact .first

theorem reach_reapsNobody (h : sched.Reach ReapsNobody s) :
    sched.Reach (fun s l => ReapsNobody s l ∧ SparesSelf s l) s := by
  refine h.invariant (I := fun a => sched.Reach (fun s l => ReapsNobody s l ∧ SparesSelf s l) a)
    .init fun _ ha hok hs => ?_
  have hsound := Sound.of_reach And.right ha
  exact ha.step ⟨hok, hok.sparesSelf hsound hs⟩ hs

theorem Started.stacksExact (h : Started s) : s.StacksExact := by
  intro a
  rw [h.mapped, List.mem_singleton]
  constructor
  · intro ha
    exact ⟨s.current, ⟨0, by simp [schedNproc], by simp [h.procs]⟩, ha.symm⟩
  · intro ha
    obtain ⟨p, hp, rfl⟩ := ha
    rw [h.inTable hp]
    rfl

theorem Started.ownStacks (h : Started s) : OwnStacks s := by
  refine ⟨fun p hp => ?_, fun p q hp hq _ => (h.inTable hp).trans (h.inTable hq).symm⟩
  rw [h.mapped, h.inTable hp]
  exact List.mem_singleton.mpr rfl

theorem stacksExact_of_reach (h : sched.Reach ReapsNobody s) : s.StacksExact := by
  refine invariant_of_moves (I := State.StacksExact) And.right (reach_reapsNobody h)
    Started.stacksExact fun _ hsound ha hok hm => ?_
  exact (hm.stacks hsound).exact ha fun l hl => (hok l hl).1

theorem ownStacks_of_reach (h : sched.Reach SparesSelf s) : OwnStacks s :=
  invariant_of_moves (I := OwnStacks) id h Started.ownStacks
    fun _ hsound ha _ hm => (hm.stacks hsound).own ha

/-! ### The first reaping -/

/-- A round of `sched_wait` that has a zombie child to find reaps one. -/
theorem step_reaps {freed : SchedProc → SchedProc} {l : Label} (hround : WaitRound freed s.frames l)
    {z : Ptr} (hz : s.ZombieChild z) (hs : step s l = some s') :
    ∃ i < schedNproc, ∃ z, s.procs i = some z ∧ s.ZombieChild z ∧
      s' = s.reaped i z (freed (s.heap z)) := by
  obtain ⟨hzin, hparent, hzombie⟩ := hz
  have hcases := waitRound_cases freed s
  have hwait : s' = waitRound freed { s with blocked := true, frames := [] } := by
    generalize hfs : s.frames = fs at hround
    cases hround with
    | first =>
        simp only [step, hfs, if_true, Option.some.injEq] at hs
        rw [← hs]
        unfold schedWait
        dsimp only
        cases hfind : s.sigBlock.findProc fun q => q.ppid = s.sigBlock.cur.pid with
        | none =>
            have htest := findProc_none.mp hfind z hzin
            exact absurd hparent (of_decide_eq_false htest)
        | some found =>
            have hsame : s.sigBlock = { s with blocked := true, frames := [] } := by
              simp [sigBlock, ← hfs]
            rw [← hsame]
    | again =>
        change goStep freed s = some s' at hs
        simp only [goStep, hfs, Option.some.injEq] at hs
        exact hs.symm
  rcases hcases with ⟨i, hi, z', hz', hpar, hzom, heq⟩ | ⟨hnone, -⟩
  · exact ⟨i, hi, z', hz', ⟨⟨i, hi, hz'⟩, hpar, hzom⟩, hwait.trans heq⟩
  · exact absurd hzombie (hnone z hzin hparent)

theorem leaked_of_reaps (h : sched.Reach SparesSelf s) {l : Label} (hs : step s l = some s')
    (hreaps : ¬ ReapsNobody s l) : ∃ a, s'.Leaked a := by
  simp only [ReapsNobody, not_forall, not_not] at hreaps
  obtain ⟨freed, hround, z, hz⟩ := hreaps
  obtain ⟨i, hi, z, hslot, -, rfl⟩ := step_reaps hround hz hs
  have hown := ownStacks_of_reach h
  have hbase := (Sound.of_reach id h).base
  have hzin : s.InTable z := ⟨i, hi, hslot⟩
  refine ⟨(s.heap z).stack, hown.mapped z hzin, fun p hp heq => ?_⟩
  obtain ⟨hp, hpz⟩ := (hbase.reaped_inTable hi hslot).mp hp
  rw [reaped_heap hpz] at heq
  exact hpz (hown.inj p z hp hzin heq)

theorem Leaked.run {a : Addr} (h : sched.Reach SparesSelf s) (hl : s.Leaked a)
    (hrun : sched.Run SparesSelf s t) : t.Leaked a := by
  have hinv : sched.Reach SparesSelf t ∧ t.Leaked a := by
    refine hrun.invariant (I := fun t => sched.Reach SparesSelf t ∧ t.Leaked a) ⟨h, hl⟩ ?_
    intro b l c hb hok hs
    refine ⟨hb.1.step hok hs, ?_⟩
    have hmoves : moves.Run (onCalls SparesSelf) b c := step_run (Sound.of_reach id hb.1) hok hs
    have hboth : Sound c ∧ c.Leaked a := by
      refine hmoves.invariant (I := fun t => Sound t ∧ t.Leaked a)
        ⟨Sound.of_reach id hb.1, hb.2⟩ fun hd hok hm => ?_
      exact ⟨hd.1.move hok hm, (hm.stacks hd.1).leaked hd.2⟩
    exact hboth.2
  exact hinv.2

theorem State.Leaked.not_exact {a : Addr} (h : s.Leaked a) : ¬ s.StacksExact := by
  intro hexact
  obtain ⟨p, hp, heq⟩ := (hexact a).mp h.1
  exact h.2 p hp heq

/-- **When the stacks mapped are those of the processes**: in every state of a run in which
no `sched_wait` finds a zombie child; and after a step in which one does, never again. -/
theorem stacks_released (s : State) : (sched.Reach ReapsNobody s → s.StacksExact) ∧
    ∀ l s', sched.Reach SparesSelf s → SparesSelf s l → step s l = some s' →
      ¬ ReapsNobody s l → ∀ t, sched.Run SparesSelf s' t → ¬ t.StacksExact := by
  refine ⟨stacksExact_of_reach, fun l s' h hself hs hreaps t hrun => ?_⟩
  obtain ⟨a, ha⟩ := leaked_of_reaps h hs hreaps
  exact (Leaked.run (h.step hself hs) ha hrun).not_exact

/-- A check for `ReapsNobody`: no call of `sched_wait`, and no step inside one. -/
def reapsNobody (_ : State) : Label → Bool
  | .wait _ | .go _ => false
  | _ => true

theorem ReapsNobody.of_check {l : Label} (h : reapsNobody s l = true) : ReapsNobody s l := by
  intro freed hround
  generalize s.frames = fs at hround
  cases hround with
  | first => cases h
  | again => cases h

/-- After a fork both stacks are in use; when the child has been reaped its stack is not. -/
theorem stacks_released_child :
    (∃ s : State, s.mapped = [65536, 0] ∧ s.StacksExact) ∧
    ∃ s : State, s.mapped = [65536, 0] ∧ ¬ s.StacksExact := by
  have hfork : ∃ s, sched.Reach ReapsNobody s ∧ (s.mapped = [65536, 0] && !s.blocked) = true :=
    start_reach _ reapsNobody [.fork (some (101, blank)) 65536]
      _ (fun _ _ _ => ReapsNobody.of_check) (by decide +kernel)
  obtain ⟨s, hreach, hs⟩ := hfork
  rw [Bool.and_eq_true, decide_eq_true_eq] at hs
  refine ⟨⟨s, hs.1, (stacks_released s).1 hreach⟩, ?_⟩
  have hreap : ∃ s, sched.Reach SparesSelf s ∧ (s.frames = [.waitBlock] && s.procs 1 = some 101 &&
      (s.heap 101).ppid = s.cur.pid && (s.heap 101).state = .zombie &&
      (step s (.go id)).any fun t => t.mapped = [65536, 0]) = true :=
    start_reach _ (fun s l => decide (Disciplined s l))
      [.fork (some (101, blank)) 65536, .wait id, .go id, .exit 0]
      _ (fun _ _ _ hl => (of_decide_eq_true hl).sparesSelf) (by decide +kernel)
  obtain ⟨s, hreach, hs⟩ := hreap
  simp only [Bool.and_eq_true, decide_eq_true_eq] at hs
  obtain ⟨⟨⟨⟨hframes, hslot⟩, hparent⟩, hzombie⟩, hstep⟩ := hs
  obtain ⟨t, hstep, ht⟩ := (Option.any_eq_true _ _).mp hstep
  have hself : SparesSelf s (.go id) := fun ⟨freed, hl⟩ => by cases hl
  have hreaps : ¬ ReapsNobody s (.go id) := by
    intro hnone
    refine hnone id ?_ 101 ⟨⟨1, by simp [schedNproc], hslot⟩, hparent, hzombie⟩
    rw [hframes]
    exact .again
  exact ⟨t, of_decide_eq_true ht, (stacks_released s).2 _ t hreach hself hstep hreaps t .refl⟩

/-- **A stack that stays mapped.** The initial process creates a child and reaps it. -/
theorem reaped_stack_mapped : ¬ ∀ s, sched.Reach Disciplined s → s.StacksExact := by
  intro hall
  have hrun : ∃ s, sched.Reach Disciplined s ∧ (s.mapped = [65536, 0] &&
      (s.findProc fun r => r.stack = 65536).isNone) = true :=
    start_reach _ (fun s l => decide (Disciplined s l))
      [.fork (some (101, blank)) 65536, .wait id, .go id, .exit 0, .go id]
      _ (fun _ _ _ => of_decide_eq_true) (by decide +kernel)
  obtain ⟨s, hreach, hs⟩ := hrun
  simp only [Bool.and_eq_true, decide_eq_true_eq, Option.isNone_iff_eq_none] at hs
  have hleaked : s.Leaked 65536 := by
    refine ⟨by rw [hs.1]; simp, fun p hp => ?_⟩
    exact of_decide_eq_false (findProc_none.mp hs.2 p hp)
  exact hleaked.not_exact (hall s hreach)

end Ece357.Sched
