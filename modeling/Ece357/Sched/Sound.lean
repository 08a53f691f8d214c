import Ece357.Sched.Moves

/-!
# Ece357.Sched.Sound

The **representation invariant** of the scheduler: pids number the slots, records
in the table are allocated, `current` is one of them, slot 0 holds the initial
process; and every call stack, whether running or saved, has the shape that the
code can build. Every move keeps it, provided no dead task reaps *itself*, which
only the initial process (its own parent) could.

The shape of stacks is what makes a saved context usable: a task that can be
resumed is not inside `sched_exit`, and a dead one is not inside `sched_wait`.
-/

namespace Ece357.Sched

open Ece357.Machine Ece357.ProcTable State

/-! ### Call stacks -/

/-- Inside `sched_wait`. -/
def Frame.isWait : Frame → Bool
  | .waitSwitch | .waitBlock => true
  | _ => false

/-- Inside `sched_exit`. -/
def Frame.isExit : Frame → Bool
  | .exitSwitch | .exitReturn => true
  | _ => false

/-- Above the first call there are only handlers: a task in a handler makes no calls. -/
inductive Shape : List Frame → Prop
  | nil : Shape []
  | base (f : Frame) : Shape [f]
  | tick {fs : List Frame} (h : Shape fs) : Shape (.tickReturn :: fs)

theorem Shape.tail {f : Frame} {fs : List Frame} (h : Shape (f :: fs)) : Shape fs := by
  cases h with
  | base => exact .nil
  | tick h => exact h

theorem Shape.tail_nil {f : Frame} {fs : List Frame} (h : Shape (f :: fs))
    (hf : f ≠ .tickReturn) : fs = [] := by
  cases h with
  | base => rfl
  | tick => exact absurd rfl hf

/-- The call stack `fs` fits a task in state `st`. -/
structure Fits (fs : List Frame) (st : Status) : Prop where
  shape : Shape fs
  dead : st = .zombie → fs.any Frame.isWait = false
  alive : st ≠ .zombie → fs.any Frame.isExit = false

theorem Fits.nil (st : Status) : Fits [] st := ⟨.nil, fun _ => rfl, fun _ => rfl⟩

/-- Only being a ZOMBIE or not matters. -/
theorem Fits.congr {fs : List Frame} {st st' : Status} (h : Fits fs st)
    (hiff : st' = .zombie ↔ st = .zombie) : Fits fs st' :=
  ⟨h.shape, fun hz => h.dead (hiff.mp hz), fun hz => h.alive fun hst => hz (hiff.mpr hst)⟩

theorem Fits.not_exitReturn {fs : List Frame} {st : Status} (h : Fits fs st)
    (hst : st ≠ .zombie) : Frame.exitReturn ∉ fs := by
  intro hmem
  have hexit := List.any_eq_false.mp (h.alive hst) _ hmem
  exact hexit rfl

theorem FrameMove.any_isWait {fs fs' : List Frame} (h : FrameMove fs fs') :
    fs'.any Frame.isWait = fs.any Frame.isWait := by
  cases h <;> simp [Frame.isWait]

theorem FrameMove.fits {fs fs' : List Frame} {st : Status} (h : FrameMove fs fs')
    (hfits : Fits fs st) : Fits fs' st := by
  have hdead : st = .zombie → fs'.any Frame.isWait = false := fun hz =>
    h.any_isWait.trans (hfits.dead hz)
  have hshape := hfits.shape
  have halive := hfits.alive
  cases h with
  | same => exact hfits
  | push => exact ⟨hshape.tick, hdead, fun hz => by simpa [Frame.isExit] using halive hz⟩
  | pop => exact ⟨hshape.tail, hdead, fun hz => by simpa [Frame.isExit] using halive hz⟩
  | waitGo =>
      obtain rfl := hshape.tail_nil (by simp)
      exact ⟨.base _, hdead, fun _ => rfl⟩
  | exitGo =>
      obtain rfl := hshape.tail_nil (by simp)
      exact ⟨.base _, hdead, fun hz => absurd (halive hz) (by simp [Frame.isExit])⟩
  | exitPop => exact ⟨hshape.tail, hdead, fun hz => absurd (halive hz) (by simp [Frame.isExit])⟩

/-! ### The table -/

/-- Pids number the slots, and records in the table are allocated. -/
structure Placed (s : State) : Prop where
  pid : ∀ i < schedNproc, ∀ p, s.procs i = some p → (s.heap p).pid = i + 1
  live : ∀ p, s.InTable p → s.live p = true

theorem Placed.pid_inj {s : State} (h : Placed s) {p q : Ptr} (hp : s.InTable p) (hq : s.InTable q)
    (hpid : (s.heap p).pid = (s.heap q).pid) : p = q := by
  obtain ⟨i, hi, hpi⟩ := hp
  obtain ⟨j, hj, hqj⟩ := hq
  have hpn := h.pid i hi p hpi
  have hqn := h.pid j hj q hqj
  obtain rfl : i = j := by omega
  exact Option.some.inj (hpi.symm.trans hqj)

theorem Placed.slot_inj {s : State} (h : Placed s) {p : Ptr} {i j : Nat} (hi : i < schedNproc)
    (hj : j < schedNproc) (hpi : s.procs i = some p) (hpj : s.procs j = some p) : i = j := by
  have hpn := h.pid i hi p hpi
  have hqn := h.pid j hj p hpj
  omega

theorem Placed.ne_of_free {s : State} (h : Placed s) {p z : Ptr} (hp : s.InTable p)
    (hz : s.live z = false) : p ≠ z := by
  intro hpz
  have hlive := h.live p hp
  rw [hpz, hz] at hlive
  cases hlive

/-- The process table is well formed. -/
structure Base (s : State) : Prop where
  pid : ∀ i < schedNproc, ∀ p, s.procs i = some p → (s.heap p).pid = i + 1
  live : ∀ p, s.InTable p → s.live p = true
  current : s.InTable s.current
  root : ∃ r, s.procs 0 = some r ∧ (s.heap r).ppid = 1

theorem Base.placed {s : State} (h : Base s) : Placed s := ⟨h.pid, h.live⟩

theorem Base.pid_inj {s : State} (h : Base s) {p q : Ptr} (hp : s.InTable p) (hq : s.InTable q)
    (hpid : (s.heap p).pid = (s.heap q).pid) : p = q := h.placed.pid_inj hp hq hpid

theorem Base.slot_inj {s : State} (h : Base s) {p : Ptr} {i j : Nat} (hi : i < schedNproc)
    (hj : j < schedNproc) (hpi : s.procs i = some p) (hpj : s.procs j = some p) : i = j :=
  h.placed.slot_inj hi hj hpi hpj

theorem Base.root_eq {s : State} (h : Base s) {p : Ptr} (hp : s.InTable p)
    (hpid : (s.heap p).pid = 1) : s.procs 0 = some p ∧ (s.heap p).ppid = 1 := by
  obtain ⟨r, hr, hppid⟩ := h.root
  have hpos : 0 < schedNproc := by simp [schedNproc]
  have hrpid := h.pid 0 hpos r hr
  obtain rfl : p = r := h.pid_inj hp ⟨0, hpos, hr⟩ (by omega)
  exact ⟨hr, hppid⟩

/-- The initial process is nobody's child but its own. -/
theorem Base.child_pid {s : State} (h : Base s) {z : Ptr} (hz : s.InTable z)
    (hne : z ≠ s.current) (hparent : (s.heap z).ppid = s.cur.pid) : (s.heap z).pid ≠ 1 := by
  intro hpid
  obtain ⟨-, hppid⟩ := h.root_eq hz hpid
  refine hne (h.pid_inj hz h.current ?_)
  show _ = s.cur.pid
  omega

/-- Changes that leave the slots alone, and the numbers in the records. -/
theorem Base.keep {s s' : State} (h : Base s) (hprocs : s'.procs = s.procs)
    (hlive : s'.live = s.live)
    (hrec : ∀ p, s.InTable p →
      (s'.heap p).pid = (s.heap p).pid ∧ (s'.heap p).ppid = (s.heap p).ppid)
    (hcur : s.InTable s'.current) : Base s' := by
  obtain ⟨r, hr, hroot⟩ := h.root
  refine ⟨fun i hi p hp => ?_, fun p hp => ?_, ?_, r, ?_, ?_⟩
  · rw [hprocs] at hp
    rw [(hrec p ⟨i, hi, hp⟩).1]
    exact h.pid i hi p hp
  · rw [hlive]
    exact h.live p ((inTable_congr hprocs p).mp hp)
  · exact (inTable_congr hprocs _).mpr hcur
  · rw [hprocs]
    exact hr
  · rw [(hrec r ⟨0, by simp [schedNproc], hr⟩).2]
    exact hroot

/-- The representation invariant. -/
structure Sound (s : State) : Prop where
  base : Base s
  cur : Fits s.frames s.cur.state
  ctx : ∀ p, s.InTable p → p ≠ s.current → (s.heap p).state ≠ .zombie →
    Fits (s.heap p).ctx.frames (s.heap p).state

/-! ### Every move keeps the invariant -/

/-- No dead task calls `sched_wait` as its own child. -/
def SparesSelf (s : State) (l : Label) : Prop :=
  (∃ freed, l = .wait freed) → s.cur.state = .zombie → s.cur.ppid ≠ s.cur.pid

variable {s s' : State}

theorem Sound.quiet (h : Sound s) {new : List Event} (hq : Quiet s new s') : Sound s' := by
  have hcur : Same s.cur s'.cur := by
    unfold State.cur
    rw [hq.current]
    exact hq.record _ h.base.current
  refine ⟨h.base.keep hq.procs hq.live (fun p hp => ?_) (hq.current ▸ h.base.current), ?_,
    fun p hp hne hst => ?_⟩
  · have hsame := hq.record p hp
    exact ⟨hsame.pid, hsame.ppid⟩
  · rw [hcur.state]
    exact hq.frames.fits h.cur
  · rw [inTable_congr hq.procs] at hp
    have hsame := hq.record p hp
    rw [hq.current] at hne
    rw [hsame.state] at hst
    rw [hsame.state, hsame.ctx]
    exact h.ctx p hp hne hst

/-- Control passes to `q`, once every record in the table that is not dead, the one
left included, holds a context to come back to. -/
theorem Sound.resume (h : Base s) {by_ q : Ptr} (hq : s.InTable q)
    (hctx : ∀ p, s.InTable p → (s.heap p).state ≠ .zombie →
      Fits (s.heap p).ctx.frames (s.heap p).state)
    (hst : (s.heap q).state ≠ .zombie) : Sound (Sched.resume s by_ q) := by
  rw [resume_eq]
  refine ⟨h.keep rfl rfl (fun p hp => ?_) hq, ?_, fun p hp hne hz => ?_⟩
  · by_cases hpq : p = q
    · subst hpq
      simp
    · simp [hpq]
  · have hfits : Fits (s.heap q).ctx.frames .running := (hctx q hq hst).congr (by simp [hst])
    simpa [State.cur] using hfits
  · have hpq : p ≠ q := hne
    simp only [Function.update_of_ne hpq] at hz ⊢
    exact hctx p hp hz

theorem Base.ne_of_free (h : Base s) {p z : Ptr} (hp : s.InTable p) (hz : s.live z = false) :
    p ≠ z := h.placed.ne_of_free hp hz

theorem forked_inTable {z p : Ptr} {content : SchedProc} {i : Nat} {newsp : Addr}
    (hi : i < schedNproc) (hfree : s.procs i = none) :
    (s.forked z content i newsp).InTable p ↔ p = z ∨ s.InTable p := by
  constructor
  · intro hp
    obtain ⟨j, hj, hp⟩ := hp
    rcases (forked_slot hfree).mp hp with ⟨-, hpz⟩ | hp
    · exact .inl hpz
    · exact .inr ⟨j, hj, hp⟩
  · intro hp
    rcases hp with rfl | ⟨j, hj, hp⟩
    · exact ⟨i, hi, (forked_slot hfree).mpr (.inl ⟨rfl, rfl⟩)⟩
    · exact ⟨j, hj, (forked_slot hfree).mpr (.inr hp)⟩

theorem Placed.reaped_slot_ne (h : Placed s) {z p : Ptr} {gone : SchedProc} {i j : Nat}
    (hi : i < schedNproc) (hz : s.procs i = some z) (hj : j < schedNproc)
    (hp : (s.reaped i z gone).procs j = some p) : s.procs j = some p ∧ p ≠ z := by
  obtain ⟨hji, hpj⟩ := reaped_slot.mp hp
  exact ⟨hpj, fun hpz => hji (h.slot_inj hj hi (hpz ▸ hpj) hz)⟩

theorem Base.reaped_slot_ne (h : Base s) {z p : Ptr} {gone : SchedProc} {i j : Nat}
    (hi : i < schedNproc) (hz : s.procs i = some z) (hj : j < schedNproc)
    (hp : (s.reaped i z gone).procs j = some p) : s.procs j = some p ∧ p ≠ z :=
  h.placed.reaped_slot_ne hi hz hj hp

theorem Base.reaped_inTable (h : Base s) {z p : Ptr} {gone : SchedProc} {i : Nat}
    (hi : i < schedNproc) (hz : s.procs i = some z) :
    (s.reaped i z gone).InTable p ↔ s.InTable p ∧ p ≠ z := by
  constructor
  · intro hp
    obtain ⟨j, hj, hp⟩ := hp
    obtain ⟨hpj, hpz⟩ := h.reaped_slot_ne hi hz hj hp
    exact ⟨⟨j, hj, hpj⟩, hpz⟩
  · intro hp
    obtain ⟨⟨j, hj, hp⟩, hne⟩ := hp
    refine ⟨j, hj, reaped_slot.mpr ⟨fun hji => hne ?_, hp⟩⟩
    subst hji
    exact Option.some.inj (hp.symm.trans hz)

/-- A record in the table was there before the move, or the move is the `fork` that made it. -/
theorem Move.inTable {m : Option Label} (hm : Move s m s') {p : Ptr} (hp : s'.InTable p) :
    s.InTable p ∨
      ∃ content i newsp, i < schedNproc ∧ s.procs i = none ∧ s' = s.forked p content i newsp := by
  have hsame : s'.procs = s.procs → s.InTable p := fun h => (inTable_congr h p).mp hp
  cases hm with
  | quiet hq | forkFail hq | noChild hq | exitReturn hq => exact .inl (hsame hq.procs)
  | @fork z content newsp i hcall hi hfree hlow hz =>
      rcases (forked_inTable hi hfree).mp hp with rfl | hold
      · exact .inr ⟨content, i, newsp, hi, hfree, rfl⟩
      · exact .inl hold
  | exit | sleep | yield => exact .inl (hsame rfl)
  | exitWake | dispatch => exact .inl (hsame (resume_procs _ _ _))
  | reap =>
      obtain ⟨j, hj, hp⟩ := hp
      exact .inl ⟨j, hj, (reaped_slot.mp hp).2⟩

/-- The numbers that name the process and its parent. -/
def SchedProc.numbers (r : SchedProc) : Int × Int := (r.pid, r.ppid)

/-- A record that stays in the table keeps its numbers. -/
theorem Move.numbers (h : Base s) {m : Option Label} (hm : Move s m s') {p : Ptr}
    (hp : s.InTable p) (hp' : s'.InTable p) : (s'.heap p).numbers = (s.heap p).numbers := by
  have hquiet : ∀ {new}, Quiet s new s' → (s'.heap p).numbers = (s.heap p).numbers := fun hq =>
    Prod.ext (hq.record p hp).pid (hq.record p hp).ppid
  cases hm with
  | quiet hq | forkFail hq | noChild hq | exitReturn hq => exact hquiet hq
  | fork hcall hi hfree hlow hz => rw [forked_heap (h.ne_of_free hp hz)]
  | exit => exact exited_field SchedProc.numbers s (fun _ => rfl) p
  | exitWake =>
      rw [resume_field SchedProc.numbers _ fun _ => rfl]
      exact exited_field SchedProc.numbers s (fun _ => rfl) p
  | reap hround hi hz => rw [reaped_heap ((h.reaped_inTable hi hz).mp hp').2]
  | sleep => exact slept_field SchedProc.numbers s (fun _ => rfl) p
  | yield => exact yielded_field SchedProc.numbers s (fun _ => rfl) p
  | dispatch =>
      rw [resume_field SchedProc.numbers _ fun _ => rfl]
      exact savectx_field SchedProc.numbers s (fun _ => rfl) p

/-- A task takes a child out of the table. -/
theorem Sound.reap (h : Sound s) {i : Nat} {z : Ptr} {gone : SchedProc} (hi : i < schedNproc)
    (hz : s.procs i = some z) (hne : z ≠ s.current) (hparent : (s.heap z).ppid = s.cur.pid) :
    Sound (s.reaped i z gone) := by
  obtain ⟨r, hr, hroot⟩ := h.base.root
  have hrz : r ≠ z := by
    intro hrz
    subst hrz
    refine h.base.child_pid ⟨i, hi, hz⟩ hne hparent ?_
    exact h.base.pid 0 (by simp [schedNproc]) r hr
  refine ⟨⟨fun j hj p hp => ?_, fun p hp => ?_, ?_, r, ?_, ?_⟩, ?_, fun p hp hnp hst => ?_⟩
  · obtain ⟨hpj, hpz⟩ := h.base.reaped_slot_ne hi hz hj hp
    rw [reaped_heap hpz]
    exact h.base.pid j hj p hpj
  · obtain ⟨hp, hpz⟩ := (h.base.reaped_inTable hi hz).mp hp
    simp only [reaped, Function.update_of_ne hpz]
    exact h.base.live p hp
  · exact (h.base.reaped_inTable hi hz).mpr ⟨h.base.current, hne.symm⟩
  · refine reaped_slot.mpr ⟨fun hi0 => hrz ?_, hr⟩
    subst hi0
    exact Option.some.inj (hr.symm.trans hz)
  · rw [reaped_heap hrz]
    exact hroot
  · exact Fits.nil _
  · obtain ⟨hp, hpz⟩ := (h.base.reaped_inTable hi hz).mp hp
    rw [reaped_heap hpz] at hst ⊢
    exact h.ctx p hp hnp hst

/-- A new record goes into a free slot. -/
theorem Sound.fork (h : Sound s) {z : Ptr} {content : SchedProc} {i : Nat} {newsp : Addr}
    (hcall : s.frames = []) (hfree : s.procs i = none) (hz : s.live z = false) :
    Sound (s.forked z content i newsp) := by
  have hnew := fun {p} (hp : s.InTable p) => h.base.ne_of_free hp hz
  obtain ⟨c, hc, hcur⟩ := h.base.current
  obtain ⟨r, hr, hroot⟩ := h.base.root
  have hrin : s.InTable r := ⟨0, by simp [schedNproc], hr⟩
  refine ⟨⟨fun j hj p hp => ?_, fun p hp => ?_, ⟨c, hc, (forked_slot hfree).mpr (.inr hcur)⟩, r,
    (forked_slot hfree).mpr (.inr hr), ?_⟩, ?_, fun p hp hnp hst => ?_⟩
  · rcases (forked_slot hfree).mp hp with ⟨rfl, rfl⟩ | hpj
    · simp [forked, newRecord]
    · rw [forked_heap (hnew ⟨j, hj, hpj⟩)]
      exact h.base.pid j hj p hpj
  · obtain ⟨j, hj, hp⟩ := hp
    rcases (forked_slot hfree).mp hp with ⟨-, rfl⟩ | hpj
    · simp [forked]
    · have hpin : s.InTable p := ⟨j, hj, hpj⟩
      simp only [forked, Function.update_of_ne (hnew hpin)]
      exact h.base.live p hpin
  · rw [forked_heap (hnew hrin)]
    exact hroot
  · show Fits s.frames _
    rw [hcall]
    exact Fits.nil _
  · obtain ⟨j, hj, hp⟩ := hp
    rcases (forked_slot hfree).mp hp with ⟨-, rfl⟩ | hpj
    · simp only [forked, Function.update_self, newRecord, hcall]
      exact Fits.nil _
    · have hpin : s.InTable p := ⟨j, hj, hpj⟩
      rw [forked_heap (hnew hpin)] at hst ⊢
      exact h.ctx p hpin hnp hst

/-- The current task's record changes, its numbers apart. -/
theorem Sound.set_cur (h : Sound s) {r : SchedProc} (hprocs : s'.procs = s.procs)
    (hlive : s'.live = s.live) (hcur : s'.current = s.current)
    (hheap : s'.heap = Function.update s.heap s.current r) (hpid : r.pid = s.cur.pid)
    (hppid : r.ppid = s.cur.ppid) (hfits : Fits s'.frames r.state) : Sound s' := by
  refine ⟨h.base.keep hprocs hlive (fun p hp => ?_) (hcur ▸ h.base.current), ?_,
    fun p hp hne hst => ?_⟩
  · by_cases hpc : p = s.current
    · subst hpc
      simpa [hheap] using ⟨hpid, hppid⟩
    · simp [hheap, hpc]
  · have hself : s'.cur = r := by simp [State.cur, hheap, hcur]
    rw [hself]
    exact hfits
  · rw [hcur] at hne
    rw [inTable_congr hprocs] at hp
    rw [hheap, Function.update_of_ne hne] at hst ⊢
    exact h.ctx p hp hne hst

theorem WaitRound.frames {freed : SchedProc → SchedProc} {fs : List Frame} {l : Label}
    (h : WaitRound freed fs l) : fs = [] ∨ fs = [.waitBlock] := by
  cases h with
  | first => exact .inl rfl
  | again => exact .inr rfl

/-- A task inside `sched_wait` is alive, if the one that called it was. -/
theorem Sound.wait_alive (h : Sound s) {freed : SchedProc → SchedProc} {l : Label}
    (hround : WaitRound freed s.frames l) (hlive : Disciplined s l) : s.cur.state ≠ .zombie := by
  intro hz
  have hdead := h.cur.dead hz
  generalize hfs : s.frames = fs at hround
  cases hround with
  | first => exact hlive rfl hz
  | again => simp [hfs, Frame.isWait] at hdead

/-- Who reaps does not reap itself. -/
theorem Sound.reap_ne (h : Sound s) {freed : SchedProc → SchedProc} {l : Label}
    (hround : WaitRound freed s.frames l) (hself : SparesSelf s l) {z : Ptr}
    (hparent : (s.heap z).ppid = s.cur.pid) (hzombie : (s.heap z).state = .zombie) :
    z ≠ s.current := by
  intro hzc
  subst hzc
  have hdead := h.cur.dead hzombie
  generalize hfs : s.frames = fs at hround
  cases hround with
  | first => exact hself ⟨freed, rfl⟩ hzombie hparent
  | again => rw [hfs] at hdead; simp [Frame.isWait] at hdead

/-- **The invariant rule.** -/
theorem Sound.move (h : Sound s) {m : Option Label} (hself : onCalls SparesSelf s m)
    (hm : Move s m s') : Sound s' := by
  cases hm with
  | quiet hq => exact h.quiet hq
  | forkFail hq => exact h.quiet hq
  | noChild hq => exact h.quiet hq
  | exitReturn hq => exact h.quiet hq
  | fork hcall hi hfree hlow hz => exact h.fork hcall hfree hz
  | exit =>
      exact h.set_cur (r := { s.cur with state := .zombie, exitCode := _ }) rfl rfl rfl rfl rfl rfl
        ⟨.base _, fun _ => rfl, fun hz => absurd rfl hz⟩
  | @exitWake code q hcall hq hne hparent hasleep =>
      have hdead : Sound (s.exited code) :=
        h.set_cur (r := { s.cur with state := .zombie, exitCode := code }) rfl rfl rfl rfl rfl rfl
          (by show Fits s.frames _; rw [hcall]; exact Fits.nil _)
      refine Sound.resume hdead.base hq (fun p hp hst => ?_) ?_
      · -- The task left behind is dead, so nobody will come back to it.
        refine hdead.ctx p hp (fun hpc => hst ?_) hst
        subst hpc
        simp [exited, State.modify, State.log]
      · simp [exited, State.modify, State.log, hne, hasleep]
  | reap hround hi hz hparent hzombie =>
      exact h.reap hi hz (h.reap_ne hround (hself _ rfl) hparent hzombie) hparent
  | sleep =>
      exact h.set_cur (r := { s.cur with state := .sleeping }) rfl rfl rfl rfl rfl rfl
        ⟨.base _, (fun hz => by cases hz), fun _ => rfl⟩
  | yield =>
      refine h.set_cur (r := { s.cur with state := Table.leave s.cur.state })
        rfl rfl rfl rfl rfl rfl (h.cur.congr ?_)
      show Table.leave s.cur.state = .zombie ↔ _
      cases s.cur.state <;> simp [Table.leave]
  | @dispatch q hq hne hready hcur =>
      have hsaved : Base (savectx s s.current .switch) := by
        refine h.base.keep rfl rfl (fun p hp => ?_) h.base.current
        by_cases hpc : p = s.current
        · subst hpc
          simp [savectx, State.modify, State.log]
        · simp [savectx, State.modify, State.log, hpc]
      -- the task left holds the context it has just saved
      refine Sound.resume hsaved hq (fun p hp hst => ?_) ?_
      · by_cases hpc : p = s.current
        · subst hpc
          simpa [savectx, State.modify, State.log, State.cur] using h.cur
        · simp only [savectx, State.modify, State.log, Function.update_of_ne hpc] at hst ⊢
          exact h.ctx p hp hpc hst
      · simp [savectx, State.modify, State.log, hne, hready]

end Ece357.Sched
