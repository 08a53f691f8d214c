import Ece357.Machine.History
import Ece357.Sched.Steps

/-!
# Ece357.Sched.Records

**What a step does to the table, in every run.** The moves of `Sched.Moves` start from states
in which the current task is in the table, and a dead task that reaps its own record leaves
that behind. What still holds there is little: records stand in the slots of their numbers
and are not freed (`Placed`). But it is enough to say of every step whose record comes into
the table, whose goes, and who dies (`Passing`, `step_passing`); all other records keep their
slots, and the dead keep their exit codes (`Spares`).
-/

namespace Ece357.Sched

open Ece357.Machine Ece357.ProcTable State

variable {s s' s'' : State}

/-- The event begins or ends something in the life of the task with the record at `p`. -/
def Event.marks (p : Ptr) : Event → Prop
  | .forked _ q => q = p
  | .exited q _ => q = p
  | .reaped _ q => q = p
  | _ => False

/-! ### Steps that leave the table alone -/

/-- The slots and the numbers stay, nobody dies, and the dead keep their codes. -/
structure Spares (s s' : State) : Prop where
  procs : s'.procs = s.procs
  live : s'.live = s.live
  pid : ∀ p, s.InTable p → (s'.heap p).pid = (s.heap p).pid
  dead : ∀ p, s.InTable p → (s'.heap p).state = .zombie →
    (s.heap p).state = .zombie ∧ (s'.heap p).exitCode = (s.heap p).exitCode
  trace : ∃ new, s'.trace = new ++ s.trace ∧ ∀ e ∈ new, ∀ p, ¬ e.marks p

theorem Spares.trans (h : Spares s s') (h' : Spares s' s'') : Spares s s'' := by
  have hin : ∀ p, s.InTable p → s'.InTable p := fun p => (inTable_congr h.procs p).mpr
  obtain ⟨new, htrace, hnew⟩ := h.trace
  obtain ⟨new', htrace', hnew'⟩ := h'.trace
  refine ⟨h'.procs.trans h.procs, h'.live.trans h.live, fun p hp => ?_, fun p hp hz => ?_,
    new' ++ new, ?_, fun e he => ?_⟩
  · rw [h'.pid p (hin p hp), h.pid p hp]
  · obtain ⟨hz', hcode'⟩ := h'.dead p (hin p hp) hz
    obtain ⟨hz₀, hcode⟩ := h.dead p hp hz'
    exact ⟨hz₀, hcode'.trans hcode⟩
  · rw [htrace', htrace, List.append_assoc]
  · rcases List.mem_append.mp he with he | he
    · exact hnew' e he
    · exact hnew e he

/-- A store into one record that makes nobody dead. -/
theorem Spares.store {p : Ptr} {r : SchedProc} (hprocs : s'.procs = s.procs)
    (hlive : s'.live = s.live) (hheap : s'.heap = Function.update s.heap p r)
    (hpid : r.pid = (s.heap p).pid)
    (hdead : r.state = .zombie → (s.heap p).state = .zombie ∧ r.exitCode = (s.heap p).exitCode)
    (new : List Event) (htrace : s'.trace = new ++ s.trace) (hnew : ∀ e ∈ new, ∀ p, ¬ e.marks p) :
    Spares s s' := by
  refine ⟨hprocs, hlive, fun q _ => ?_, fun q _ hz => ?_, new, htrace, hnew⟩
  · by_cases hq : q = p
    · subst hq
      simp [hheap, hpid]
    · simp [hheap, hq]
  · by_cases hq : q = p
    · subst hq
      simp only [hheap, Function.update_self] at hz ⊢
      exact hdead hz
    · simp only [hheap, Function.update_of_ne hq] at hz ⊢
      exact ⟨hz, trivial⟩

/-- Stacks, masks and `current` do not matter. -/
theorem Spares.of_eq (hprocs : s'.procs = s.procs) (hlive : s'.live = s.live)
    (hheap : s'.heap = s.heap) (new : List Event) (htrace : s'.trace = new ++ s.trace)
    (hnew : ∀ e ∈ new, ∀ p, ¬ e.marks p) : Spares s s' := by
  refine ⟨hprocs, hlive, fun p _ => by rw [hheap], fun p _ hz => ?_, new, htrace, hnew⟩
  rw [hheap] at hz ⊢
  exact ⟨hz, rfl⟩

theorem Quiet.spares {new : List Event} (h : Quiet s new s') (hnew : ∀ e ∈ new, ∀ p, ¬ e.marks p) :
    Spares s s' := by
  refine ⟨h.procs, h.live, fun p hp => (h.record p hp).pid, fun p hp hz => ?_, new, h.trace, hnew⟩
  have hsame := h.record p hp
  exact ⟨hsame.state ▸ hz, hsame.exitCode⟩

theorem resume_spares (s : State) (by_ q : Ptr) : Spares s (resume s by_ q) := by
  have htrace : (resume s by_ q).trace =
      (resumption q (s.heap q).ctx ++ [.restored by_ q (s.heap q).ctx]) ++ s.trace :=
    resume_trace_append by_ q (List.nil_append _).symm
  have hheap : (resume s by_ q).heap =
      Function.update s.heap q { s.heap q with state := .running } := by rw [resume_eq]
  refine .store (by rw [resume_eq]) (by rw [resume_eq]) hheap rfl (by simp) _ htrace ?_
  exact forall_resume (fun _ => id) (fun _ => id) (by simp)

theorem selecting_spares (s : State) : Spares s (selecting s) := by
  refine ⟨rfl, rfl, fun p hp => ?_, fun p hp hz => ?_, [], rfl, by simp⟩
  · rw [(selecting_inTable hp).1.pid, yielded_field SchedProc.pid s fun _ => rfl]
  · have hsame := (selecting_inTable hp).1
    rw [hsame.state] at hz
    refine ⟨?_, hsame.exitCode.trans (yielded_field SchedProc.exitCode s (fun _ => rfl) p)⟩
    by_cases hpc : p = s.current
    · subst hpc
      simp only [yielded, State.modify, Function.update_self] at hz
      -- `Table.leave` makes nobody dead
      cases hst : (s.heap s.current).state <;> simp [hst, Table.leave] at hz ⊢
    · simpa [yielded, State.modify, hpc] using hz

theorem schedSwitch_spares (s : State) : Spares s (schedSwitch s) := by
  rcases schedSwitch_spec s with ⟨heq, -⟩ | ⟨i, q, -, -, heq⟩
  · rw [heq]
    exact selecting_spares s
  · rw [heq]
    refine (selecting_spares s).trans ?_
    split_ifs
    · exact .store rfl rfl rfl rfl (by simp) [] rfl (by simp)
    · have hsaved : Spares (selecting s) (savectx (selecting s) s.current .switch) :=
        .store rfl rfl rfl rfl (fun hz => ⟨hz, rfl⟩) [_] rfl (by simp [Event.marks])
      exact hsaved.trans (resume_spares _ _ _)

/-! ### Every step -/

/-- What a step does to the table: nothing, or somebody dies, is forked, or is reaped. -/
inductive Passing (s : State) : Label → State → Prop
  | spares {l s'} (h : Spares s s') : Passing s l s'
  | dies {code s'} (h : Spares (s.exited code) s') : Passing s (.exit code) s'
  | forks {mem newsp z content i} (hi : i < schedNproc) (hfree : s.procs i = none)
      (hz : s.live z = false) : Passing s (.fork mem newsp) { s.forked z content i newsp with
        heap := Function.update s.heap z (newRecord (s.malloc z content) content i newsp) }
  | reaps {l freed i z s'} (hl : l = .wait freed ∨ l = .go freed) (hi : i < schedNproc)
      (hz : s.procs i = some z) (hzombie : (s.heap z).state = .zombie)
      (h : Spares (s.reaped i z (freed (s.heap z))) s') : Passing s l s'

/-- A round of `sched_wait` in a state with the table and the past of `s`. -/
theorem waitRound_passing {u : State} {freed : SchedProc → SchedProc} {l : Label}
    (hl : l = .wait freed ∨ l = .go freed)
    (hu : u = { s with blocked := u.blocked, frames := u.frames }) :
    Passing s l (waitRound freed u) := by
  rcases waitRound_spec freed u with ⟨i, hi, z, hz, -, hzombie, heq⟩ | ⟨-, heq⟩
  · rw [heq]
    rw [hu] at hz hzombie ⊢
    exact .reaps hl hi hz hzombie (.of_eq rfl rfl rfl [] rfl (by simp))
  · rw [heq, hu]
    exact .spares (.store rfl rfl rfl rfl (by simp) [] rfl (by simp))

theorem schedWait_passing (freed : SchedProc → SchedProc) :
    Passing s (.wait freed) (schedWait freed s) := by
  unfold schedWait
  dsimp only
  split
  · exact .spares (.of_eq rfl rfl rfl [_] rfl (by simp [Event.marks]))
  · exact waitRound_passing (.inl rfl) rfl

theorem step_passing (h : Placed s) {l : Label} (hs : step s l = some s') : Passing s l s' := by
  cases hu : entersSwitch s l with
  | some u =>
      rw [step_enters hu hs]
      exact .spares (((entersSwitch_quiet hu).spares (by simp)).trans (schedSwitch_spares u))
  | none =>
      cases step_direct hu hs with
      | fork _ hok hs =>
          rcases schedFork_spec h hok hs with ⟨-, hq⟩ | ⟨z, content, i, -, hi, hfree, -, hz, -, rfl⟩
          · exact .spares (hq.spares (by simp [Event.marks]))
          · exact .forks hi hfree hz
      | exit _ code =>
          -- the switch to a sleeping parent, if there is one, comes after the death
          rcases schedExit_cases s code with ⟨heq, -⟩ | ⟨i, q, -, heq⟩
          · rw [heq]
            exact .dies (.of_eq rfl rfl rfl [] rfl (by simp))
          · rw [heq]
            exact .dies (resume_spares _ _ _)
      | wait _ freed => exact schedWait_passing freed
      | nice _ niceval =>
          exact .spares (.store rfl rfl rfl rfl (fun hz => ⟨hz, rfl⟩) [] rfl (by simp))
      | waitAgain _ freed => exact waitRound_passing (.inr rfl) rfl
      | exitReturn _ freed =>
          exact .spares (.of_eq rfl rfl rfl [_] rfl (by simp [Event.marks]))
      | tickReturn _ freed => exact .spares (.of_eq rfl rfl rfl [] rfl (by simp))

/-! ### Records stay in their places -/

theorem Placed.spares (h : Placed s) (hs : Spares s s') : Placed s' := by
  refine ⟨fun i hi p hp => ?_, fun p hp => ?_⟩
  · rw [hs.procs] at hp
    rw [hs.pid p ⟨i, hi, hp⟩]
    exact h.pid i hi p hp
  · rw [hs.live]
    exact h.live p ((inTable_congr hs.procs p).mp hp)

theorem Placed.exited (h : Placed s) (code : Int) : Placed (s.exited code) := by
  refine ⟨fun i hi p hp => ?_, h.live⟩
  rw [exited_field SchedProc.pid s fun _ => rfl]
  exact h.pid i hi p hp

/-- A new record is put into the slot of its number. -/
theorem Placed.fork (h : Placed s) {z : Ptr} {content r : SchedProc} {i : Nat} {newsp : Addr}
    (hi : i < schedNproc) (hfree : s.procs i = none) (hz : s.live z = false)
    (hpid : r.pid = i + 1) :
    Placed { s.forked z content i newsp with heap := Function.update s.heap z r } := by
  have hne : ∀ p, s.InTable p → p ≠ z := fun p hp => h.ne_of_free hp hz
  refine ⟨fun j hj p hp => ?_, fun p hp => ?_⟩
  · have hslot : (s.forked z content i newsp).procs j = some p := hp
    rcases (forked_slot hfree).mp hslot with ⟨rfl, rfl⟩ | hpj
    · simpa using hpid
    · simp only [Function.update_of_ne (hne p ⟨j, hj, hpj⟩)]
      exact h.pid j hj p hpj
  · have hin : (s.forked z content i newsp).InTable p := hp
    rcases (forked_inTable hi hfree).mp hin with rfl | hold
    · simp [forked]
    · simp only [forked, Function.update_of_ne (hne p hold)]
      exact h.live p hold

/-- What is reaped is gone from the table; the others are not touched. -/
theorem Placed.reap (h : Placed s) {z : Ptr} {gone : SchedProc} {i : Nat} (hi : i < schedNproc)
    (hz : s.procs i = some z) : Placed (s.reaped i z gone) := by
  refine ⟨fun j hj p hp => ?_, fun p hp => ?_⟩
  · obtain ⟨hpj, hpz⟩ := h.reaped_slot_ne hi hz hj hp
    rw [reaped_heap hpz]
    exact h.pid j hj p hpj
  · obtain ⟨j, hj, hp⟩ := hp
    obtain ⟨hpj, hpz⟩ := h.reaped_slot_ne hi hz hj hp
    simp only [reaped, Function.update_of_ne hpz]
    exact h.live p ⟨j, hj, hpj⟩

theorem Placed.passing (h : Placed s) {l : Label} (hp : Passing s l s') : Placed s' := by
  cases hp with
  | spares hs => exact h.spares hs
  | dies hs => exact (h.exited _).spares hs
  | forks hi hfree hz => exact h.fork hi hfree hz rfl
  | reaps _ hi hz _ hs => exact (h.reap hi hz).spares hs

/-- Records stay in their places, in every run. -/
theorem placed {ok : State → Label → Prop} (h : sched.Reach ok s) : Placed s := by
  refine h.invariant (fun ha => ?_) fun _ ha _ hs => ha.passing (step_passing ha hs)
  exact ha.started.sound.base.placed

/-- Who is in the table after a step was there before, but for a new record. -/
theorem Passing.inTable (h : Placed s) {l : Label} (hp : Passing s l s') {p : Ptr}
    (hin : s'.InTable p) : s.InTable p ∨
      ∃ content i newsp, s'.heap p = newRecord (s.malloc p content) content i newsp := by
  cases hp with
  | spares hs => exact .inl ((inTable_congr hs.procs p).mp hin)
  | dies hs => exact .inl ((inTable_congr hs.procs p).mp hin)
  | @forks mem newsp z content i hi hfree hz =>
      have hforked : (s.forked z content i newsp).InTable p := hin
      rcases (forked_inTable hi hfree).mp hforked with rfl | hold
      · exact .inr ⟨content, i, newsp, by simp⟩
      · exact .inl hold
  | reaps _ hi hz _ hs =>
      obtain ⟨j, hj, hp⟩ := (inTable_congr hs.procs p).mp hin
      obtain ⟨hpj, -⟩ := h.reaped_slot_ne hi hz hj hp
      exact .inl ⟨j, hj, hpj⟩

end Ece357.Sched
