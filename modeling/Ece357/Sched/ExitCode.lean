import Ece357.Sched.Records

/-!
# Ece357.Sched.ExitCode

**Which exit code `sched_wait` delivers.** The record of a dead task keeps the argument of its
`sched_exit` for as long as it is in the table: nothing else stores an exit code, and no new
record takes its address (`Kept`). But `sched_wait` frees the record before it reads the code
from it, so what it delivers is that argument exactly if `free` leaves the field as it is
(`exit_code_iff`).

All this holds in every run, also after a dead task has reaped its own record.
-/

namespace Ece357.Sched

open Ece357.Machine Ece357.ProcTable State

/-- The task with the record at `p` has passed `code` to `sched_exit`. -/
def ExitedWith (h : List Event) (p : Ptr) (code : Int) : Prop :=
  Since (fun e => ¬ e.marks p) (· = .exited p code) h

theorem ExitedWith.unique {h : List Event} {p : Ptr} {code code' : Int} (he : ExitedWith h p code)
    (he' : ExitedWith h p code') : code = code' := by
  induction h with
  | nil =>
      obtain ⟨mid, e, older, heq, -⟩ := he
      simp at heq
  | cons e h ih =>
      rcases since_cons.mp he with rfl | ⟨hold, hlater⟩
      · rcases since_cons.mp he' with heq | ⟨hold', -⟩
        · exact (Event.exited.inj heq).2
        · exact absurd rfl hold'
      · rcases since_cons.mp he' with rfl | ⟨-, hlater'⟩
        · exact absurd rfl hold
        · exact ih hlater hlater'

/-- The dead tasks in the table have their exit codes. -/
def Kept (s : State) : Prop := ∀ p, s.InTable p → (s.heap p).state = .zombie →
  ExitedWith s.trace p (s.heap p).exitCode

variable {s s' : State}

/-! ### Who dies, and who is forgotten -/

theorem Kept.spares (h : Kept s) (hs : Spares s s') : Kept s' := by
  intro p hp hz
  have hpin : s.InTable p := (inTable_congr hs.procs p).mp hp
  obtain ⟨new, htrace, hnew⟩ := hs.trace
  obtain ⟨hz₀, hcode⟩ := hs.dead p hpin hz
  rw [htrace, hcode]
  exact (h p hpin hz₀).append fun e he => hnew e he p

/-- The current task dies, with its code on record. -/
theorem Kept.exited (h : Kept s) (code : Int) : Kept (s.exited code) := by
  intro p hp hz
  by_cases hpc : p = s.current
  · subst hpc
    simp only [State.exited, State.log, State.modify, Function.update_self]
    exact since_cons.mpr (.inl rfl)
  · rw [exited_heap hpc] at hz ⊢
    have hother : s.current ≠ p := fun heq => hpc heq.symm
    exact since_cons.mpr (.inr ⟨hother, h p hp hz⟩)

/-- A new record is nobody's that is dead. -/
theorem Kept.fork (h : Kept s) (hplaced : Placed s) {z : Ptr} {content r : SchedProc} {i : Nat}
    {newsp : Addr} (hi : i < schedNproc) (hfree : s.procs i = none) (hz : s.live z = false)
    (halive : r.state ≠ .zombie) :
    Kept { s.forked z content i newsp with heap := Function.update s.heap z r } := by
  intro p hp hdead
  have hin : (s.forked z content i newsp).InTable p := hp
  rcases (forked_inTable hi hfree).mp hin with rfl | hold
  · simp only [Function.update_self] at hdead
    exact absurd hdead halive
  · have hpz := hplaced.ne_of_free hold hz
    simp only [Function.update_of_ne hpz] at hdead ⊢
    have hzp : z ≠ p := fun heq => hpz heq.symm
    refine since_cons.mpr (.inr ⟨id, since_cons.mpr (.inr ⟨id, ?_⟩)⟩)
    exact since_cons.mpr (.inr ⟨hzp, h p hold hdead⟩)

/-- What is reaped is gone; the others are not touched. -/
theorem Kept.reap (h : Kept s) (hplaced : Placed s) {z : Ptr} {gone : SchedProc} {i : Nat}
    (hi : i < schedNproc) (hz : s.procs i = some z) : Kept (s.reaped i z gone) := by
  intro p hp hdead
  obtain ⟨j, hj, hp⟩ := hp
  obtain ⟨hpj, hpz⟩ := hplaced.reaped_slot_ne hi hz hj hp
  rw [reaped_heap hpz] at hdead ⊢
  have hzp : z ≠ p := fun heq => hpz heq.symm
  exact since_cons.mpr (.inr ⟨id, since_cons.mpr (.inr ⟨hzp, h p ⟨j, hj, hpj⟩ hdead⟩)⟩)

theorem Kept.passing (h : Kept s) (hplaced : Placed s) {l : Label} (hp : Passing s l s') :
    Kept s' := by
  cases hp with
  | spares hs => exact h.spares hs
  | dies hs => exact (h.exited _).spares hs
  | forks hi hfree hz => exact h.fork hplaced hi hfree hz (by simp [newRecord])
  | reaps _ hi hz _ hs => exact (h.reap hplaced hi hz).spares hs

theorem kept {ok : State → Label → Prop} (h : sched.Reach ok s) : Kept s := by
  refine h.invariant (fun ha p hp hz => ?_) fun hreach ha _ hs =>
    ha.passing (placed hreach) (step_passing (placed hreach) hs)
  obtain rfl := ha.started.inTable hp
  have hrunning : (_ : State).cur.state = .running := ha.started.state
  rw [State.cur, hz] at hrunning
  cases hrunning

/-! ### What is delivered -/

/-- **The exit code that `sched_wait` delivers**: in every run, whenever a call of `sched_wait`
returns 0, the code it stores is the one that the child it has reaped has passed to
`sched_exit`, exactly if `free` leaves the `exit_code` of the record as it was. -/
theorem exit_code_iff (s s' : State) (l : Label) (freed : SchedProc → SchedProc)
    (h : sched.Reach System.any s) (hl : l = .wait freed ∨ l = .go freed) (hs : step s l = some s')
    (task z : Ptr) (code : Int)
    (hreturn : s'.trace = .waitReturned task 0 (some code) :: .reaped task z :: s.trace) :
    ExitedWith s.trace z code ↔ (freed (s.heap z)).exitCode = (s.heap z).exitCode := by
  cases step_passing (placed h) hs with
  | spares hsp =>
      obtain ⟨new, htrace, hnew⟩ := hsp.trace
      have hsplit : new ++ s.trace =
          [.waitReturned task 0 (some code), .reaped task z] ++ s.trace := htrace.symm.trans hreturn
      -- the events of a step that reaps nobody are not these
      obtain rfl := List.append_cancel_right hsplit
      exact absurd rfl (hnew (.reaped task z) (by simp) z)
  | dies | forks =>
      -- neither `sched_exit` nor `sched_fork` goes on in `sched_wait`
      rcases hl with hl | hl <;> cases hl
  | @reaps _ freed' i z' _ hl' hi hz hzombie hsp =>
      have hfreed : freed' = freed := by
        rcases hl with rfl | rfl <;> rcases hl' with hl' | hl' <;> cases hl' <;> rfl
      subst hfreed
      obtain ⟨new, htrace, -⟩ := hsp.trace
      have hsplit : (new ++ [.waitReturned s.current 0 (some (freed' (s.heap z')).exitCode),
          .reaped s.current z']) ++ s.trace =
          [.waitReturned task 0 (some code), .reaped task z] ++ s.trace := by
        rw [List.append_assoc]
        exact htrace.symm.trans hreturn
      -- the two newest events are those of the round, so nothing came after it
      have hevents := List.append_cancel_right hsplit
      have hnil : new = [] :=
        List.length_eq_zero_iff.mp (by simpa using congrArg List.length hevents)
      subst hnil
      simp only [List.nil_append, List.cons.injEq, Event.waitReturned.injEq, Event.reaped.injEq,
        Option.some.injEq, true_and, and_true] at hevents
      obtain ⟨⟨-, rfl⟩, -, rfl⟩ := hevents
      have hcode := kept h z' ⟨i, hi, hz⟩ hzombie
      constructor
      · exact fun hgot => hgot.unique hcode
      · intro hsame
        rw [hsame]
        exact hcode

/-! ### A code that is lost -/

/-- The initial process waits for its child, which exits with code 5. -/
def deathRun : List Label := [.fork (some (101, blank)) 65536, .wait id, .go id, .exit 5]

/-- The next step reaps the child, and delivers `code`. -/
def delivers (freed : SchedProc → SchedProc) (code : Int) (s : State) : Bool :=
  (step s (.go freed)).any fun s' =>
    s'.trace = .waitReturned 100 0 (some code) :: .reaped 100 101 :: s.trace

theorem delivers_step {freed : SchedProc → SchedProc} {code : Int}
    (h : delivers freed code s = true) : ∃ s', step s (.go freed) = some s' ∧
      s'.trace = .waitReturned 100 0 (some code) :: .reaped 100 101 :: s.trace := by
  obtain ⟨s', hs, htrace⟩ := (Option.any_eq_true ..).mp h
  exact ⟨s', hs, of_decide_eq_true htrace⟩

/-- What the parent gets depends on what `free` leaves. -/
theorem death_reached : ∃ s, sched.Reach System.any s ∧ delivers id 5 s = true ∧
    delivers (fun _ => blank) 0 s = true := by
  obtain ⟨s, hreach, hs⟩ := start_reach System.any (fun _ _ => true) deathRun
    (fun s => delivers id 5 s && delivers (fun _ => blank) 0 s)
    (fun _ _ _ _ => trivial) (by decide +kernel)
  exact ⟨s, hreach, (Bool.and_eq_true ..).mp hs⟩

theorem exit_code_iff_kept : ∃ s s', step s (.go id) = some s' ∧
    s'.trace = .waitReturned 100 0 (some 5) :: .reaped 100 101 :: s.trace ∧
    ExitedWith s.trace 101 5 := by
  obtain ⟨s, hreach, hfive, -⟩ := death_reached
  obtain ⟨s', hs, htrace⟩ := delivers_step hfive
  have hiff := exit_code_iff s s' (.go id) id hreach (.inr rfl) hs 100 101 5 htrace
  exact ⟨s, s', hs, htrace, hiff.mpr rfl⟩

/-- **A code that is lost**: the child has exited with 5, `free` clears its record, and
`sched_wait` delivers 0. -/
theorem exit_code_lost : ¬ ∀ (s s' : State) (l : Label) (task z : Ptr) (code : Int),
    sched.Reach System.any s → step s l = some s' →
      s'.trace = .waitReturned task 0 (some code) :: .reaped task z :: s.trace →
        ExitedWith s.trace z code := by
  intro hall
  obtain ⟨s, hreach, hfive, hzero⟩ := death_reached
  obtain ⟨s₅, hs₅, htrace₅⟩ := delivers_step hfive
  obtain ⟨s₀, hs₀, htrace₀⟩ := delivers_step hzero
  have hgot := (hall s s₅ _ 100 101 5 hreach hs₅ htrace₅).unique
    (hall s s₀ _ 100 101 0 hreach hs₀ htrace₀)
  cases hgot

end Ece357.Sched
