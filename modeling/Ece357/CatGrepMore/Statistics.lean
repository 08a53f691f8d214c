import Ece357.CatGrepMore.Interrupts
import Ece357.CatGrepMore.Residue

/-!
# Ece357.CatGrepMore.Statistics

**What an interrupted process reports.** Every process of a run carries statistics, the children
those that their parent had at the `fork`. The files counted are those before the current one, and
from the `++` at the beginning of `pipeFile` that one too; the bytes counted are never more than
those of the files before and what has been read from the current one (`Proc.Tallied`). They may be
fewer: a partial `write` counts what it took, and the retry counts nothing, and a pager child
whose `execvp` fails goes on to the next file and has not copied this one.

The original process has counted exactly what it has read, and the pipe has accepted exactly that,
if none of its `write`s was partial (`report_counts`).
-/

namespace Ece357.CatGrepMore

open Ece357.Machine

/-- The contents of the file at a position. -/
def World.contentAt (w : World) (k : Nat) : List Byte := w.content (w.inputFile k)

/-- The bytes of the files before a position. -/
def World.bytesBefore (w : World) : Nat → Nat
  | 0 => 0
  | k + 1 => w.bytesBefore k + (w.contentAt k).length

/-- What the process has read from the current file. -/
def Proc.bytesRead (w : World) (pr : Proc) : Nat :=
  match pr.pc with
  | .copy c => (w.contentAt pr.i).length - c.rest.length
  | .closeW1 | .wait3 | .ret => (w.contentAt pr.i).length
  | _ => 0

/-- A `write` in the copy loop of the original process that does not fail takes its whole chunk. -/
def NoPartialWrite (s : State) : Label → Prop
  | .run 0 a => ∀ c want part, (s.procs 0).pc = .copy c → a.io.read = some want →
      a.io.write = some part → readAmount bufferSize want c.rest.length ≤ part
  | _ => True

variable {w : World} {s s' : State} {pr pr' : Proc} {p : Nat} {a : Answer} {full : Prop}

theorem World.bytesBefore_succ (w : World) (k : Nat) :
    w.bytesBefore (k + 1) = w.bytesBefore k + (w.contentAt k).length := rfl

theorem World.bytesBefore_mono (w : World) {k n : Nat} (h : k ≤ n) :
    w.bytesBefore k ≤ w.bytesBefore n := by
  induction n with
  | zero => rw [Nat.le_zero.mp h]
  | succ n ih =>
      rcases Nat.lt_or_eq_of_le h with hlt | rfl
      · have hle := ih (Nat.le_of_lt_succ hlt)
        rw [bytesBefore_succ]
        omega
      · exact le_rfl

/-! ### The statistics at every control point -/

/-- So many files have been counted, and at most so many bytes. -/
structure Totals.Counts (full : Prop) (files bytes : Nat) (t : Totals) : Prop where
  files_eq : t.totalFiles = files
  nonneg : 0 ≤ t.totalBytes
  bytes_le : t.totalBytes ≤ bytes
  bytes_eq : full → t.totalBytes = bytes

/-- The statistics, by control point. With `full`, all has been counted, and the process has not
come through the arm of a child. -/
def Proc.Tallied (w : World) (full : Prop) (pr : Proc) : Prop :=
  match pr.pc with
  | .install | .usage => pr.i = 0 ∧ pr.totals.Counts full 0 0
  | .loop => pr.totals.Counts full pr.i (w.bytesBefore pr.i)
  | .enter => pr.i < w.numInputFiles ∧ pr.totals.Counts full pr.i (w.bytesBefore pr.i)
  | .grep _ | .pager _ => pr.i < w.numInputFiles ∧ ¬ full ∧
      pr.totals.Counts full (pr.i + 1) (w.bytesBefore pr.i)
  | .copy c => pr.i < w.numInputFiles ∧ c.rest.length ≤ (w.contentAt pr.i).length ∧
      (full → c.piped ++ c.rest = w.contentAt pr.i) ∧ pr.totals.Counts full (pr.i + 1)
        (w.bytesBefore pr.i + ((w.contentAt pr.i).length - c.rest.length))
  | .closeW1 | .wait3 | .ret => pr.i < w.numInputFiles ∧
      pr.totals.Counts full (pr.i + 1) (w.bytesBefore (pr.i + 1))
  | .program => True
  | _ => pr.i < w.numInputFiles ∧ pr.totals.Counts full (pr.i + 1) (w.bytesBefore pr.i)

theorem Proc.Tallied.die (h : pr.Tallied w full) (e : Ending) : (pr.die e).Tallied w full := h

theorem Proc.Tallied.orExit {α : Type} {ok : Bool} {result : Option α} {next : α → Proc}
    (h : pr.Tallied w full) (hnext : ∀ r, (next r).Tallied w full) :
    (pr.orExit ok result next).Tallied w full :=
  Proc.orExit_induction (h.die _) hnext

/-- Counting less than all there is. -/
theorem Totals.Counts.weaken {full' : Prop} {t : Totals} {files bytes bytes' : Nat}
    (h : t.Counts full files bytes) (hle : bytes ≤ bytes') (hno : ¬ full') :
    t.Counts full' files bytes' :=
  ⟨h.files_eq, h.nonneg, by have := h.bytes_le; omega, fun he => absurd he hno⟩

/-- `++(*totalFiles)`. -/
theorem Totals.Counts.enter {t : Totals} {files bytes : Nat} (h : t.Counts full files bytes)
    (hfits : files + 1 < 2 ^ 31) :
    ({ t with totalFiles := toInt (t.totalFiles + 1) } : Totals).Counts full (files + 1) bytes := by
  have hfiles := h.files_eq
  refine ⟨?_, h.nonneg, h.bytes_le, h.bytes_eq⟩
  dsimp only
  rw [toInt_of_fits ⟨by omega, by omega⟩, hfiles]
  push_cast
  rfl

/-- A turn of the copy loop that goes on. -/
theorem copyTurn_counts {io : Answers} {c c' : Copying} {wrstatus : Nat} {t : Totals}
    {files before : Nat} {content : List Byte} (hturn : copyTurn io c = .again c' wrstatus)
    (hrest : c.rest.length ≤ content.length) (hpiped : full → c.piped ++ c.rest = content)
    (hcounts : t.Counts full files (before + (content.length - c.rest.length)))
    (hfits : before + content.length < 2 ^ 31)
    (hwhole : full → wrstatus = c.rest.length - c'.rest.length) :
    c'.rest.length ≤ content.length ∧ (full → c'.piped ++ c'.rest = content) ∧
      (t.count wrstatus).Counts full files (before + (content.length - c'.rest.length)) := by
  have hless := copyTurn_less hturn
  obtain ⟨hstatus, hnext⟩ := copyTurn_writes hturn
  have hle := hcounts.bytes_le
  have hnonneg := hcounts.nonneg
  have hcount : (t.count wrstatus).totalBytes = t.totalBytes + wrstatus :=
    toInt_of_fits ⟨by omega, by omega⟩
  refine ⟨by omega, fun he => (hnext (hwhole he)).trans (hpiped he), hcounts.files_eq, ?_, ?_, ?_⟩
  · rw [hcount]
    omega
  · rw [hcount]
    omega
  · intro he
    have hall := hcounts.bytes_eq he
    have hstat := hwhole he
    rw [hcount]
    omega

/-- A turn of a process whose `write` does not take less than its chunk. -/
theorem copyTurn_whole {io : Answers} {c c' : Copying} {wrstatus : Nat}
    (hturn : copyTurn (pr.answers io) c = .again c' wrstatus)
    (hwhole : ∀ want part, io.read = some want → io.write = some part →
      readAmount bufferSize want c.rest.length ≤ part) :
    wrstatus = c.rest.length - c'.rest.length := by
  obtain ⟨want, byteNum, hread, rfl, -, rfl, htook, rfl⟩ := copyTurn_again hturn
  have hle := readAmount_le_left bufferSize want c.rest.length
  simp only [List.length_drop, Nat.sub_sub_self hle]
  refine (length_written_eq (length_take_readAmount bufferSize want c.rest) htook).mpr ?_
  intro part hpart
  unfold Proc.answers at hread hpart
  split at hpart
  · rw [if_pos ‹_›] at hread
    exact hwhole want part hread hpart
  · cases hpart

/-! ### Every run -/

/-- What `argc` and the number of bytes can be for the statistics to be `int`s. -/
structure World.Fits (w : World) : Prop where
  files : w.numInputFiles < 2 ^ 31
  bytes : w.bytesBefore w.numInputFiles < 2 ^ 31

theorem World.Fits.next (h : w.Fits) {k : Nat} (hk : k < w.numInputFiles) :
    w.bytesBefore (k + 1) < 2 ^ 31 :=
  Nat.lt_of_le_of_lt (w.bytesBefore_mono hk) h.bytes

/-- The whole file has been read. -/
theorem copied_counts {t : Totals} {k : Nat} {c : Copying} {io : Answers}
    (hturn : copyTurn io c = .eof) (h : t.Counts full (k + 1)
      (w.bytesBefore k + ((w.contentAt k).length - c.rest.length))) :
    t.Counts full (k + 1) (w.bytesBefore (k + 1)) := by
  rwa [copyTurn_eof hturn, List.length_nil, Nat.sub_zero, ← World.bytesBefore_succ] at h

/-- One call of a process. -/
theorem Proc.Tallied.act (hw : w.Fits) (h : pr.Tallied w full)
    (hwhole : full → ∀ c c' n, pr.pc = .copy c → copyTurn (pr.answers a.io) c = .again c' n →
      n = c.rest.length - c'.rest.length)
    (hact : pr.act w p a = .goes pr') : pr'.Tallied w full := by
  have hold := h
  unfold Tallied at h
  unfold Proc.act at hact
  obtain ⟨pc, hpc⟩ : ∃ pc, pr.pc = pc := ⟨_, rfl⟩
  rw [hpc] at hact h
  cases pc with
  | wait3 | program => cases hact
  | fork1 | fork2 =>
      dsimp only [Proc.fork] at hact
      split_ifs at hact
      obtain rfl := Act.goes.inj hact
      exact hold.die _
  | install =>
      obtain rfl := Act.goes.inj hact
      exact h
  | usage =>
      obtain rfl := Act.goes.inj hact
      split_ifs
      · exact hold.die _
      · exact h.2
  | loop =>
      obtain rfl := Act.goes.inj hact
      split_ifs with hi
      · exact ⟨hi, h⟩
      · exact hold.die _
  | enter =>
      obtain rfl := Act.goes.inj hact
      have hfiles := hw.files
      exact ⟨h.1, h.2.enter (by omega)⟩
  | pipe1 | pipe2 =>
      obtain rfl := Act.goes.inj hact
      exact hold.orExit fun _ => h
  | «open» =>
      obtain rfl := Act.goes.inj hact
      have hnone : pr.totals.Counts full (pr.i + 1)
          (w.bytesBefore pr.i + ((w.contentAt pr.i).length - (w.contentAt pr.i).length)) := by
        rw [Nat.sub_self]
        exact h.2
      exact hold.orExit fun _ => ⟨h.1, le_rfl, fun _ => rfl, hnone⟩
  | grep g =>
      obtain rfl := Act.goes.inj hact
      cases g with
      | dupIn | dupOut => exact hold.orExit fun _ => h
      | exec =>
          simp only [Proc.grepArm, Proc.execvp]
          split_ifs
          · trivial
          · exact ⟨h.1, h.2.2⟩
      | _ => exact h
  | pager q =>
      obtain rfl := Act.goes.inj hact
      cases q with
      | dupIn => exact hold.orExit fun _ => h
      | exec =>
          simp only [Proc.pagerArm, Proc.execvp]
          split_ifs
          · trivial
          · -- it goes on behind the copy loop, and has not counted this file
            exact ⟨h.1, h.2.2.weaken (w.bytesBefore_mono (Nat.le_succ _)) h.2.1⟩
      | _ => exact h
  | copy c =>
      obtain rfl := Act.goes.inj hact
      obtain ⟨hi, hrest, hpiped, hcounts⟩ := h
      unfold Proc.copy
      cases hturn : copyTurn (pr.answers a.io) c with
      | again c' wrstatus =>
          have hfits := hw.next hi
          rw [World.bytesBefore_succ] at hfits
          exact ⟨hi, copyTurn_counts hturn hrest hpiped hcounts hfits
            fun he => hwhole he c c' wrstatus hpc hturn⟩
      | eof => exact ⟨hi, copied_counts hturn hcounts⟩
      | failed => exact hold.die _
  | ret =>
      obtain rfl := Act.goes.inj hact
      exact h.2
  | _ =>
      obtain rfl := Act.goes.inj hact
      exact h

/-- A process between the first `setjmp` of a call and its end. -/
theorem Proc.Tallied.counts (h : pr.Tallied w full) (harmed : pr.pc.armed = true) :
    pr.i < w.numInputFiles ∧
      pr.totals.Counts full (pr.i + 1) (w.bytesBefore pr.i + pr.bytesRead w) := by
  unfold Tallied at h
  unfold bytesRead
  cases hpc : pr.pc <;> rw [hpc] at h harmed
  case install | usage | loop | enter | setjmp1 | program => cases harmed
  case copy c => exact ⟨h.1, h.2.2.2⟩
  case grep g => exact ⟨h.1, h.2.2⟩
  case pager q => exact ⟨h.1, h.2.2⟩
  all_goals exact h

/-- The two calls of `fork`: the child has the statistics of its parent, and is not exact. -/
theorem Proc.Tallied.fork {parent child : Proc} (h : pr.Tallied w full)
    (hact : pr.act w p a = .forks parent child) :
    parent.Tallied w full ∧ child.Tallied w False := by
  unfold Tallied at h
  rcases Proc.act_forks hact with ⟨hpc, rfl, rfl⟩ | ⟨hpc, rfl, rfl⟩
  · rw [hpc] at h
    exact ⟨h, h.1, id, h.2.weaken le_rfl id⟩
  · rw [hpc] at h
    exact ⟨h, h.1, id, h.2.weaken le_rfl id⟩

/-- The statistics of all processes, with those of the original one exact in the end. -/
def State.Tallied (w : World) (full : Prop) (s : State) : Prop :=
  ∀ q, (s.procs q).Tallied w (q = 0 ∧ full)

theorem State.Tallied.set (h : s.Tallied w full) (hpr : pr.Tallied w (p = 0 ∧ full)) :
    (s.set p pr).Tallied w full := by
  intro q
  simp only [State.set]
  by_cases hq : q = p
  · subst hq
    rwa [Function.update_self]
  · rw [Function.update_of_ne hq]
    exact h q

/-- **One step** of any process. -/
theorem State.Tallied.step {l : Label} (hw : w.Fits) (h : s.Tallied w full) (hcount : 0 < s.count)
    (hwhole : full → NoPartialWrite s l) (hstep : step w s l = some s') : s'.Tallied w full := by
  cases step_move hstep with
  | @goes p a pr hrun hact =>
      refine h.set ((h p).act hw ?_ hact)
      rintro ⟨rfl, he⟩ c c' n hpc hturn
      exact copyTurn_whole hturn fun want part => hwhole he c want part hpc
  | @forks p a parent child hrun hact =>
      obtain ⟨hparent, hchild⟩ := (h p).fork hact
      intro q
      simp only [State.spawn]
      by_cases hq : q = s.count
      · -- the child is another process than the original one
        have hno : (q = 0 ∧ full) = False := by
          rw [eq_iff_iff, iff_false]
          exact fun hzero => Nat.ne_of_gt hcount (hq.symm.trans hzero.1)
        rw [hno, hq, Function.update_self]
        exact hchild
      · rw [Function.update_of_ne hq]
        exact h.set hparent q
  | @reaps p q a hrun hpc hchild hended =>
      have habsent : (s.set q { s.procs q with life := .absent }).Tallied w full := h.set (h q)
      refine habsent.set ?_
      have hold := h p
      unfold Proc.Tallied at hold
      rw [hpc] at hold
      exact hold
  | ends => exact h.set ((h _).die _)
  | undefined => exact h.set (h _)

theorem tallied {ok : State → Label → Prop} (hw : w.Fits)
    (hok : ∀ {s l}, full → ok s l → NoPartialWrite s l) (h : (system w).Reach ok s) :
    s.Tallied w full := by
  refine h.invariant (I := fun s => s.Tallied w full) ?_ ?_
  · intro s₀ hstart p
    obtain ⟨fds, -, rfl⟩ := hstart
    have hzero : ∀ e : Prop, (⟨0, 0⟩ : Totals).Counts e 0 0 := fun _ =>
      ⟨rfl, le_rfl, le_rfl, fun _ => rfl⟩
    by_cases hp : p = 0
    · subst hp
      exact ⟨rfl, hzero _⟩
    · simp only [State.start, Function.update_of_ne hp]
      exact ⟨rfl, hzero _⟩
  · intro s l s' hreach hs hl hstep
    exact hs.step hw (rooted hreach).count (fun he => hok he hl) hstep

/-! ### The report -/

/-- A process that ends with a report has jumped to a call that has not returned. -/
theorem interrupt_reports {t : Totals} (h : step w s (.interrupt p) = some s')
    (hend : (s'.procs p).life = .ended (.interrupted t)) :
    t = (s.procs p).totals ∧ (s.procs p).LiveJump := by
  simp only [step, Option.ite_none_right_eq_some, Option.some.injEq] at h
  obtain ⟨⟨hrun, -⟩, rfl⟩ := h
  simp only [State.set, Function.update_self, Proc.interrupt] at hend
  split_ifs at hend with hhandler hlive
  · cases hend
  · exact ⟨(Ending.interrupted.inj (Life.ended.inj hend)).symm, hlive⟩

/-- Where all has been counted, the pipe has accepted what has been read. -/
theorem Proc.Tallied.piped (h : pr.Tallied w full) (he : full) {c : Copying}
    (hpc : pr.pc = .copy c) : c.piped = (w.contentAt pr.i).take (pr.bytesRead w) := by
  unfold Tallied at h
  unfold bytesRead
  rw [hpc] at h ⊢
  obtain ⟨-, -, hpiped, -⟩ := h
  have hcontent := hpiped he
  rw [← hcontent, List.length_append]
  simp

/-- **What an interrupt reports.** In every run, whatever fails and whoever is interrupted: a
process that SIGINT ends with its statistics has counted the files up to the current one, and no
more bytes than those of the files before and what it has read from the current one. If it is the
original process, and none of its `write`s has been partial, it has counted all of these, and the
pipe has accepted what it has read. -/
theorem report_counts (w : World) (hw : w.Fits) (s : State) (h : (system w).Reach System.any s)
    (p : Nat) (s' : State) (hstep : step w s (.interrupt p) = some s') (t : Totals)
    (hend : (s'.procs p).life = .ended (.interrupted t)) :
    (s.procs p).i < w.numInputFiles ∧ t.totalFiles = (s.procs p).i + 1 ∧ 0 ≤ t.totalBytes ∧
      t.totalBytes ≤ w.bytesBefore (s.procs p).i + (s.procs p).bytesRead w ∧
      (p = 0 → (system w).Reach NoPartialWrite s →
        t.totalBytes = w.bytesBefore (s.procs p).i + (s.procs p).bytesRead w ∧
          ∀ c, (s.procs p).pc = .copy c →
            c.piped = (w.contentAt (s.procs p).i).take ((s.procs p).bytesRead w)) := by
  obtain ⟨rfl, hlive⟩ := interrupt_reports hstep hend
  have harmed := (jumps h p).liveJump_iff.mp hlive
  have hsome : s.Tallied w False := tallied hw (fun he _ => he.elim) h
  obtain ⟨hi, hcounts⟩ := (hsome p).counts harmed
  refine ⟨hi, by exact_mod_cast hcounts.files_eq, hcounts.nonneg,
    by exact_mod_cast hcounts.bytes_le, fun hp hwhole => ?_⟩
  have hall : s.Tallied w True := tallied hw (fun _ hok => hok) hwhole
  have hfull : p = 0 ∧ True := ⟨hp, trivial⟩
  exact ⟨by exact_mod_cast ((hall p).counts harmed).2.bytes_eq hfull,
    fun c => (hall p).piped hfull⟩

/-- One file of two bytes. -/
def twoBytes : World := ⟨[['c'], ['p'], ['f']], fun _ => [1, 2], 16⟩

theorem twoBytes_fits : twoBytes.Fits := ⟨by decide, by decide⟩

/-- The original process is interrupted when it has copied one of the two. -/
theorem report_counts_half : ∃ s s' : State, step twoBytes s (.interrupt 0) = some s' ∧
    (s'.procs 0).life = .ended (.interrupted ⟨1, 1⟩) ∧
    (1 : Int) = twoBytes.bytesBefore (s.procs 0).i + (s.procs 0).bytesRead twoBytes := by
  obtain ⟨s, hs, hcheck⟩ := System.reach_of_exec (system twoBytes) NoPartialWrite (step twoBytes)
    (fun _ _ => true) (fun h => h) ⟨standardFds, inherited_standardFds, rfl⟩
    (List.replicate 15 (.run 0 ⟨true, ⟨some 1, some 1, none⟩, 0⟩))
    (fun s => decide (∃ s' ∈ step twoBytes s (.interrupt 0),
      (s'.procs 0).life = .ended (.interrupted ⟨1, 1⟩)))
    (fun l hl s _ => by
      obtain rfl := List.eq_of_mem_replicate hl
      intro c want part _ hread hwrite
      obtain rfl := Option.some.inj hread
      obtain rfl := Option.some.inj hwrite
      exact Nat.min_le_left ..) (by decide +kernel)
  obtain ⟨s', hstep, hend⟩ := of_decide_eq_true hcheck
  have hany : (system twoBytes).Reach System.any s := hs.mono fun _ => trivial
  have hreport := report_counts twoBytes twoBytes_fits s hany 0 s' hstep ⟨1, 1⟩ hend
  exact ⟨s, s', hstep, hend, (hreport.2.2.2.2 rfl hs).1⟩

end Ece357.CatGrepMore
