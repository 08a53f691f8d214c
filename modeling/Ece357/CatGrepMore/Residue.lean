import Mathlib.Data.Finset.Card
import Ece357.Machine.Ghost
import Ece357.CatGrepMore.PipeEnds

/-!
# Ece357.CatGrepMore.Residue

**What a call of `pipeFile` leaves behind.** The call closes every pipe end it has opened, but
not `infd`; and it forks two children and calls `wait3` once. So each call that returns leaves
exactly one more descriptor open than it found, and one more child that nobody reaps
(`pipeFile_residue`): no run gets through more files than there are descriptors.

An observer keeps the descriptors that the original process has when it calls `pipeFile`.
-/

namespace Ece357.CatGrepMore

open Ece357.Machine

/-! ### The original process -/

/-- What is true of the original process in every run, also when an `execvp` fails. -/
structure State.Rooted (s : State) : Prop where
  count : 0 < s.count
  parent : (s.procs 0).parent = none
  original : (s.procs 0).life = .running → (s.procs 0).Original

section Rooted
variable {w : World} {s s' : State} {pr : Proc} {ok : State → Label → Prop}

theorem ProcMove.rooted (h : ProcMove w s 0 pr) (hr : s.Rooted) :
    pr.parent = none ∧ (pr.life = .running → pr.Original) := by
  cases h with
  | stays => exact ⟨hr.parent, hr.original⟩
  | goes hrun hact =>
      refine ⟨(Proc.act_frame hact).parent.trans hr.parent, fun hrun' => ?_⟩
      rcases (hr.original hrun).act hact with ⟨e, rfl⟩ | ⟨-, ho⟩
      · cases hrun'
      · exact ho
  | forks hrun hact =>
      refine ⟨?_, fun _ => ((hr.original hrun).forks hact).2.1⟩
      rcases Proc.act_forks hact with ⟨-, rfl, -⟩ | ⟨-, rfl, -⟩ <;> exact hr.parent
  | born hnew => exact absurd hnew (Nat.ne_of_lt hr.count)
  | waited hrun hpc =>
      exact ⟨hr.parent, fun _ =>
        (hr.original hrun).idle hpc (fun _ _ => rfl) rfl rfl (fun _ _ => rfl) rfl⟩
  | reaped | ends | undefined => exact ⟨hr.parent, nofun⟩

theorem step_count {l : Label} (h : step w s l = some s') : s.count ≤ s'.count := by
  cases step_move h with
  | forks => exact Nat.le_succ _
  | goes | reaps | ends | undefined => exact Nat.le_refl _

theorem rooted (h : (system w).Reach ok s) : s.Rooted := by
  refine h.invariant ?_ ?_
  · intro s₀ hstart
    obtain ⟨fds, hfds, rfl⟩ := hstart
    refine ⟨Nat.one_pos, rfl, fun _ => ?_⟩
    exact ((State.sound_start hfds).procs 0).parentCode rfl rfl |>.2
  · intro s l s' _ hr _ hstep
    obtain ⟨hparent, horiginal⟩ := (step_proc hstep 0).rooted hr
    exact ⟨Nat.lt_of_lt_of_le hr.count (step_count hstep), hparent, horiginal⟩

end Rooted

/-! ### One call of the original process -/

def Desc.isPipe : Desc → Bool
  | .pipe _ _ _ _ => true
  | _ => false

/-- The two tables have the same descriptors, pipe ends apart. -/
def SameFiles (T T' : FdTable Desc) : Prop :=
  ∀ n d, d.isPipe = false → (T' n = some d ↔ T n = some d)

/-- `infd` is open. -/
def Pc.pastOpen : Pc → Bool
  | .copy _ | .closeW1 | .wait3 | .ret => true
  | _ => false

/-- How many input files have been opened. -/
def Pc.files (i : Nat) : Pc → Nat
  | .install | .usage => 0
  | .copy _ | .closeW1 | .wait3 | .ret => i + 1
  | _ => i

/-- How many children have been forked and not reaped. -/
def Pc.unreaped (i : Nat) : Pc → Nat
  | .install | .usage => 0
  | .closeR1 | .fork2 | .ret => i + 1
  | .closeR2 | .closeW2 | .open | .copy _ | .closeW1 | .wait3 => i + 2
  | _ => i

/-- A call that opens no input file. -/
structure Proc.Quiet (pr pr' : Proc) : Prop where
  same : SameFiles pr.fds pr'.fds
  files : pr'.pc.files pr'.i = pr.pc.files pr.i
  call : pr'.pc.inCall = true → pr'.pc ≠ .enter →
    pr.pc.inCall = true ∧ pr'.pc.pastOpen = pr.pc.pastOpen

/-- The call that opens one. -/
structure Proc.Opens (w : World) (pr pr' : Proc) : Prop where
  before : pr.pc = .open
  infd : ∃ n < w.openMax, pr.fds n = none ∧ pr'.fds = pr.fds.set n (.input pr.i)
  i : pr'.i = pr.i
  after : pr'.pc.pastOpen = true

section Calls
variable {w : World} {pr pr' : Proc} {a : Answer} {T T' : FdTable Desc}

theorem SameFiles.refl : SameFiles T T := fun _ _ _ => Iff.rfl

theorem SameFiles.trans {T'' : FdTable Desc} (h : SameFiles T T') (h' : SameFiles T' T'') :
    SameFiles T T'' := fun n d hd => (h' n d hd).trans (h n d hd)

theorem SameFiles.close {n : Nat} {d : Desc} (hn : T n = some d) (hd : d.isPipe = true) :
    SameFiles T (T.close n) := by
  intro m e he
  rw [FdTable.close_eq_some]
  refine ⟨fun h => h.2, fun h => ⟨?_, h⟩⟩
  intro heq
  subst heq
  obtain rfl := Option.some.inj (hn.symm.trans h)
  rw [hd] at he
  cases he

theorem SameFiles.set {n : Nat} {d : Desc} (hn : T n = none) (hd : d.isPipe = true) :
    SameFiles T (T.set n d) := by
  intro m e he
  rw [FdTable.set_eq_some]
  constructor
  · intro hset
    rcases hset with ⟨-, rfl⟩ | ⟨-, hm⟩
    · rw [hd] at he
      cases he
    · exact hm
  · intro hm
    refine .inr ⟨?_, hm⟩
    intro heq
    subst heq
    rw [hn] at hm
    cases hm

theorem SameFiles.pipe {limit n m : Nat} {r v : Desc} (h : T.pipe limit r v = some (n, m, T'))
    (hr : r.isPipe = true) (hv : v.isPipe = true) : SameFiles T T' := by
  obtain ⟨hn, hm, hlt, rfl⟩ := FdTable.pipe_inv h
  refine (SameFiles.set hn hr).trans (.set ?_ hv)
  simpa [FdTable.set, Nat.ne_of_gt hlt] using hm

theorem Proc.Quiet.refl : pr.Quiet pr := ⟨.refl, rfl, fun hcall _ => ⟨hcall, rfl⟩⟩

/-- A call that changes no descriptor. -/
theorem Proc.Quiet.of_fds (hfds : pr'.fds = pr.fds) (hfiles : pr'.pc.files pr'.i = pr.pc.files pr.i)
    (hcall : pr'.pc.inCall = true → pr'.pc ≠ .enter →
      pr.pc.inCall = true ∧ pr'.pc.pastOpen = pr.pc.pastOpen) : pr.Quiet pr' :=
  ⟨by rw [hfds]; exact .refl, hfiles, hcall⟩

theorem Proc.Original.quiet_close (h : pr.Original) {pc next : Pc} (hpc : pr.pc = pc) (which : Pipe)
    (dir : Dir) (hopen : pc.opened which dir = true)
    (hfiles : next.files pr.i = pc.files pr.i)
    (hcall : pc.inCall = true ∧ next.pastOpen = pc.pastOpen) :
    pr.Quiet (pr.close (pr.fd which dir) next) := by
  subst hpc
  have hend := (h.ends (pr.fd which dir) 0 pr.i which dir).mpr ⟨rfl, rfl, hopen, rfl⟩
  exact ⟨.close hend rfl, hfiles, fun _ _ => hcall⟩

/-- One call of the original process. -/
theorem Proc.Original.act_turn (h : pr.Original) (hact : pr.act w 0 a = .goes pr') :
    (∃ e, pr' = pr.die e) ∨
      pr'.pc.unreaped pr'.i = pr.pc.unreaped pr.i ∧ (pr.Quiet pr' ∨ pr.Opens w pr') := by
  have hcode := h.code
  obtain ⟨pc, hpc⟩ : ∃ pc, pr.pc = pc := ⟨_, rfl⟩
  unfold Proc.act at hact
  rw [hpc] at hact hcode ⊢
  cases pc with
  | grep | pager | program => cases hcode
  | wait3 => cases hact
  | install | enter | setjmp1 | setjmp2 | ret =>
      obtain rfl := Act.goes.inj hact
      exact .inr ⟨rfl,
        .inl (.of_fds rfl (by rw [hpc]; rfl) (by simp [hpc, Pc.inCall, Pc.pastOpen]))⟩
  | usage =>
      obtain rfl := Act.goes.inj hact
      split_ifs
      · exact .inl ⟨_, rfl⟩
      · exact .inr ⟨rfl, .inl (.of_fds rfl (by rw [hpc]; rfl) (by simp [Pc.inCall]))⟩
  | loop =>
      obtain rfl := Act.goes.inj hact
      split_ifs
      · exact .inr ⟨rfl, .inl (.of_fds rfl (by rw [hpc]; rfl) fun _ hne => absurd rfl hne)⟩
      · exact .inl ⟨_, rfl⟩
  | pipe1 | pipe2 =>
      rcases Proc.orExit_cases (Act.goes.inj hact) with hdie | ⟨⟨n, m, T⟩, hpipe, rfl⟩
      · exact .inl ⟨_, hdie⟩
      · exact .inr ⟨rfl, .inl ⟨.pipe hpipe rfl rfl, by rw [hpc]; rfl,
          by simp [hpc, Pc.inCall, Pc.pastOpen]⟩⟩
  | fork1 | fork2 =>
      dsimp only [Proc.fork] at hact
      split_ifs at hact
      obtain rfl := Act.goes.inj hact
      exact .inl ⟨_, rfl⟩
  | closeR1 =>
      obtain rfl := Act.goes.inj hact
      exact .inr ⟨rfl, .inl (h.quiet_close hpc .one .read rfl rfl ⟨rfl, rfl⟩)⟩
  | closeR2 =>
      obtain rfl := Act.goes.inj hact
      exact .inr ⟨rfl, .inl (h.quiet_close hpc .two .read rfl rfl ⟨rfl, rfl⟩)⟩
  | closeW2 =>
      obtain rfl := Act.goes.inj hact
      exact .inr ⟨rfl, .inl (h.quiet_close hpc .two .write rfl rfl ⟨rfl, rfl⟩)⟩
  | closeW1 =>
      obtain rfl := Act.goes.inj hact
      exact .inr ⟨rfl, .inl (h.quiet_close hpc .one .write rfl rfl ⟨rfl, rfl⟩)⟩
  | «open» =>
      rcases Proc.orExit_cases (Act.goes.inj hact) with hdie | ⟨⟨n, T⟩, halloc, rfl⟩
      · exact .inl ⟨_, hdie⟩
      · -- the one call that opens what no later call closes
        obtain ⟨hlt, hfree, -, rfl⟩ := FdTable.allocate_inv halloc
        exact .inr ⟨rfl, .inr ⟨hpc, ⟨n, hlt, hfree, rfl⟩, rfl, rfl⟩⟩
  | copy c =>
      obtain rfl := Act.goes.inj hact
      unfold Proc.copy
      cases copyTurn (pr.answers a.io) c with
      | again | eof =>
          exact .inr ⟨rfl, .inl (.of_fds rfl (by rw [hpc]; rfl)
            (by simp [hpc, Pc.inCall, Pc.pastOpen]))⟩
      | failed => exact .inl ⟨_, rfl⟩

end Calls

/-! ### The descriptors -/

/-- The descriptors of the original process at its last entry to `pipeFile`. -/
def entryFds (_ s' : State) (entry : FdTable Desc) : FdTable Desc :=
  if (s'.procs 0).pc = .enter then (s'.procs 0).fds else entry

/-- The processes with an observer of the entries to `pipeFile`. -/
def returning (w : World) : System (State × FdTable Desc) Label :=
  (system w).observed (fun s => (s.procs 0).fds) entryFds

/-- The descriptors of the original process in `pipeFile`, pipe ends apart: those at the
entry, and `infd` once it has been opened. -/
structure Proc.Leaks (w : World) (entry : FdTable Desc) (pr : Proc) : Prop where
  clean : ∀ n d, entry n = some d → d.isPipe = false
  before : pr.pc.pastOpen = false → SameFiles entry pr.fds
  after : pr.pc.pastOpen = true →
    ∃ n < w.openMax, entry n = none ∧ SameFiles (entry.set n (.input pr.i)) pr.fds

/-- Every input file that has been opened is open. -/
def Proc.Accumulates (w : World) (pr : Proc) : Prop :=
  ∀ j < pr.pc.files pr.i, ∃ n < w.openMax, pr.fds n = some (.input j)

section Files
variable {w : World} {s s' : State} {pr pr' : Proc} {entry T : FdTable Desc}
  {ok : State → Label → Prop}

theorem Pc.files_pastOpen {pc : Pc} {i : Nat} (h : pc.pastOpen = true) : pc.files i = i + 1 := by
  cases pc <;> first | rfl | cases h

/-- The original process makes a call, or others move. -/
theorem ProcMove.turn (h : ProcMove w s 0 pr) (hr : s.Rooted) (hrun : pr.life = .running) :
    (s.procs 0).life = .running ∧ ((s.procs 0).Quiet pr ∨ (s.procs 0).Opens w pr) := by
  cases h with
  | stays => exact ⟨hrun, .inl .refl⟩
  | goes hrun₀ hact =>
      rcases (hr.original hrun₀).act_turn hact with ⟨e, rfl⟩ | ⟨-, hturn⟩
      · cases hrun
      · exact ⟨hrun₀, hturn⟩
  | forks hrun₀ hact =>
      rcases Proc.act_forks hact with ⟨hpc, rfl, -⟩ | ⟨hpc, rfl, -⟩
      · exact ⟨hrun₀, .inl (.of_fds rfl (by rw [hpc]; rfl) (by simp [hpc, Pc.inCall, Pc.pastOpen]))⟩
      · exact ⟨hrun₀, .inl (.of_fds rfl (by rw [hpc]; rfl) (by simp [hpc, Pc.inCall, Pc.pastOpen]))⟩
  | born hnew => exact absurd hnew (Nat.ne_of_lt hr.count)
  | waited hrun₀ hpc =>
      exact ⟨hrun₀, .inl (.of_fds rfl (by rw [hpc]; rfl) (by simp [hpc, Pc.inCall, Pc.pastOpen]))⟩
  | reaped | ends | undefined => cases hrun

/-- Where the original process has no pipe end open, it has none at all. -/
theorem Proc.Original.noPipe (h : pr.Original)
    (hclosed : ∀ which dir, pr.pc.opened which dir = false) {n : Nat} {d : Desc}
    (hn : pr.fds n = some d) : d.isPipe = false := by
  cases d with
  | external | input => rfl
  | pipe o j which dir =>
      obtain ⟨-, -, hopen, -⟩ := (h.ends n o j which dir).mp hn
      rw [hclosed] at hopen
      cases hopen

theorem Proc.Leaks.enter (h : pr.Original) (hpc : pr.pc = .enter) : pr.Leaks w pr.fds where
  clean _ _ hn := h.noPipe (by rw [hpc]; exact fun _ _ => rfl) hn
  before _ := .refl
  after hpast := by
    rw [hpc] at hpast
    cases hpast

theorem Proc.Leaks.quiet (h : pr.Leaks w entry) (hq : pr.Quiet pr')
    (hpast : pr'.pc.pastOpen = pr.pc.pastOpen) : pr'.Leaks w entry where
  clean := h.clean
  before hbefore := (h.before (hpast ▸ hbefore)).trans hq.same
  after hafter := by
    have hafter₀ : pr.pc.pastOpen = true := hpast ▸ hafter
    have hi : pr'.i = pr.i := by
      have hfiles := hq.files
      rw [Pc.files_pastOpen hafter, Pc.files_pastOpen hafter₀] at hfiles
      omega
    obtain ⟨n, hlt, hfree, hsame⟩ := h.after hafter₀
    rw [hi]
    exact ⟨n, hlt, hfree, hsame.trans hq.same⟩

/-- `open` takes a number that was free at the entry. -/
theorem Proc.Leaks.opens (h : pr.Leaks w entry) (ho : pr.Opens w pr') : pr'.Leaks w entry where
  clean := h.clean
  before hbefore := by
    rw [ho.after] at hbefore
    cases hbefore
  after _ := by
    have hsame := h.before (by rw [ho.before]; rfl)
    obtain ⟨n, hlt, hfree, hfds⟩ := ho.infd
    have hnone : entry n = none := by
      cases hn : entry n with
      | none => rfl
      | some d =>
          rw [(hsame n d (h.clean n d hn)).mpr hn] at hfree
          cases hfree
    refine ⟨n, hlt, hnone, fun m d hd => ?_⟩
    rw [hfds, ho.i, FdTable.set_eq_some, FdTable.set_eq_some, hsame m d hd]

theorem leaks {x : State × FdTable Desc}
    (h : (returning w).Reach (System.beside ok) x) :
    (x.1.procs 0).life = .running → (x.1.procs 0).pc.inCall = true → (x.1.procs 0).Leaks w x.2 := by
  refine h.watched (I := fun s entry => (s.procs 0).life = .running →
    (s.procs 0).pc.inCall = true → (s.procs 0).Leaks w entry) ?_ ?_
  · intro s₀ hstart _ hcall
    obtain ⟨fds, -, rfl⟩ := hstart
    cases hcall
  · intro s l s' entry hreach hs hok hstep hrun hcall
    have hr' := rooted (hreach.step hok hstep)
    by_cases henter : (s'.procs 0).pc = .enter
    · rw [entryFds, if_pos henter]
      exact .enter (hr'.original hrun) henter
    · rw [entryFds, if_neg henter]
      obtain ⟨hrun₀, hquiet | hopens⟩ := (step_proc hstep 0).turn (rooted hreach) hrun
      · obtain ⟨hcall₀, hpast⟩ := hquiet.call hcall henter
        exact (hs hrun₀ hcall₀).quiet hquiet hpast
      · exact (hs hrun₀ (by rw [hopens.before]; rfl)).opens hopens

theorem Proc.Accumulates.quiet (h : pr.Accumulates w) (hq : pr.Quiet pr') : pr'.Accumulates w := by
  intro j hj
  rw [hq.files] at hj
  obtain ⟨n, hlt, hn⟩ := h j hj
  exact ⟨n, hlt, (hq.same n _ rfl).mpr hn⟩

theorem Proc.Accumulates.opens (h : pr.Accumulates w) (ho : pr.Opens w pr') :
    pr'.Accumulates w := by
  intro j hj
  rw [Pc.files_pastOpen ho.after, ho.i] at hj
  obtain ⟨n, hlt, hfree, hfds⟩ := ho.infd
  rcases Nat.lt_or_eq_of_le (Nat.le_of_lt_succ hj) with hold | rfl
  · obtain ⟨m, hm, hheld⟩ := h j (by rw [ho.before]; exact hold)
    refine ⟨m, hm, ?_⟩
    rw [hfds, FdTable.set_eq_some]
    refine .inr ⟨?_, hheld⟩
    intro heq
    subst heq
    rw [hfree] at hheld
    cases hheld
  · exact ⟨n, hlt, by rw [hfds, FdTable.set_eq_some]; exact .inl ⟨rfl, rfl⟩⟩

theorem accumulates (h : (system w).Reach ok s) :
    (s.procs 0).life = .running → (s.procs 0).Accumulates w := by
  refine h.invariant (I := fun s => (s.procs 0).life = .running → (s.procs 0).Accumulates w) ?_ ?_
  · intro s₀ hstart _ j hj
    obtain ⟨fds, -, rfl⟩ := hstart
    cases hj
  · intro s l s' hreach hs _ hstep hrun
    obtain ⟨hrun₀, hquiet | hopens⟩ := (step_proc hstep 0).turn (rooted hreach) hrun
    · exact (hs hrun₀).quiet hquiet
    · exact (hs hrun₀).opens hopens

/-- Different files are open under different numbers. -/
theorem Proc.Accumulates.le (h : pr.Accumulates w) : pr.pc.files pr.i ≤ w.openMax := by
  choose! n hlt hn using h
  have hle := Finset.card_le_card_of_injOn (s := Finset.range (pr.pc.files pr.i))
    (t := Finset.range w.openMax) n (fun j hj => by simpa using hlt j (by simpa using hj)) ?_
  · simpa using hle
  · intro j hj k hk heq
    have hj := hn j (by simpa using hj)
    rw [heq, hn k (by simpa using hk)] at hj
    exact (Desc.input.inj (Option.some.inj hj)).symm

end Files

/-! ### The children -/

/-- The children of `p` that have not been reaped. -/
def State.children (s : State) (p : Nat) : Finset Nat :=
  (Finset.range s.count).filter fun q => s.IsChild p q

section Children
variable {w : World} {s s' : State} {pr parent child : Proc} {p q r : Nat}
  {ok : State → Label → Prop}

theorem State.mem_children : q ∈ s.children p ↔ s.IsChild p q := by
  simp only [children, Finset.mem_filter, Finset.mem_range, and_iff_right_iff_imp]
  exact fun h => h.1

/-- A process that goes on or ends remains whose child it is. -/
theorem State.children_set (hparent : pr.parent = (s.procs q).parent)
    (hlife : pr.life = .absent ↔ (s.procs q).life = .absent) :
    (s.set q pr).children p = s.children p := by
  ext r
  rw [mem_children, mem_children]
  by_cases hr : r = q
  · subst hr
    simp [IsChild, set, hparent, hlife]
  · simp [IsChild, set, hr]

theorem State.children_spawn (hparent : parent.parent = (s.procs p).parent)
    (hlife : parent.life = (s.procs p).life) (hchild : child.life ≠ .absent) :
    (s.spawn p parent child).children r =
      if child.parent = some r then insert s.count (s.children r) else s.children r := by
  have hnew : s.count ∉ s.children r := by
    rw [mem_children]
    exact fun h => absurd h.1 (Nat.lt_irrefl _)
  ext q
  rw [mem_children]
  by_cases hq : q = s.count
  · subst hq
    by_cases hr : child.parent = some r <;> simp [IsChild, spawn, hr, hchild, hnew]
  · have hold : (s.spawn p parent child).IsChild r q ↔ s.IsChild r q := by
      have hlt : q < s.count + 1 ↔ q < s.count := by omega
      by_cases hp : q = p
      · subst hp
        simp [IsChild, spawn, hq, hparent, hlife, hlt]
      · simp [IsChild, spawn, hq, hp, hlt]
    rw [hold, ← mem_children]
    split_ifs <;> simp [hq]

/-- Reaping removes one child of one process. -/
theorem State.children_reap (hchild : s.IsChild p q) :
    (s.set q { s.procs q with life := .absent }).children r =
      if r = p then (s.children r).erase q else s.children r := by
  have hparent : ∀ {r}, s.IsChild r q → r = p := by
    intro r hr
    exact Option.some.inj (hr.2.1.symm.trans hchild.2.1)
  ext c
  rw [mem_children]
  by_cases hc : c = q
  · subst hc
    split_ifs with hr
    · simp [IsChild, set]
    · rw [mem_children]
      simp only [IsChild, set, Function.update_self, ne_eq, not_true_eq_false, and_false, false_iff]
      exact fun h => hr (hparent h)
  · have hold : (s.set q { s.procs q with life := .absent }).IsChild r c ↔ s.IsChild r c := by
      simp [IsChild, set, hc]
    rw [hold, ← mem_children]
    split_ifs <;> simp [hc]

/-- The original process has as many children as its place in the code says. -/
def State.Counted (s : State) : Prop :=
  (s.procs 0).life = .running → (s.children 0).card = (s.procs 0).pc.unreaped (s.procs 0).i

theorem State.Counted.of_other (h : s.Counted) (hproc : s'.procs 0 = s.procs 0)
    (hchildren : s'.children 0 = s.children 0) : s'.Counted := by
  intro hrun
  rw [hchildren, hproc]
  exact h (hproc ▸ hrun)

theorem State.Counted.ends (h : s.Counted) (hparent : pr.parent = (s.procs q).parent)
    (hlife : pr.life = .absent ↔ (s.procs q).life = .absent) (hrun : pr.life ≠ .running) :
    (s.set q pr).Counted := by
  by_cases hq : q = 0
  · subst hq
    intro hrun'
    exact absurd hrun' (by simpa [set] using hrun)
  · exact h.of_other (by simp [set, Ne.symm hq]) (children_set hparent hlife)

theorem State.Counted.goes {a : Answer} (h : s.Counted) (hr : s.Rooted)
    (hrun : (s.procs q).life = .running) (hact : (s.procs q).act w q a = .goes pr) :
    (s.set q pr).Counted := by
  obtain ⟨hparent, -, hlife⟩ := Proc.act_frame hact
  have hpresent : pr.life = .absent ↔ (s.procs q).life = .absent := by
    rcases hlife with hsame | ⟨e, hended⟩
    · rw [hsame]
    · simp [hended, hrun]
  by_cases hq : q = 0
  · subst hq
    rcases (hr.original hrun).act_turn hact with ⟨e, rfl⟩ | ⟨hunreaped, -⟩
    · exact h.ends hparent hpresent nofun
    · intro _
      rw [children_set hparent hpresent, h hrun]
      simpa [set] using hunreaped.symm
  · exact h.of_other (by simp [set, Ne.symm hq]) (children_set hparent hpresent)

theorem State.Counted.forks {a : Answer} (h : s.Counted) (hr : s.Rooted)
    (hrun : (s.procs q).life = .running)
    (hact : (s.procs q).act w q a = .forks parent child) : (s.spawn q parent child).Counted := by
  have hzero : s.count ≠ 0 := Nat.ne_of_gt hr.count
  have hfresh : s.count ∉ s.children 0 := by
    rw [mem_children]
    exact fun hc => absurd hc.1 (Nat.lt_irrefl _)
  have hboth : parent.parent = (s.procs q).parent ∧ parent.life = (s.procs q).life ∧
      child.life = (s.procs q).life ∧ child.parent = some q := by
    rcases Proc.act_forks hact with ⟨-, rfl, rfl⟩ | ⟨-, rfl, rfl⟩ <;> exact ⟨rfl, rfl, rfl, rfl⟩
  obtain ⟨hparent, hlife, hlifec, hparentc⟩ := hboth
  have hchildren := children_spawn (r := 0) hparent hlife (by rw [hlifec, hrun]; nofun)
  by_cases hq : q = 0
  · subst hq
    intro _
    rw [hchildren, if_pos hparentc, Finset.card_insert_of_notMem hfresh, h hrun]
    rcases Proc.act_forks hact with ⟨hpc, rfl, -⟩ | ⟨hpc, rfl, -⟩ <;>
      simp [spawn, hzero.symm, hpc, Pc.unreaped]
  · refine h.of_other (by simp [spawn, hzero.symm, Ne.symm hq]) ?_
    rw [hchildren, if_neg (by simp [hparentc, hq])]

theorem State.Counted.reaps (h : s.Counted) (hr : s.Rooted) (hrun : (s.procs p).life = .running)
    (hpc : (s.procs p).pc = .wait3) (hchild : s.IsChild p q)
    (hended : (s.procs q).life.isEnded = true) :
    ((s.set q { s.procs q with life := .absent }).set p { s.procs p with pc := .ret }).Counted := by
  have hq : q ≠ 0 := by
    intro heq
    subst heq
    have hnone := hchild.2.1
    rw [hr.parent] at hnone
    cases hnone
  have hpq : p ≠ q := by
    intro heq
    subst heq
    simp [hrun, Life.isEnded] at hended
  have hreap := children_reap (r := 0) hchild
  have hchildren : ((s.set q { s.procs q with life := .absent }).set p
      { s.procs p with pc := .ret }).children 0 =
      (s.set q { s.procs q with life := .absent }).children 0 :=
    children_set (by simp [set, hpq]) (by simp [set, hpq])
  by_cases hp : p = 0
  · subst hp
    intro _
    rw [hchildren, hreap, if_pos rfl, Finset.card_erase_of_mem (mem_children.mpr hchild), h hrun]
    simp [set, hpc, Pc.unreaped]
  · refine h.of_other (by simp [set, Ne.symm hp, Ne.symm hq]) ?_
    rw [hchildren, hreap, if_neg (Ne.symm hp)]

theorem counted (h : (system w).Reach ok s) : s.Counted := by
  refine h.invariant ?_ ?_
  · intro s₀ hstart _
    obtain ⟨fds, -, rfl⟩ := hstart
    simp [State.children, State.IsChild, State.start, Proc.start, Pc.unreaped]
  · intro s l s' hreach hs _ hstep
    have hr := rooted hreach
    cases step_move hstep with
    | goes hrun hact => exact hs.goes hr hrun hact
    | forks hrun hact => exact hs.forks hr hrun hact
    | reaps hrun hpc hchild hended => exact hs.reaps hr hrun hpc hchild hended
    | ends hrun => exact hs.ends rfl (by simp [Proc.die, hrun]) (by simp [Proc.die])
    | undefined hrun => exact hs.ends rfl (by simp [hrun]) (by simp)

/-! ### The return -/

/-- The original process has the descriptors it had at the entry, and no child. -/
def State.NoResidue (s : State) (entry : FdTable Desc) : Prop :=
  (s.procs 0).fds = entry ∧ ∀ q, ¬ s.IsChild 0 q

/-- **What a call of `pipeFile` leaves behind**: in every run, whenever the original process
returns from the call for the file at `i`, it has one more descriptor open than at the entry,
that of the file, and `i + 1` children that have not been reaped. So the call has left a
residue, and `i` is below the limit on descriptors. -/
theorem pipeFile_residue (w : World) (x : State × FdTable Desc)
    (h : (returning w).Reach (System.beside System.any) x) (hrun : (x.1.procs 0).life = .running)
    (hpc : (x.1.procs 0).pc = .ret) :
    ¬ x.1.NoResidue x.2 ∧
    (∃ n < w.openMax, x.2 n = none ∧ (x.1.procs 0).fds = x.2.set n (.input (x.1.procs 0).i)) ∧
    (x.1.children 0).card = (x.1.procs 0).i + 1 ∧ (x.1.procs 0).i < w.openMax := by
  have hleaks := leaks h hrun (by rw [hpc]; rfl)
  have horiginal := (rooted h.forget).original hrun
  have hcard := counted h.forget hrun
  have hle := (accumulates h.forget hrun).le
  rw [hpc] at hcard hle
  obtain ⟨n, hlt, hfree, hsame⟩ := hleaks.after (by rw [hpc]; rfl)
  -- no table has a pipe end, so they agree in all descriptors
  have hfds : (x.1.procs 0).fds = x.2.set n (.input (x.1.procs 0).i) := by
    funext m
    refine Option.ext fun d => ⟨fun hd => ?_, fun hd => ?_⟩
    · exact (hsame m d (horiginal.noPipe (by rw [hpc]; exact fun _ _ => rfl) hd)).mp hd
    · refine (hsame m d ?_).mpr hd
      rcases FdTable.set_eq_some.mp hd with ⟨-, rfl⟩ | ⟨-, hd⟩
      · rfl
      · exact hleaks.clean m d hd
  refine ⟨fun hno => ?_, ⟨n, hlt, hfree, hfds⟩, hcard, hle⟩
  have hmore := congrFun (hfds.symm.trans hno.1) n
  rw [hfree] at hmore
  simp [FdTable.set] at hmore

end Children

/-! ### One file -/

/-- The step condition: every call succeeds, and no signal comes. -/
def AllSucceed (_ : State) : Label → Prop
  | .run _ a => a.ok = true ∧ a.io.read ≠ none ∧ a.io.write ≠ none
  | .finish _ _ => True
  | .kill _ | .interrupt _ => False

instance (s : State) : (l : Label) → Decidable (AllSucceed s l)
  | .run _ a => inferInstanceAs (Decidable (a.ok = true ∧ a.io.read ≠ none ∧ a.io.write ≠ none))
  | .finish _ _ => .isTrue trivial
  | .kill _ | .interrupt _ => .isFalse id

/-- `oneFileRun`, after which both children become their programs and end, and the original
process reaps one of them. -/
def returnRun : List Label :=
  oneFileRun ++ [.run 1 ⟨true, ⟨some 1, some 1, none⟩, 0⟩, .run 2 ⟨true, ⟨some 1, some 1, none⟩, 0⟩,
    .finish 2 0, .finish 1 0, .run 0 ⟨true, ⟨some 1, some 1, none⟩, 1⟩]

theorem pipeFile_returns : ∃ x, (returning oneFile).Reach (System.beside AllSucceed) x ∧
    (x.1.procs 0).life = .running ∧ (x.1.procs 0).pc = .ret := by
  obtain ⟨x, hx, hcheck⟩ := System.reach_of_watch
    (fun s => ∃ fds, Inherited fds ∧ s = State.start fds) (step oneFile) (fun s => (s.procs 0).fds)
    entryFds (fun s l => decide (AllSucceed s l)) ⟨standardFds, inherited_standardFds, rfl⟩
    returnRun (fun x => decide ((x.1.procs 0).life = .running ∧ (x.1.procs 0).pc = .ret))
    (fun _ _ _ => of_decide_eq_true) (by decide +kernel)
  exact ⟨x, hx, of_decide_eq_true hcheck⟩

theorem pipeFile_residue_one : ∃ x : State × FdTable Desc, (x.1.procs 0).pc = .ret ∧
    ¬ x.1.NoResidue x.2 ∧ (x.1.children 0).card = (x.1.procs 0).i + 1 := by
  obtain ⟨x, hx, hrun, hpc⟩ := pipeFile_returns
  obtain ⟨hresidue, -, hcard, -⟩ :=
    pipeFile_residue oneFile x (hx.mono fun _ => trivial) hrun hpc
  exact ⟨x, hpc, hresidue, hcard⟩

/-- **A residue**: all calls succeed, both children have ended, and the return of `pipeFile`
leaves a descriptor open and a child unreaped. -/
theorem pipeFile_leaves : ¬ ∀ (w : World) (x : State × FdTable Desc),
    (returning w).Reach (System.beside AllSucceed) x → (x.1.procs 0).life = .running →
      (x.1.procs 0).pc = .ret → x.1.NoResidue x.2 := by
  intro hall
  obtain ⟨x, hx, hrun, hpc⟩ := pipeFile_returns
  have hleaks := leaks hx hrun (by rw [hpc]; rfl)
  obtain ⟨n, -, hfree, hsame⟩ := hleaks.after (by rw [hpc]; rfl)
  have hopen := (hsame n (.input (x.1.procs 0).i) rfl).mpr (by simp [FdTable.set])
  rw [(hall _ x hx hrun hpc).1, hfree] at hopen
  cases hopen

end Ece357.CatGrepMore
