import Ece357.CatGrepMore.Moves

/-!
# Ece357.CatGrepMore.PipeEnds

**Who holds the ends of a file's pipes.** The original process has each end open under
exactly one number, from the call of `pipe` to the `close` that its code names
(`Original.ends`); the children get theirs by `fork`. The grep child closes the write end of
pipe 1 first of all. The pager child, where it should close the same end, closes
`pipe1fds[0]` once more, which its parent had already closed, and so keeps the write end
until it ends (`Pager.keeps`).

So once the original process has closed `pipe1fds[1]` and both children are at their
`execvp`, grep's input has an end precisely when the pager is dead (`end_of_file_iff`): the
pager waits for grep, which waits for the pager.
-/

namespace Ece357.CatGrepMore

open Ece357.Machine

/-! ### The ends in a table -/

/-- Which ends are open in a process that executes the code of the parent. -/
def Pc.opened : Pc → Pipe → Dir → Bool
  | .pipe2, which, _ => which = .one
  | .setjmp2, _, _ | .fork1, _, _ | .closeR1, _, _ => true
  | .fork2, which, dir | .closeR2, which, dir => ¬ (which = .one ∧ dir = .read)
  | .closeW2, _, dir => dir = .write
  | .open, which, dir | .copy _, which, dir | .closeW1, which, dir =>
      which = .one ∧ dir = .write
  | _, _, _ => false

/-- The number a process remembers for an end. -/
def Proc.fd (pr : Proc) : Pipe → Dir → Nat
  | .one, .read => pr.pipe1fds.1
  | .one, .write => pr.pipe1fds.2
  | .two, .read => pr.pipe2fds.1
  | .two, .write => pr.pipe2fds.2

/-- The pipe ends in a table are those of the original process for the file at `i` that are
opened, each under its number. -/
def Ends (T : FdTable Desc) (i : Nat) (opened : Pipe → Dir → Bool) (fd : Pipe → Dir → Nat) : Prop :=
  ∀ n o j which dir, T n = some (.pipe o j which dir) ↔
    o = 0 ∧ j = i ∧ opened which dir = true ∧ n = fd which dir

namespace Ends
variable {T : FdTable Desc} {i j : Nat} {opened opened' : Pipe → Dir → Bool}
  {fd fd' : Pipe → Dir → Nat}

/-- Two opened ends have different numbers. -/
theorem inj (h : Ends T i opened fd) (which : Pipe) (dir : Dir) (which' : Pipe) (dir' : Dir)
    (hopen : opened which dir = true) (hopen' : opened which' dir' = true)
    (heq : fd which dir = fd which' dir') : which = which' ∧ dir = dir' := by
  have hone := (h _ 0 i which dir).mpr ⟨rfl, rfl, hopen, rfl⟩
  have htwo := (h _ 0 i which' dir').mpr ⟨rfl, rfl, hopen', rfl⟩
  rw [heq, htwo] at hone
  simpa [eq_comm] using hone

theorem close (h : Ends T i opened fd) {which₀ : Pipe} {dir₀ : Dir}
    (hopen : opened which₀ dir₀ = true)
    (hop : ∀ which dir, opened' which dir = true ↔
      opened which dir = true ∧ ¬ (which = which₀ ∧ dir = dir₀)) :
    Ends (T.close (fd which₀ dir₀)) i opened' fd := by
  intro n o j which dir
  rw [FdTable.close_eq_some, h, hop]
  constructor
  · intro hclosed
    obtain ⟨hne, ho, hj, hopen, rfl⟩ := hclosed
    exact ⟨ho, hj, ⟨hopen, fun ⟨hw, hd⟩ => hne (by rw [hw, hd])⟩, rfl⟩
  · intro hends
    obtain ⟨ho, hj, ⟨hopen', hne⟩, rfl⟩ := hends
    exact ⟨fun heq => hne (h.inj _ _ _ _ hopen' hopen heq), ho, hj, hopen', rfl⟩

/-- A descriptor that is no pipe end does not matter. -/
theorem allocate (h : Ends T i opened fd) {T' : FdTable Desc} {limit n file : Nat}
    (halloc : T.allocate limit (.input file) = some (n, T')) : Ends T' i opened fd := by
  obtain ⟨-, hfree, -, rfl⟩ := FdTable.allocate_inv halloc
  intro m o j which dir
  rw [FdTable.set_eq_some, ← h]
  constructor
  · intro hset
    rcases hset with ⟨-, heq⟩ | ⟨-, hm⟩
    · cases heq
    · exact hm
  · intro hm
    refine .inr ⟨?_, hm⟩
    intro heq
    subst heq
    rw [hfree] at hm
    cases hm

/-- `pipe` opens both ends of the pipe. -/
theorem pipe (h : Ends T i opened fd) {T' : FdTable Desc} {limit a b : Nat} {which₀ : Pipe}
    (hpipe : T.pipe limit (.pipe 0 i which₀ .read) (.pipe 0 i which₀ .write) = some (a, b, T'))
    (hop : ∀ which dir, opened' which dir = true ↔ opened which dir = true ∨ which = which₀)
    (hclosed : ∀ dir, opened which₀ dir = false)
    (hread : fd' which₀ .read = a) (hwrite : fd' which₀ .write = b)
    (hfd : ∀ which dir, which ≠ which₀ → fd' which dir = fd which dir) :
    Ends T' i opened' fd' := by
  obtain ⟨hfreea, hfreeb, hlt, rfl⟩ := FdTable.pipe_inv hpipe
  intro n o j which dir
  rw [FdTable.set_eq_some, FdTable.set_eq_some, h, hop]
  by_cases hwhich : which = which₀
  · -- the new ends: none of them was open
    subst hwhich
    have hne : a ≠ b := Nat.ne_of_lt hlt
    cases dir with
    | read =>
        simp only [hclosed, hread, Desc.pipe.injEq, true_and, and_true, or_true]
        constructor
        · intro hset
          rcases hset with ⟨-, -, -, hdir⟩ | ⟨-, ⟨rfl, rfl, rfl⟩ | ⟨-, -, -, hf, -⟩⟩
          · cases hdir
          · exact ⟨rfl, rfl, rfl⟩
          · cases hf
        · intro hend
          obtain ⟨rfl, rfl, rfl⟩ := hend
          exact .inr ⟨hne, .inl ⟨rfl, rfl, rfl⟩⟩
    | write =>
        simp only [hclosed, hwrite, Desc.pipe.injEq, true_and, and_true, or_true]
        constructor
        · intro hset
          rcases hset with ⟨rfl, rfl, rfl⟩ | ⟨-, ⟨-, -, -, hdir⟩ | ⟨-, -, -, hf, -⟩⟩
          · exact ⟨rfl, rfl, rfl⟩
          · cases hdir
          · cases hf
        · intro hend
          obtain ⟨rfl, rfl, rfl⟩ := hend
          exact .inl ⟨rfl, rfl, rfl⟩
  · -- the ends that were open keep their numbers, which were not free
    rw [hfd which dir hwhich]
    simp only [Desc.pipe.injEq, Ne.symm hwhich, hwhich, false_and, and_false, false_or, or_false]
    constructor
    · intro hends
      obtain ⟨-, -, hend⟩ := hends
      exact hend
    · intro hends
      obtain ⟨ho, hj, hopen, rfl⟩ := hends
      have hused : T (fd which dir) = some (.pipe o j which dir) :=
        (h _ _ _ _ _).mpr ⟨ho, hj, hopen, rfl⟩
      refine ⟨?_, ?_, ho, hj, hopen, rfl⟩
      · intro heq
        rw [heq, hfreeb] at hused
        cases hused
      · intro heq
        rw [heq, hfreea] at hused
        cases hused

/-- Where no end is opened, the file and the numbers do not matter. -/
theorem none (h : Ends T i opened fd) (hnone : ∀ which dir, opened which dir = false)
    (hnone' : ∀ which dir, opened' which dir = false) : Ends T j opened' fd' := by
  intro n o k which dir
  rw [h]
  simp [hnone, hnone']

end Ends

/-! ### The three kinds of processes -/

/-- Whether a process holds its descriptors. -/
def Life.holds : Life → Bool
  | .running | .undefined => true
  | .ended _ | .absent => false

/-- Whether this is code of the parent. -/
def Pc.ofParent : Pc → Bool
  | .grep _ | .pager _ | .program => false
  | _ => true

/-- The original process: it is in the code of the parent, and has exactly the ends open
that it has opened and not closed yet. -/
structure Proc.Original (pr : Proc) : Prop where
  role : pr.role = .original
  code : pr.pc.ofParent = true
  ends : Ends pr.fds pr.i pr.pc.opened pr.fd
  order : pr.pc.opened .one .write = true → pr.pipe1fds.1 < pr.pipe1fds.2

/-- What all children have in common: the pipe ends they hold are of one file. -/
structure Proc.Child (pr : Proc) : Prop where
  parent : pr.parent = some 0
  ends : ∀ o j which dir, pr.fds.Holds (.pipe o j which dir) → o = 0 ∧ j = pr.i

/-- A grep child: the write end of pipe 1 is closed by its first call. -/
structure Proc.Grep (pr : Proc) : Prop extends Proc.Child pr where
  role : pr.role = .grep
  code : (∃ g, pr.pc = .grep g) ∨ pr.pc = .program
  noWrite : ∀ n, pr.fds n = some (.pipe 0 pr.i .one .write) →
    pr.pc = .grep .closeW1 ∧ n = pr.pipe1fds.2

/-- A pager child: the write end of pipe 2 is closed by its first call, that of pipe 1
never. -/
structure Proc.Pager (pr : Proc) : Prop extends Proc.Child pr where
  role : pr.role = .pager
  code : (∃ q, pr.pc = .pager q) ∨ pr.pc = .program
  noWrite : ∀ n, pr.fds n = some (.pipe 0 pr.i .two .write) →
    pr.pc = .pager .closeW2 ∧ n = pr.pipe2fds.2
  keeps : pr.fds pr.pipe1fds.2 = some (.pipe 0 pr.i .one .write)
  apart : 0 < pr.pipe1fds.2 ∧ pr.pipe1fds.2 ≠ pr.pipe1fds.1 ∧ pr.pipe1fds.2 ≠ pr.pipe2fds.2

/-- A process that has not ended is of its kind; one that has ended holds nothing. -/
structure Proc.Sound (p : Nat) (pr : Proc) : Prop where
  alive : pr.life.holds = true → p = 0 ∧ pr.Original ∨ p ≠ 0 ∧ (pr.Grep ∨ pr.Pager)
  dead : pr.life.holds = false → pr.fds = .empty

section Kinds
variable {w : World} {p : Nat} {a : Answer} {pr pr' : Proc}

theorem Proc.Sound.of_ended (hlife : pr.life.holds = false) (hfds : pr.fds = .empty) :
    pr.Sound p where
  alive := by
    intro hlive
    rw [hlife] at hlive
    cases hlive
  dead := fun _ => hfds

theorem Proc.sound_die (e : Ending) : (pr.die e).Sound p :=
  .of_ended rfl rfl

section Original
variable (h : pr.Original) {pc : Pc} (hpc : pr.pc = pc)
include h hpc

/-- A step of the original process that touches no pipe end. -/
theorem Proc.Original.move (hrole : pr'.role = pr.role) (hfds : pr'.fds = pr.fds)
    (hi : pr'.i = pr.i) (hone : pr'.pipe1fds = pr.pipe1fds) (htwo : pr'.pipe2fds = pr.pipe2fds)
    (hopened : pr'.pc.opened = pc.opened) (hcode : pr'.pc.ofParent = true) : pr'.Original := by
  have hfd : pr'.fd = pr.fd := by
    funext which dir
    cases which <;> cases dir <;> simp only [Proc.fd, hone, htwo]
  subst hpc
  refine ⟨hrole.trans h.role, hcode, ?_, ?_⟩
  · rw [hfds, hi, hopened, hfd]
    exact h.ends
  · rw [hone, hopened]
    exact h.order

/-- A step of the original process outside the part of `pipeFile` where ends are open. -/
theorem Proc.Original.idle (hbefore : ∀ which dir, pc.opened which dir = false)
    (hrole : pr'.role = pr.role) (hfds : pr'.fds = pr.fds)
    (hafter : ∀ which dir, pr'.pc.opened which dir = false) (hcode : pr'.pc.ofParent = true) :
    pr'.Original := by
  subst hpc
  refine ⟨hrole.trans h.role, hcode, ?_, fun hopen => ?_⟩
  · rw [hfds]
    exact h.ends.none hbefore hafter
  · rw [hafter] at hopen
    cases hopen

/-- A `close` of an end by the original process. -/
theorem Proc.Original.close (which₀ : Pipe) (dir₀ : Dir) {next : Pc}
    (hopen : pc.opened which₀ dir₀ = true)
    (hop : ∀ which dir, next.opened which dir = true ↔
      pc.opened which dir = true ∧ ¬ (which = which₀ ∧ dir = dir₀))
    (hcode : next.ofParent = true) : (pr.close (pr.fd which₀ dir₀) next).Original := by
  subst hpc
  exact ⟨h.role, hcode, h.ends.close hopen hop, fun hnext => h.order ((hop _ _).mp hnext).1⟩

end Original

theorem Proc.Original.openPipe1 (h : pr.Original) (hpc : pr.pc = .pipe1) {ok : Bool}
    (hopen : pr.openPipe1 w 0 ok = pr') :
    (∃ e, pr' = pr.die e) ∨ pr'.life = pr.life ∧ pr'.Original := by
  have hclosed : ∀ which dir, pr.pc.opened which dir = false := by rw [hpc]; exact fun _ _ => rfl
  rcases Proc.orExit_cases hopen with hdie | ⟨⟨a, b, T⟩, hpipe, rfl⟩
  · exact .inl ⟨_, hdie⟩
  · refine .inr ⟨rfl, h.role, rfl, ?_, fun _ => (FdTable.pipe_inv hpipe).2.2.1⟩
    refine h.ends.pipe hpipe ?_ (hclosed _) rfl rfl ?_
    · intro which dir
      rw [hclosed]
      simp [Pc.opened]
    · intro which dir hne
      cases which with
      | one => exact absurd rfl hne
      | two => cases dir <;> rfl

theorem Proc.Original.openPipe2 (h : pr.Original) (hpc : pr.pc = .pipe2) {ok : Bool}
    (hopen : pr.openPipe2 w 0 ok = pr') :
    (∃ e, pr' = pr.die e) ∨ pr'.life = pr.life ∧ pr'.Original := by
  rcases Proc.orExit_cases hopen with hdie | ⟨⟨a, b, T⟩, hpipe, rfl⟩
  · exact .inl ⟨_, hdie⟩
  · refine .inr ⟨rfl, h.role, rfl, ?_, fun _ => h.order (by rw [hpc]; rfl)⟩
    refine h.ends.pipe hpipe ?_ ?_ rfl rfl ?_
    · rw [hpc]
      rintro (_ | _) dir <;> simp [Pc.opened]
    · rw [hpc]
      exact fun dir => rfl
    · intro which dir hne
      cases which with
      | one => cases dir <;> rfl
      | two => exact absurd rfl hne

theorem Proc.Original.openFile (h : pr.Original) (hpc : pr.pc = .open) {ok : Bool}
    (hopen : pr.openFile w ok = pr') :
    (∃ e, pr' = pr.die e) ∨ pr'.life = pr.life ∧ pr'.Original := by
  rcases Proc.orExit_cases hopen with hdie | ⟨⟨n, T⟩, halloc, rfl⟩
  · exact .inl ⟨_, hdie⟩
  · have hends := h.ends.allocate halloc
    have horder := h.order
    rw [hpc] at hends horder
    exact .inr ⟨rfl, h.role, rfl, hends, horder⟩

theorem Proc.Original.copy (h : pr.Original) {c : Copying} (hpc : pr.pc = .copy c)
    {io : Answers} : (∃ e, pr.copy io c = pr.die e) ∨
      (pr.copy io c).life = pr.life ∧ (pr.copy io c).Original := by
  unfold Proc.copy
  cases copyTurn (pr.answers io) c with
  | again c' wrstatus => exact .inr ⟨rfl, h.move hpc rfl rfl rfl rfl rfl rfl rfl⟩
  | eof => exact .inr ⟨rfl, h.move hpc rfl rfl rfl rfl rfl rfl rfl⟩
  | failed => exact .inl ⟨_, rfl⟩

/-- One call of the original process. -/
theorem Proc.Original.act (h : pr.Original) (hact : pr.act w 0 a = .goes pr') :
    (∃ e, pr' = pr.die e) ∨ pr'.life = pr.life ∧ pr'.Original := by
  have hcode := h.code
  obtain ⟨pc, hpc⟩ : ∃ pc, pr.pc = pc := ⟨_, rfl⟩
  unfold Proc.act at hact
  rw [hpc] at hact hcode
  cases pc with
  | grep | pager | program => cases hcode
  | wait3 => cases hact
  | install | enter | setjmp1 | ret =>
      obtain rfl := Act.goes.inj hact
      exact .inr ⟨rfl, h.idle hpc (fun _ _ => rfl) rfl rfl (fun _ _ => rfl) rfl⟩
  | usage =>
      obtain rfl := Act.goes.inj hact
      split_ifs
      · exact .inl ⟨_, rfl⟩
      · exact .inr ⟨rfl, h.idle hpc (fun _ _ => rfl) rfl rfl (fun _ _ => rfl) rfl⟩
  | loop =>
      obtain rfl := Act.goes.inj hact
      split_ifs
      · exact .inr ⟨rfl, h.idle hpc (fun _ _ => rfl) rfl rfl (fun _ _ => rfl) rfl⟩
      · exact .inl ⟨_, rfl⟩
  | pipe1 => exact h.openPipe1 hpc (Act.goes.inj hact)
  | pipe2 => exact h.openPipe2 hpc (Act.goes.inj hact)
  | setjmp2 =>
      obtain rfl := Act.goes.inj hact
      exact .inr ⟨rfl, h.move hpc rfl rfl rfl rfl rfl rfl rfl⟩
  | fork1 | fork2 =>
      dsimp only [Proc.fork] at hact
      split_ifs at hact
      obtain rfl := Act.goes.inj hact
      exact .inl ⟨_, rfl⟩
  | closeR1 =>
      obtain rfl := Act.goes.inj hact
      exact .inr ⟨rfl, h.close hpc .one .read rfl
        (by rintro (_ | _) (_ | _) <;> simp [Pc.opened]) rfl⟩
  | closeR2 =>
      obtain rfl := Act.goes.inj hact
      exact .inr ⟨rfl, h.close hpc .two .read rfl
        (by rintro (_ | _) (_ | _) <;> simp [Pc.opened]) rfl⟩
  | closeW2 =>
      obtain rfl := Act.goes.inj hact
      exact .inr ⟨rfl, h.close hpc .two .write rfl
        (by rintro (_ | _) (_ | _) <;> simp [Pc.opened]) rfl⟩
  | «open» => exact h.openFile hpc (Act.goes.inj hact)
  | copy c =>
      obtain rfl := Act.goes.inj hact
      exact h.copy hpc
  | closeW1 =>
      obtain rfl := Act.goes.inj hact
      exact .inr ⟨rfl, h.close hpc .one .write rfl
        (by rintro (_ | _) (_ | _) <;> simp [Pc.opened]) rfl⟩

/-! ### The children -/

/-- The write end of the pipe to grep, for the file of the process. -/
def Proc.end1 (pr : Proc) : Desc := .pipe 0 pr.i .one .write

/-- The write end of the pipe to the pager. -/
def Proc.end2 (pr : Proc) : Desc := .pipe 0 pr.i .two .write

/-- Whether `pr'` is the same process later, with fewer descriptors. -/
structure Proc.Later (pr pr' : Proc) : Prop where
  life : pr'.life = pr.life
  parent : pr'.parent = pr.parent
  role : pr'.role = pr.role
  i : pr'.i = pr.i
  one : pr'.pipe1fds = pr.pipe1fds
  two : pr'.pipe2fds = pr.pipe2fds
  fds : ∀ d, pr'.fds.Holds d → pr.fds.Holds d

theorem Proc.later_close (fd : Nat) (next : Pc) : pr.Later (pr.close fd next) :=
  ⟨rfl, rfl, rfl, rfl, rfl, rfl, fun _ => FdTable.Holds.of_close⟩

theorem Proc.dup2_cases {ok : Bool} {old new : Nat} {next : Pc}
    (h : pr.dup2 w ok old new next = pr') : (∃ e, pr' = pr.die e) ∨
      pr.Later pr' ∧ pr'.pc = next ∧ ∃ d, pr'.fds = pr.fds.set new d := by
  rcases Proc.orExit_cases h with hdie | ⟨T, hdup, rfl⟩
  · exact .inl ⟨_, hdie⟩
  · obtain ⟨d, -, hset⟩ := FdTable.dup2_inv hdup
    exact .inr ⟨⟨rfl, rfl, rfl, rfl, rfl, rfl, fun _ => FdTable.Holds.of_dup2 hdup⟩, rfl, d, hset⟩

theorem Proc.Child.later (h : pr.Child) (hlater : pr.Later pr') : pr'.Child where
  parent := hlater.parent.trans h.parent
  ends := by
    intro o j which dir hend
    rw [hlater.i]
    exact h.ends o j which dir (hlater.fds _ hend)

/-- After its first call a grep child does not hold the write end of pipe 1. -/
theorem Proc.Grep.without (h : pr.Grep) (hpc : pr.pc ≠ .grep .closeW1) :
    ¬ pr.fds.Holds pr.end1 := by
  intro hheld
  obtain ⟨n, hn⟩ := hheld
  exact hpc (h.noWrite n hn).1

theorem Proc.Grep.later (h : pr.Grep) (hlater : pr.Later pr') (hwithout : ¬ pr'.fds.Holds pr.end1)
    (hcode : (∃ g, pr'.pc = .grep g) ∨ pr'.pc = .program) : pr'.Grep where
  toChild := h.toChild.later hlater
  role := hlater.role.trans h.role
  code := hcode
  noWrite := by
    intro n hn
    rw [hlater.i] at hn
    exact absurd ⟨n, hn⟩ hwithout

/-- A call of a grep child after its first. -/
theorem Proc.Grep.next (h : pr.Grep) (hpc : pr.pc ≠ .grep .closeW1) (hlater : pr.Later pr')
    (hcode : (∃ g, pr'.pc = .grep g) ∨ pr'.pc = .program) : pr'.Grep :=
  h.later hlater (fun hend => h.without hpc (hlater.fds _ hend)) hcode

/-- One call of a grep child. -/
theorem Proc.Grep.act (h : pr.Grep) (hexec : pr.pc = .grep .exec → a.ok = true)
    (hact : pr.act w p a = .goes pr') : (∃ e, pr' = pr.die e) ∨ pr'.life = pr.life ∧ pr'.Grep := by
  rcases h.code with ⟨g, hpc⟩ | hpc
  · unfold Proc.act at hact
    rw [hpc] at hact
    obtain rfl := Act.goes.inj hact
    cases g with
    | closeW1 =>
        refine .inr ⟨rfl, h.later (pr.later_close _ _) ?_ (.inl ⟨_, rfl⟩)⟩
        intro hheld
        obtain ⟨n, hn⟩ := hheld
        obtain ⟨hne, hn⟩ := FdTable.close_eq_some.mp hn
        exact hne (h.noWrite n hn).2
    | closeR2 | closeR1 | closeW2 =>
        exact .inr ⟨rfl, h.next (by rw [hpc]; nofun) (pr.later_close _ _) (.inl ⟨_, rfl⟩)⟩
    | dupIn | dupOut =>
        rcases Proc.dup2_cases rfl with hdie | ⟨hlater, hnext, -⟩
        · exact .inl hdie
        · exact .inr ⟨hlater.life, h.next (by rw [hpc]; nofun) hlater (.inl ⟨_, hnext⟩)⟩
    | exec =>
        refine .inr ⟨rfl,
          h.next (by rw [hpc]; nofun) ⟨rfl, rfl, rfl, rfl, rfl, rfl, fun _ => id⟩ ?_⟩
        simp [Proc.grepArm, Proc.execvp, hexec hpc]
  · unfold Proc.act at hact
    rw [hpc] at hact
    cases hact

theorem Proc.Pager.without (h : pr.Pager) (hpc : pr.pc ≠ .pager .closeW2) :
    ¬ pr.fds.Holds pr.end2 := by
  intro hheld
  obtain ⟨n, hn⟩ := hheld
  exact hpc (h.noWrite n hn).1

theorem Proc.Pager.later (h : pr.Pager) (hlater : pr.Later pr')
    (hwithout : ¬ pr'.fds.Holds pr.end2) (hkeeps : pr'.fds pr.pipe1fds.2 = some pr.end1)
    (hcode : (∃ q, pr'.pc = .pager q) ∨ pr'.pc = .program) : pr'.Pager where
  toChild := h.toChild.later hlater
  role := hlater.role.trans h.role
  code := hcode
  noWrite := by
    intro n hn
    rw [hlater.i] at hn
    exact absurd ⟨n, hn⟩ hwithout
  keeps := by
    rw [hlater.one, hlater.i]
    exact hkeeps
  apart := by
    rw [hlater.one, hlater.two]
    exact h.apart

/-- One call of a pager child: none of them closes the write end of pipe 1. -/
theorem Proc.Pager.act (h : pr.Pager) (hexec : pr.pc = .pager .exec → a.ok = true)
    (hact : pr.act w p a = .goes pr') :
    (∃ e, pr' = pr.die e) ∨ pr'.life = pr.life ∧ pr'.Pager := by
  obtain ⟨hpos, hread, hwrite⟩ := h.apart
  rcases h.code with ⟨q, hpc⟩ | hpc
  · unfold Proc.act at hact
    rw [hpc] at hact
    obtain rfl := Act.goes.inj hact
    cases q with
    | closeW2 =>
        refine .inr ⟨rfl, h.later (pr.later_close _ _) ?_
          (FdTable.close_eq_some.mpr ⟨hwrite, h.keeps⟩) (.inl ⟨_, rfl⟩)⟩
        intro hheld
        obtain ⟨n, hn⟩ := hheld
        obtain ⟨hne, hn⟩ := FdTable.close_eq_some.mp hn
        exact hne (h.noWrite n hn).2
    | dupIn =>
        have hwithout := h.without (by rw [hpc]; nofun)
        rcases Proc.dup2_cases rfl with hdie | ⟨hlater, hnext, d, hset⟩
        · exact .inl hdie
        · have hkeeps : (pr.fds.set 0 d) pr.pipe1fds.2 = some pr.end1 :=
            FdTable.set_eq_some.mpr (.inr ⟨Nat.ne_of_gt hpos, h.keeps⟩)
          exact .inr ⟨hlater.life, h.later hlater (fun hend => hwithout (hlater.fds _ hend))
            (hset ▸ hkeeps) (.inl ⟨_, hnext⟩)⟩
    | closeR1 =>
        have hwithout := h.without (by rw [hpc]; nofun)
        exact .inr ⟨rfl, h.later (pr.later_close _ _) (fun hend => hwithout hend.of_close)
          (FdTable.close_eq_some.mpr ⟨hread, h.keeps⟩) (.inl ⟨_, rfl⟩)⟩
    | exec =>
        have hwithout := h.without (by rw [hpc]; nofun)
        refine .inr ⟨rfl, h.later ⟨rfl, rfl, rfl, rfl, rfl, rfl, fun _ => id⟩ hwithout h.keeps ?_⟩
        simp [Proc.pagerArm, Proc.execvp, hexec hpc]
  · unfold Proc.act at hact
    rw [hpc] at hact
    cases hact

/-! ### The births of the children -/

theorem Proc.Original.child (h : pr.Original) {child : Proc} (hfds : child.fds = pr.fds)
    (hi : child.i = pr.i) (hparent : child.parent = some 0) : child.Child where
  parent := hparent
  ends := by
    rintro o j which dir ⟨n, hn⟩
    rw [hfds] at hn
    obtain ⟨ho, hj, -⟩ := (h.ends _ _ _ _ _).mp hn
    exact ⟨ho, hj.trans hi.symm⟩

/-- The first `fork` makes a grep child and the second a pager child. -/
theorem Proc.Original.forks {parent child : Proc} (h : pr.Original)
    (hact : pr.act w 0 a = .forks parent child) :
    parent.life = pr.life ∧ parent.Original ∧ child.life = pr.life ∧
      (child.Grep ∨ child.Pager) := by
  have hends := h.ends
  rcases Proc.act_forks hact with ⟨hpc, rfl, rfl⟩ | ⟨hpc, rfl, rfl⟩
  · rw [hpc] at hends
    refine ⟨rfl, h.move hpc rfl rfl rfl rfl rfl rfl rfl, rfl, .inl ?_⟩
    refine ⟨h.child rfl rfl rfl, rfl, .inl ⟨_, rfl⟩, fun n hn => ⟨rfl, ?_⟩⟩
    exact ((hends _ _ _ _ _).mp hn).2.2.2
  · rw [hpc] at hends
    have horder := h.order (by rw [hpc]; rfl)
    refine ⟨rfl, h.move hpc rfl rfl rfl rfl rfl rfl rfl, rfl, .inr ?_⟩
    refine ⟨h.child rfl rfl rfl, rfl, .inl ⟨_, rfl⟩, fun n hn => ⟨rfl, ?_⟩, ?_, ?_, ?_, ?_⟩
    · exact ((hends _ _ _ _ _).mp hn).2.2.2
    · exact (hends _ _ _ _ _).mpr ⟨rfl, rfl, rfl, rfl⟩
    · exact Nat.zero_lt_of_lt horder
    · exact Nat.ne_of_gt horder
    · intro heq
      have hsame := hends.inj .one .write .two .write rfl rfl heq
      cases hsame.1

end Kinds

/-! ### Every run -/

/-- The step condition: every `execvp` succeeds. -/
def ExecSucceeds (s : State) : Label → Prop
  | .run p a => (s.procs p).pc = .grep .exec ∨ (s.procs p).pc = .pager .exec → a.ok = true
  | _ => True

/-- Every process is of its kind. -/
structure State.Sound (s : State) : Prop where
  procs : ∀ p, (s.procs p).Sound p
  count : 0 < s.count

section Runs
variable {w : World} {s s' : State} {p : Nat} {a : Answer}

theorem State.Sound.set (h : s.Sound) {pr : Proc} (hpr : pr.Sound p) : (s.set p pr).Sound where
  procs := by
    intro q
    by_cases hq : q = p
    · subst hq
      simpa [State.set] using hpr
    · simpa [State.set, hq] using h.procs q
  count := h.count

theorem Life.holds_running {l : Life} (h : l = .running) : l.holds = true := by
  rw [h]
  rfl

/-- One call keeps a process of its kind. -/
theorem Proc.Sound.goes {pr pr' : Proc} (h : pr.Sound p) (hrun : pr.life = .running)
    (hexec : pr.pc = .grep .exec ∨ pr.pc = .pager .exec → a.ok = true)
    (hact : pr.act w p a = .goes pr') : pr'.Sound p := by
  have hholds : ∀ {qr : Proc}, qr.life = pr.life → qr.life.holds = true := by
    intro qr hlife
    exact Life.holds_running (hlife.trans hrun)
  rcases h.alive (Life.holds_running hrun) with ⟨rfl, ho⟩ | ⟨hp, hg | hq⟩
  · rcases ho.act hact with ⟨e, rfl⟩ | ⟨hlife, ho'⟩
    · exact Proc.sound_die e
    · exact ⟨fun _ => .inl ⟨rfl, ho'⟩, fun hdead => by simp [hholds hlife] at hdead⟩
  · rcases hg.act (fun hpc => hexec (.inl hpc)) hact with ⟨e, rfl⟩ | ⟨hlife, hg'⟩
    · exact Proc.sound_die e
    · exact ⟨fun _ => .inr ⟨hp, .inl hg'⟩, fun hdead => by simp [hholds hlife] at hdead⟩
  · rcases hq.act (fun hpc => hexec (.inr hpc)) hact with ⟨e, rfl⟩ | ⟨hlife, hq'⟩
    · exact Proc.sound_die e
    · exact ⟨fun _ => .inr ⟨hp, .inr hq'⟩, fun hdead => by simp [hholds hlife] at hdead⟩

/-- A process that stands before a `fork` or before `wait3` is the original one. -/
theorem Proc.Sound.parentCode {pr : Proc} (h : pr.Sound p) (hrun : pr.life = .running)
    (hcode : pr.pc.ofParent = true) : p = 0 ∧ pr.Original := by
  rcases h.alive (Life.holds_running hrun) with ho | ⟨-, hg | hq⟩
  · exact ho
  · rcases hg.code with ⟨g, hpc⟩ | hpc <;> simp [hpc, Pc.ofParent] at hcode
  · rcases hq.code with ⟨q, hpc⟩ | hpc <;> simp [hpc, Pc.ofParent] at hcode

/-- A new process is a child of the original one. -/
theorem State.Sound.spawn (h : s.Sound) {parent child : Proc} (hparent : parent.life = .running)
    (ho : parent.Original) (hlife : child.life = .running) (hchild : child.Grep ∨ child.Pager) :
    (s.spawn 0 parent child).Sound where
  procs := by
    intro q
    simp only [State.spawn]
    by_cases hq : q = s.count
    · subst hq
      rw [Function.update_self]
      exact ⟨fun _ => .inr ⟨Nat.ne_of_gt h.count, hchild⟩,
        fun hdead => by simp [hlife, Life.holds] at hdead⟩
    · rw [Function.update_of_ne hq]
      by_cases hzero : q = 0
      · subst hzero
        rw [Function.update_self]
        exact ⟨fun _ => .inl ⟨rfl, ho⟩, fun hdead => by simp [hparent, Life.holds] at hdead⟩
      · rw [Function.update_of_ne hzero]
        exact h.procs q
  count := Nat.succ_pos _

/-- Going over to undefined behaviour changes no descriptor. -/
theorem Proc.Sound.undefined {pr : Proc} (h : pr.Sound p) (hrun : pr.life = .running) :
    ({ pr with life := .undefined } : Proc).Sound p where
  alive := by
    intro _
    rcases h.alive (Life.holds_running hrun) with ⟨hp, ho⟩ | ⟨hp, hg | hq⟩
    · exact .inl ⟨hp, ho.role, ho.code, ho.ends, ho.order⟩
    · exact .inr ⟨hp, .inl ⟨⟨hg.parent, hg.ends⟩, hg.role, hg.code, hg.noWrite⟩⟩
    · exact .inr ⟨hp, .inr
        ⟨⟨hq.parent, hq.ends⟩, hq.role, hq.code, hq.noWrite, hq.keeps, hq.apart⟩⟩
  dead := nofun

theorem State.Sound.step {l : Label} (h : s.Sound) (hok : ExecSucceeds s l)
    (hstep : step w s l = some s') : s'.Sound := by
  cases step_move hstep with
  | @goes p a pr hrun hact => exact h.set ((h.procs p).goes hrun hok hact)
  | @forks p a parent child hrun hact =>
      have hcode : (s.procs p).pc.ofParent = true := by
        rcases Proc.act_forks hact with ⟨hpc, -⟩ | ⟨hpc, -⟩ <;> rw [hpc] <;> rfl
      obtain ⟨rfl, ho⟩ := (h.procs p).parentCode hrun hcode
      obtain ⟨hparent, ho', hlife, hchild⟩ := ho.forks hact
      exact h.spawn (hparent.trans hrun) ho' (hlife.trans hrun) hchild
  | @reaps p q a hrun hpc hchild hended =>
      obtain ⟨rfl, ho⟩ := (h.procs p).parentCode hrun (by rw [hpc]; rfl)
      have hempty : (s.procs q).fds = .empty := by
        refine (h.procs q).dead ?_
        cases hq : (s.procs q).life <;> simp_all [Life.isEnded, Life.holds]
      have habsent : ({ s.procs q with life := .absent } : Proc).Sound q := .of_ended rfl hempty
      have hret : ({ s.procs 0 with pc := .ret } : Proc).Original :=
        ho.idle hpc (fun _ _ => rfl) rfl rfl (fun _ _ => rfl) rfl
      exact (h.set habsent).set
        ⟨fun _ => .inl ⟨rfl, hret⟩, fun hdead => by simp [hrun, Life.holds] at hdead⟩
  | ends => exact h.set (Proc.sound_die _)
  | undefined hrun => exact h.set ((h.procs _).undefined hrun)

theorem State.sound_start {fds : FdTable Desc} (h : Inherited fds) : (State.start fds).Sound where
  procs := by
    intro p
    simp only [State.start]
    by_cases hp : p = 0
    · subst hp
      rw [Function.update_self]
      refine ⟨fun _ => .inl ⟨rfl, rfl, rfl, ?_, ?_⟩, ?_⟩
      · intro n o j which dir
        constructor
        · intro hn
          obtain ⟨m, hm⟩ := h n _ hn
          cases hm
        · intro hends
          obtain ⟨-, -, hopen, -⟩ := hends
          cases hopen
      · intro hopen
        cases hopen
      · intro hdead
        cases hdead
    · rw [Function.update_of_ne hp]
      exact .of_ended rfl rfl
  count := Nat.one_pos

theorem sound (hs : (system w).Reach ExecSucceeds s) : s.Sound := by
  refine hs.invariant ?_ fun _ h hok hstep => h.step hok hstep
  intro s₀ hstart
  obtain ⟨fds, hfds, rfl⟩ := hstart
  exact State.sound_start hfds

/-! ### The end of grep's input -/

/-- The original process has closed `pipe1fds[1]` for the file at `k`. -/
def State.Pipe1Closed (s : State) (k : Nat) : Prop :=
  k < (s.procs 0).i ∨ k = (s.procs 0).i ∧ ((s.procs 0).pc = .wait3 ∨ (s.procs 0).pc = .ret)

/-- `p` is the child that the arm of `role` makes for the file at `k`. -/
def State.IsArm (s : State) (role : Role) (k p : Nat) : Prop :=
  (s.procs p).parent = some 0 ∧ (s.procs p).role = role ∧ (s.procs p).i = k

/-- The children for the file at `k` have reached their `execvp`. -/
def State.AtExec (s : State) (k : Nat) : Prop :=
  ∀ p, (s.IsArm .grep k p ∨ s.IsArm .pager k p) →
    (s.procs p).pc = .grep .exec ∨ (s.procs p).pc = .pager .exec ∨ (s.procs p).pc = .program

/-- Nobody holds the write end of pipe 1 for the file at `k`, and only grep that of
pipe 2. -/
def State.EndOfFile (s : State) (k : Nat) : Prop :=
  (∀ p, ¬ (s.procs p).fds.Holds (.pipe 0 k .one .write)) ∧
    ∀ p, (s.procs p).fds.Holds (.pipe 0 k .two .write) → s.IsArm .grep k p

/-- Past the `close`, the original process holds no write end of a file's pipes. -/
theorem Proc.Original.closed {pr : Proc} (h : pr.Original) {k : Nat} {which : Pipe}
    (hk : k < pr.i ∨ k = pr.i ∧ (pr.pc = .wait3 ∨ pr.pc = .ret)) :
    ¬ pr.fds.Holds (.pipe 0 k which .write) := by
  intro hheld
  obtain ⟨n, hn⟩ := hheld
  obtain ⟨-, hi, hopen, -⟩ := (h.ends _ _ _ _ _).mp hn
  rcases hk with hlt | ⟨-, hpc | hpc⟩
  · omega
  · rw [hpc] at hopen
    cases hopen
  · rw [hpc] at hopen
    cases hopen

/-- **When grep's input has an end**: in every state reached, once the original process has
closed `pipe1fds[1]` for a file and the file's children have reached their `execvp`, the
pager for the file must be dead. -/
theorem end_of_file_iff {k : Nat} (hs : (system w).Reach ExecSucceeds s)
    (hclosed : s.Pipe1Closed k) (hexec : s.AtExec k) :
    s.EndOfFile k ↔ ∀ p, s.IsArm .pager k p → (s.procs p).life.holds = false := by
  have hsound := sound hs
  constructor
  · rintro ⟨hnobody, -⟩ p ⟨-, hrole, rfl⟩
    by_contra hholds
    rcases (hsound.procs p).alive (by simpa using hholds) with ⟨rfl, ho⟩ | ⟨-, hg | hq⟩
    · rw [ho.role] at hrole
      cases hrole
    · rw [hg.role] at hrole
      cases hrole
    · exact hnobody p ⟨_, hq.keeps⟩
  · intro hdead
    have hends : ∀ p which, (s.procs p).fds.Holds (.pipe 0 k which .write) →
        s.IsArm .grep k p ∧ (s.procs p).Grep := by
      intro p which hend
      by_cases hholds : (s.procs p).life.holds = true
      · rcases (hsound.procs p).alive hholds with ⟨rfl, ho⟩ | ⟨-, hg | hq⟩
        · exact absurd hend (ho.closed hclosed)
        · obtain ⟨-, hi⟩ := hg.ends _ _ _ _ hend
          exact ⟨⟨hg.parent, hg.role, hi.symm⟩, hg⟩
        · obtain ⟨-, hi⟩ := hq.ends _ _ _ _ hend
          rw [hdead p ⟨hq.parent, hq.role, hi.symm⟩] at hholds
          cases hholds
      · rw [(hsound.procs p).dead (by simpa using hholds)] at hend
        obtain ⟨n, hn⟩ := hend
        cases hn
    refine ⟨fun p hend => ?_, fun p hend => (hends p _ hend).1⟩
    obtain ⟨harm, hg⟩ := hends p _ hend
    have hpc := hexec p (.inl harm)
    rw [← harm.2.2] at hend
    refine hg.without ?_ hend
    intro heq
    simp [heq] at hpc

end Runs

/-! ### A pipeline that does not end -/

/-- `catgrepmore p f` with an empty file `f`. -/
def oneFile : World := ⟨[['c'], ['p'], ['f']], fun _ => [], 16⟩

/-- The descriptors that a shell provides. -/
def standardFds : FdTable Desc := fun n => if n < 3 then some (.external n) else none

/-- Every process goes as far as it can before the next one moves. -/
def oneFileRun : List Label :=
  (List.replicate 16 0 ++ List.replicate 6 1 ++ List.replicate 3 2).map fun p =>
    .run p ⟨true, ⟨some 1, some 1, none⟩, 0⟩

theorem inherited_standardFds : Inherited standardFds := by
  intro n d hd
  unfold standardFds at hd
  split_ifs at hd
  exact ⟨n, (Option.some.inj hd).symm⟩

/-- The original process waits for grep, its children are at their `execvp`, and the pager
holds the write end of grep's input. -/
def State.Stuck (s : State) : Prop :=
  s.count = 3 ∧ (s.procs 0).i = 0 ∧ (s.procs 0).pc = .wait3 ∧
    (∀ p < 3, (s.procs p).parent = some 0 →
      (s.procs p).pc = .grep .exec ∨ (s.procs p).pc = .pager .exec) ∧
    (s.procs 2).fds 4 = some (.pipe 0 0 .one .write)

instance (s : State) : Decidable s.Stuck := inferInstanceAs (Decidable (_ ∧ _ ∧ _ ∧ _ ∧ _))

theorem pager_holds : ∃ s, (system oneFile).Reach ExecSucceeds s ∧ s.Pipe1Closed 0 ∧ s.AtExec 0 ∧
    (s.procs 2).fds 4 = some (.pipe 0 0 .one .write) := by
  have hok : ∀ l ∈ oneFileRun, ∀ s : State, ExecSucceeds s l := by
    intro l hl s
    obtain ⟨p, -, rfl⟩ := List.mem_map.mp hl
    exact fun _ => rfl
  obtain ⟨s, hs, hcheck⟩ := System.reach_of_exec (system oneFile) ExecSucceeds (step oneFile)
    (fun _ _ => true) (fun h => h) ⟨standardFds, inherited_standardFds, rfl⟩ oneFileRun
    (fun s => decide s.Stuck)
    (fun l hl a _ => hok l hl a) (by decide +kernel)
  obtain ⟨hcount, hi, hpc, hexec, hend⟩ := of_decide_eq_true hcheck
  refine ⟨s, hs, .inr ⟨hi.symm, .inl hpc⟩, fun p hp => ?_, hend⟩
  have hparent : (s.procs p).parent = some 0 := hp.elim (fun h => h.1) fun h => h.1
  have hlt : p < 3 := by
    by_contra hge
    rw [unused hs (by omega)] at hparent
    cases hparent
  rcases hexec p hlt hparent with hgrep | hpager
  · exact .inl hgrep
  · exact .inr (.inl hpager)

/-- The state of a pipeline that does not end. -/
theorem end_of_file_iff_waiting : ∃ s, (system oneFile).Reach ExecSucceeds s ∧
    (s.EndOfFile 0 ↔ ∀ p, s.IsArm .pager 0 p → (s.procs p).life.holds = false) := by
  obtain ⟨s, hs, hclosed, hexec, -⟩ := pager_holds
  exact ⟨s, hs, end_of_file_iff hs hclosed hexec⟩

/-- **Grep's input does not end** with the file: the pager holds the write end of pipe 1. -/
theorem pager_blocks_grep : ¬ ∀ (w : World) (s : State) (k : Nat),
    (system w).Reach ExecSucceeds s → s.Pipe1Closed k → s.AtExec k → s.EndOfFile k := by
  intro hall
  obtain ⟨s, hs, hclosed, hexec, hend⟩ := pager_holds
  exact (hall _ s 0 hs hclosed hexec).1 2 ⟨4, hend⟩

end Ece357.CatGrepMore
