import Ece357.Sched.Adjstack
import Ece357.Sched.Records

/-!
# Ece357.Sched.ChildStack

**What `sched_fork` does to the stacks.** It copies the stack of the parent, has `adjstack`
adjust the frame pointers in the copy, and moves the stack and frame pointers that `savectx`
has saved for the child. If the chain of frame pointers ends in a word that leads out of the
stack, the child gets the chain of its parent, translated (`child_chain`).

The chain that `sched_init` starts ends in the address just behind the stack. `adjstack` takes
that for one more link, and reads the word there, which is not the child's (`adjstack_overruns`).

The three resources of a `sched_fork` are tested for as its record of failures says, except
that a failure of `mmap` is not noticed: the copy then goes to the address `MAP_FAILED`
(`fork_atomic_iff`).
-/

namespace Ece357.Sched

open Ece357.Machine State

/-! ### The stacks in `sched_fork` -/

/-- `savectx`, entered with the registers `r`: what it stores. -/
def saveRegs (m : Memory) (r : Regs) : Regs := { r with sp := r.sp + 8, pc := m r.sp }

/-- `memcpy` and `n` turns of the loop of `adjstack`, which returns to `ret`. -/
def adjustCopy (m : Memory) (r : Regs) (stack newsp ret : Word) (n : Nat) : Adjust :=
  let stackDiff := newsp - stack
  let m := memcpy m newsp stack stackSize
  adjTurns newsp (newsp + BitVec.ofNat 64 stackSize) stackDiff n (adjstack m r ret stackDiff)

/-- What `sched_fork` leaves of the stacks, and the registers saved for the child. -/
structure Copied where
  mem : Memory
  ctx : Regs
  /-- Ghost: the accesses of the loop in `adjstack`. -/
  accesses : List Access

/-- The part of `sched_fork` from the `memcpy` on that is about the stacks, with the registers
`r` and the addresses that its two calls return to; `none` if `adjstack` is still in its loop
after `n` turns. -/
def copyStack (m : Memory) (r : Regs) (stack newsp ret ret' : Word) (n : Nat) : Option Copied :=
  let stackDiff := newsp - stack
  let l := adjustCopy m r stack newsp ret n
  if l.broken then
    let (m, r) := call l.mem r ret'
    let ctx := saveRegs m r
    some { mem := m, accesses := l.accesses,
           ctx := { ctx with sp := ctx.sp + stackDiff, bp := ctx.bp + stackDiff } }
  else none

/-- The stacks of a task and of the child it creates: they do not overlap, and what the task
pushes when it calls a function, with the registers `r`, is not in the stack of the child. -/
structure Stacks (A B : Area stackSize) (r : Regs) : Prop where
  disjoint : A.Disjoint B
  ret : ¬ B.Mem (r.sp - 8)
  frame : ¬ B.Mem (r.sp - 8 - 8)

section Copy
variable {A B : Area stackSize} {r : Regs} {m : Memory} {last : Word} {rest : List Word}

/-- `adjstack` starts at the copy of the frame of `sched_fork`. -/
theorem adjstack_p (m : Memory) (r : Regs) (ret adj : Word) :
    (adjstack m r ret adj).p = r.bp + adj := by
  show (m.store (r.sp - 8) ret).store (r.sp - 8 - 8) r.bp (r.sp - 8 - 8) + adj = r.bp + adj
  rw [Memory.store_self]

/-- The call of `adjstack` changes nothing in the child's stack. -/
theorem adjstack_mem (h : Stacks A B r) (m : Memory) (ret adj : Word) {a : Word} (ha : B.Mem a) :
    (adjstack m r ret adj).mem a = m a := by
  have hret : a ≠ r.sp - 8 := fun heq => h.ret (heq ▸ ha)
  have hframe : a ≠ r.sp - 8 - 8 := fun heq => h.frame (heq ▸ ha)
  show (m.store (r.sp - 8) ret).store (r.sp - 8 - 8) r.bp a = m a
  rw [Memory.store_of_ne _ hframe, Memory.store_of_ne _ hret]

/-- A chain only depends on the words of the area. -/
theorem FrameChain.congr_mem {size : Nat} {A : Area size} {m m' : Memory} {b : Word}
    (h : FrameChain m A last b rest) (heq : ∀ a, A.Mem a → m' a = m a) :
    FrameChain m' A last b rest := by
  induction h with
  | foot hb hlast => exact .foot hb ((heq _ hb).trans hlast)
  | link hb hlt hbc h ih => exact .link hb hlt ((heq _ hb).trans hbc) ih

theorem FrameChain.all_mem {size : Nat} {A : Area size} {b : Word}
    (h : FrameChain m A last b rest) : ∀ c ∈ b :: rest, A.Mem c := by
  induction h with
  | foot hb => simpa using hb
  | link hb hlt hbc h ih => exact List.forall_mem_cons.mpr ⟨hb, ih⟩

/-- Before its last word, the loop has adjusted the chain as it should. -/
theorem adjustCopy_walk (h : Stacks A B r) (hchain : FrameChain m A last r.bp rest) (ret : Word) :
    Walked A B last r.bp rest (adjstack (memcpy m B.base A.base stackSize) r ret (A.shift B))
      (adjustCopy m r A.base B.base ret rest.length) := by
  refine adjTurns_walk _ ?_ (adjstack_p ..) rfl
  refine hchain.congr_mem fun a ha => ?_
  rw [adjstack_mem h _ _ _ (Area.mem_translate.mpr ha), Area.memcpy_mem m ha]

/-- **The chain of the child**, for a chain of any length: it is the chain of the parent,
translated, down to the word that ends it; the other words of the child's stack are as they
were copied; the loop writes nowhere else; and the registers saved for the child are those of
the parent, but for the stack pointer and the frame pointer, which are translated too. -/
theorem child_chain (h : Stacks A B r) (hchain : FrameChain m A last r.bp rest)
    (hlast : ¬ A.Within last) (ret ret' : Word) :
    ∃ out, (∀ n, rest.length < n → copyStack m r A.base B.base ret ret' n = some out) ∧
      FrameChain out.mem B last (r.bp + A.shift B) (rest.map (· + A.shift B)) ∧
      (∀ a, B.Mem a → (∀ c ∈ links r.bp rest, a ≠ c + A.shift B) →
        out.mem a = memcpy m B.base A.base stackSize a) ∧
      (∀ a, .write a ∈ out.accesses → B.Mem a) ∧
      out.ctx = { r with bp := r.bp + A.shift B, sp := r.sp + A.shift B, pc := ret' } := by
  have hwalk := adjustCopy_walk h hchain ret
  obtain ⟨l, hl⟩ : ∃ l, l = adjustCopy m r A.base B.base ret rest.length := ⟨_, rfl⟩
  rw [← hl] at hwalk
  have hturn := adjTurn_leaves (B := B) hwalk.broken hwalk.foot hlast
  -- the loop is left after one more turn, and stays left
  have hend : ∀ n, rest.length < n → adjustCopy m r A.base B.base ret n =
      { l with broken := true, accesses := .read l.p :: l.accesses } := by
    intro n hn
    obtain ⟨k, rfl⟩ : ∃ k, n = k + (1 + rest.length) := ⟨n - (1 + rest.length), by omega⟩
    unfold adjustCopy at hl ⊢
    rw [adjTurns_add, adjTurns_add, ← hl, adjTurns_one]
    show adjTurns _ _ _ k (adjTurn B.base B.limit (A.shift B) l) = _
    rw [hturn]
    exact adjTurns_broken rfl k
  have hother : ∀ a, B.Mem a → l.mem.store (r.sp - 8) ret' a = l.mem a := by
    intro a ha
    have hne : a ≠ r.sp - 8 := fun heq => h.ret (heq ▸ ha)
    exact Memory.store_of_ne _ hne _
  refine ⟨⟨l.mem.store (r.sp - 8) ret',
    { r with bp := r.bp + A.shift B, sp := r.sp + A.shift B, pc := ret' },
    .read l.p :: l.accesses⟩, fun n hn => ?_, ?_, fun a ha hlinks => ?_, fun a ha => ?_, rfl⟩
  · unfold copyStack
    simp only [hend n hn, if_true, call, saveRegs, Memory.store_self, sub_add_cancel]
    rfl
  · exact hwalk.chain.congr_mem hother
  · calc l.mem.store (r.sp - 8) ret' a = l.mem a := hother a ha
      _ = (adjstack (memcpy m B.base A.base stackSize) r ret (A.shift B)).mem a :=
        hwalk.other a hlinks
      _ = memcpy m B.base A.base stackSize a := adjstack_mem h _ _ _ ha
  · rcases List.mem_cons.mp ha with heq | ha
    · cases heq
    · rcases hwalk.accesses _ ha with hnone | ⟨c, hc, haddr⟩
      · cases hnone
      · obtain rfl : a = c + A.shift B := haddr
        exact Area.mem_translate.mpr (hchain.all_mem c (List.dropLast_subset _ hc))

/-- Two stacks for examples. -/
def parentArea : Area stackSize := ⟨0x10000, by decide +kernel⟩

def childArea : Area stackSize := ⟨0x40000, by decide +kernel⟩

/-- A chain of two frames, the last of which holds NULL. -/
theorem child_chain_two : ∃ out : Copied,
    out.mem (0x10100 + 0x30000) = 0x10200 + 0x30000 ∧ out.ctx.bp = 0x10100 + 0x30000 := by
  let r : Regs := ⟨0, 0x10100, 0, 0, 0, 0, 0x100c0, 0⟩
  let m : Memory := fun a => if a = 0x10100 then 0x10200 else 0
  have hstacks : Stacks parentArea childArea r :=
    ⟨by decide +kernel, by decide +kernel, by decide +kernel⟩
  have hchain : FrameChain m parentArea 0 r.bp [0x10200] :=
    .link (by decide +kernel) (by decide) rfl (.foot (by decide +kernel) rfl)
  have hshift : parentArea.shift childArea = 0x30000 := by decide +kernel
  obtain ⟨out, -, htranslated, -, -, hctx⟩ := child_chain hstacks hchain (by decide +kernel) 0 0
  rw [hshift] at htranslated hctx
  exact ⟨out, htranslated.link_eq, congrArg Regs.bp hctx⟩

/-! ### A chain that ends behind the stack -/

/-- A word that holds the address just behind the stack is adjusted like a link, and the next
one to be read is the one just behind the stack of the child. -/
theorem adjustCopy_limit (h : Stacks A B r) (hchain : FrameChain m A A.limit r.bp rest)
    (ret : Word) :
    .read B.limit ∈ (adjustCopy m r A.base B.base ret (1 + (1 + rest.length))).accesses := by
  have hwalk := adjustCopy_walk h hchain ret
  obtain ⟨l, hl⟩ : ∃ l, l = adjustCopy m r A.base B.base ret rest.length := ⟨_, rfl⟩
  rw [← hl] at hwalk
  have hin : A.Within A.limit := Area.within_iff.mpr (by
    rw [Area.limit, add_sub_cancel_left, BitVec.toNat_ofNat]
    exact Nat.mod_le ..)
  have hturn := adjTurn_link (B := B) hwalk.broken hwalk.foot hin
  have hgoes : (adjTurn B.base B.limit (A.shift B) l).broken = false := by
    rw [hturn]
    exact hwalk.broken
  have hp : (adjTurn B.base B.limit (A.shift B) l).p = B.limit := by
    rw [hturn]
    exact Area.limit_translate
  unfold adjustCopy at hl ⊢
  rw [adjTurns_add, adjTurns_add, ← hl, adjTurns_one]
  have hread := @adjTurn_reads B.base B.limit (A.shift B) _ hgoes
  rw [hp] at hread
  exact hread

/-- However long the loop runs, it only accesses words of the child's stack. -/
def StaysInside (A B : Area stackSize) (m : Memory) (r : Regs) (ret : Word) : Prop :=
  ∀ n, ∀ x ∈ (adjustCopy m r A.base B.base ret n).accesses,
    B.base ≤ x.addr ∧ x.addr ≤ B.limit - 8

theorem not_staysInside {ret : Word} {n : Nat}
    (h : .read B.limit ∈ (adjustCopy m r A.base B.base ret n).accesses) :
    ¬ StaysInside A B m r ret := by
  intro hinside
  have hle := (hinside n _ h).2
  have hlimit := B.limit_toNat
  have hfits := B.fits
  rw [Access.addr, BitVec.le_def, BitVec.toNat_sub, hlimit] at hle
  unfold stackSize at hle hfits
  have height : (8 : Word).toNat = 8 := rfl
  omega

/-- **`adjstack` leaves the stack of the child** on every stack that the scheduler can build: a
chain of any length that ends in the address just behind the stack. -/
theorem adjstack_overruns (h : Stacks A B r) (hchain : FrameChain m A A.limit r.bp rest)
    (ret : Word) : ¬ StaysInside A B m r ret :=
  not_staysInside (adjustCopy_limit h hchain ret)

/-- The stack of the initial process in `init_fn`: one frame, right below the end. -/
theorem initial_chain : FrameChain (fun _ => 0x20000) parentArea parentArea.limit 0x1fff8 [] :=
  .foot (by decide +kernel) (by decide +kernel)

theorem initial_stacks : Stacks parentArea childArea ⟨0, 0x1fff8, 0, 0, 0, 0, 0x1ff00, 0⟩ :=
  ⟨by decide +kernel, by decide +kernel, by decide +kernel⟩

theorem adjstack_overruns_initial : ¬ StaysInside parentArea childArea (fun _ => 0x20000)
    ⟨0, 0x1fff8, 0, 0, 0, 0, 0x1ff00, 0⟩ 0 :=
  adjstack_overruns initial_stacks initial_chain 0

/-- **A word too far**: the initial process calls `sched_fork` in `init_fn`. -/
theorem adjstack_reads_behind : ¬ ∀ (A B : Area stackSize) (r : Regs) (m : Memory)
    (rest : List Word) (ret : Word), Stacks A B r → FrameChain m A A.limit r.bp rest →
    StaysInside A B m r ret := by
  intro hall
  exact not_staysInside (adjustCopy_limit initial_stacks initial_chain 0)
    (hall _ _ _ _ _ 0 initial_stacks initial_chain)

end Copy

/-! ### The call as a whole -/

/-- What a call of `sched_fork` has come to when it returns to its caller. -/
structure ForkOut where
  state : State
  mem : Memory
  /-- The registers saved for the child, if there is one. -/
  ctx : Option Regs

/-- `sched_fork` with all it does to memory; `none` if it faults, or if `adjstack` is still in
its loop after `n` turns. -/
def schedForkStacks (mem : Option (Ptr × SchedProc)) (newsp : Word) (r : Regs) (ret ret' : Word)
    (n : Nat) (s : State) (m : Memory) : Option ForkOut :=
  match schedFork mem newsp.toNat s with
  | none => none
  | some s' =>
      if mem = none ∨ nextpid s < 0 then some { state := s', mem := m, ctx := none }
      else
        (copyStack m r (BitVec.ofNat 64 s.cur.stack) newsp ret ret' n).map fun out =>
          { state := s', mem := out.mem, ctx := some out.ctx }

/-- There is no pid left. -/
def State.Full (s : State) : Prop := ∀ i < schedNproc, s.procs i ≠ none

/-- From `s` to `s'`, the table, the records, the counters and the current task are the same. -/
structure State.Unchanged (s s' : State) : Prop where
  procs : s'.procs = s.procs
  record : ∀ p, s.live p = true ∨ s.InTable p → s'.heap p = s.heap p
  live : s'.live = s.live
  current : s'.current = s.current
  procCount : s'.procCount = s.procCount
  tickCount : s'.tickCount = s.tickCount
  mapped : s'.mapped = s.mapped

section Fork
variable {s s' : State} {mem : Option (Ptr × SchedProc)} {newsp : Word} {r : Regs}
  {ret ret' : Word} {n : Nat} {m : Memory}

/-- One of the three resources of a `sched_fork` is not to be had. -/
def Lacking (mem : Option (Ptr × SchedProc)) (newsp : Word) (s : State) : Prop :=
  mem = none ∨ s.Full ∨ newsp.toNat = mapFailed

/-- Without one of its resources, the call returns -1 and changes nothing; it returns a positive
pid only if it has them all. -/
structure ForkAtomic (mem : Option (Ptr × SchedProc)) (newsp : Word) (r : Regs) (ret ret' : Word)
    (n : Nat) (s : State) (m : Memory) : Prop where
  fails : Lacking mem newsp s → ∃ s', schedForkStacks mem newsp r ret ret' n s m =
    some { state := s', mem := m, ctx := none } ∧ s'.returned = some (-1) ∧ s.Unchanged s'
  obtained : ∀ out v, schedForkStacks mem newsp r ret ret' n s m = some out →
    out.state.returned = some v → 0 < v → ¬ Lacking mem newsp s

theorem nextpid_neg_iff (s : State) : nextpid s < 0 ↔ s.Full := by
  rcases nextpid_cases s with ⟨hnone, hfull⟩ | ⟨i, hi, hsome, hfree, -⟩
  · exact ⟨fun _ => hfull, fun _ => by omega⟩
  · exact ⟨fun hneg => by omega, fun hfull => absurd hfree (hfull i hi)⟩

/-- Without memory for the record, or without a pid, the call gives up and undoes what it has
done. -/
theorem schedFork_fails (h : Placed s) {newsp : Addr} (hok : allocOk s mem newsp = true)
    (hwhy : mem = none ∨ s.Full) : ∃ s', schedFork mem newsp s = some s' ∧
      s'.returned = some (-1) ∧ s.Unchanged s' := by
  cases mem with
  | none => exact ⟨_, rfl, rfl, rfl, fun _ _ => rfl, rfl, rfl, rfl, rfl, rfl⟩
  | some a =>
      obtain ⟨z, content⟩ := a
      have hfull : s.Full := hwhy.resolve_left (by simp)
      have hneg : nextpid (s.sigBlock.malloc z content) < 0 := (nextpid_neg_iff s).mpr hfull
      simp only [allocOk, Bool.and_eq_true, Bool.not_eq_true'] at hok
      refine ⟨_, if_pos hneg, rfl, rfl, fun p hp => ?_, ?_, rfl, rfl, rfl, rfl⟩
      · have hpz : p ≠ z := by
          intro hpz
          rcases hp with hlive | hin
          · rw [hpz, hok.1] at hlive
            cases hlive
          · exact h.ne_of_free hin hok.1 hpz
        simp [free, malloc, sigBlock, State.log, hpz]
      · simp [free, malloc, sigBlock, State.log, ← hok.1]

/-- With both, a failure of `mmap` goes unnoticed, up to the copy. -/
theorem schedFork_faults {z : Ptr} {content : SchedProc} (hfull : ¬ s.Full) :
    schedFork (some (z, content)) mapFailed s = none := by
  have hpos : ¬ nextpid (s.sigBlock.malloc z content) < 0 := fun hneg =>
    hfull ((nextpid_neg_iff s).mp hneg)
  unfold schedFork
  simp only [hpos, if_false, Nat.not_lt_zero, if_true]

section Call
variable (r : Regs) (ret ret' : Word) (n : Nat) (m : Memory)

theorem schedForkStacks_fails (h : Placed s) (hok : allocOk s mem newsp.toNat = true)
    (hwhy : mem = none ∨ s.Full) : ∃ s', schedForkStacks mem newsp r ret ret' n s m =
      some { state := s', mem := m, ctx := none } ∧ s'.returned = some (-1) ∧ s.Unchanged s' := by
  obtain ⟨s', hs', hreturned, hsame⟩ := schedFork_fails h hok hwhy
  have hfirst : mem = none ∨ nextpid s < 0 := hwhy.imp_right (nextpid_neg_iff s).mpr
  refine ⟨s', ?_, hreturned, hsame⟩
  unfold schedForkStacks
  rw [hs']
  exact if_pos hfirst

theorem not_forkAtomic (hmap : newsp.toNat = mapFailed) (hhas : ¬ (mem = none ∨ s.Full)) :
    ¬ ForkAtomic mem newsp r ret ret' n s m := by
  intro h
  obtain ⟨hmem, hfull⟩ := not_or.mp hhas
  obtain ⟨⟨z, content⟩, rfl⟩ := Option.ne_none_iff_exists'.mp hmem
  obtain ⟨s', hs', -⟩ := h.fails (.inr (.inr hmap))
  unfold schedForkStacks at hs'
  rw [hmap, schedFork_faults hfull] at hs'
  cases hs'

/-- **When a failing `sched_fork` is harmless**: exactly if what fails is not the `mmap`, or
something has failed before it. -/
theorem fork_atomic_iff (hreach : sched.Reach System.any s)
    (hok : allocOk s mem newsp.toNat = true) : ForkAtomic mem newsp r ret ret' n s m ↔
      (newsp.toNat = mapFailed → mem = none ∨ s.Full) := by
  have hgiveUp := schedForkStacks_fails r ret ret' n m (placed hreach) hok
  constructor
  · intro h hmap
    by_contra hhas
    exact not_forkAtomic r ret ret' n m hmap hhas h
  · intro hcond
    have hearly : Lacking mem newsp s → mem = none ∨ s.Full := by
      intro hlack
      rcases hlack with hmem | hfull | hmap
      · exact .inl hmem
      · exact .inr hfull
      · exact hcond hmap
    refine ⟨fun hlack => hgiveUp (hearly hlack), fun out v hout hv hpos hlack => ?_⟩
    obtain ⟨s', hs', hreturned, -⟩ := hgiveUp (hearly hlack)
    obtain rfl := Option.some.inj (hs'.symm.trans hout)
    obtain rfl := Option.some.inj (hreturned.symm.trans hv)
    omega

end Call

end Fork

/-- The initial process, with its stack at 0, calls `sched_fork`, which returns 2: it has had all
that it needs. -/
theorem fork_atomic_iff_start : ∃ out : ForkOut,
    schedForkStacks (some (101, blank)) 0x40000 ⟨0, 0x100, 0, 0, 0, 0, 0xc0, 0⟩ 0 0 2 start
      (fun a => if a = 0x100 then 0x200 else if a = 0x200 then 0x90000 else 0) = some out ∧
    out.state.returned = some 2 ∧ ¬ Lacking (some (101, blank)) 0x40000 start := by
  let r : Regs := ⟨0, 0x100, 0, 0, 0, 0, 0xc0, 0⟩
  let m : Memory := fun a => if a = 0x100 then 0x200 else if a = 0x200 then 0x90000 else 0
  let A : Area stackSize := ⟨0, by decide +kernel⟩
  have hatomic : ForkAtomic (some (101, blank)) 0x40000 r 0 0 2 start m :=
    (fork_atomic_iff r 0 0 2 m (.init start_initial) (by decide +kernel)).mpr fun hmap =>
      absurd hmap (by decide +kernel)
  have hstacks : Stacks A childArea r := ⟨by decide +kernel, by decide +kernel, by decide +kernel⟩
  have hchain : FrameChain m A 0x90000 r.bp [0x200] :=
    .link (by decide +kernel) (by decide) rfl (.foot (by decide +kernel) rfl)
  obtain ⟨copied, hcopy, -⟩ := child_chain hstacks hchain (by decide +kernel) 0 0
  have hfork : (schedFork (some (101, blank)) (0x40000 : Word).toNat start).any
      (fun s' => s'.returned = some 2) = true := by decide +kernel
  obtain ⟨s', hs', hreturned⟩ := (Option.any_eq_true _ _).mp hfork
  rw [decide_eq_true_eq] at hreturned
  have hnew : ¬ ((some (101, blank) : Option (Ptr × SchedProc)) = none ∨ nextpid start < 0) := by
    decide +kernel
  have hout : schedForkStacks (some (101, blank)) 0x40000 r 0 0 2 start m =
      some { state := s', mem := copied.mem, ctx := some copied.ctx } := by
    unfold schedForkStacks
    rw [hs']
    dsimp only
    have hbase : BitVec.ofNat 64 start.cur.stack = A.base := by decide +kernel
    have hcopy : copyStack m r A.base 0x40000 0 0 2 = some copied := hcopy 2 (by decide)
    rw [if_neg hnew, hbase, hcopy, Option.map_some]
  exact ⟨_, hout, hreturned, hatomic.obtained _ 2 hout hreturned (by decide)⟩

/-- **A failure that goes unnoticed**: the initial process calls `sched_fork`, and `mmap`
returns `MAP_FAILED`. -/
theorem fork_not_atomic : ¬ ∀ (s : State) (mem : Option (Ptr × SchedProc)) (newsp : Word)
    (r : Regs) (ret ret' : Word) (n : Nat) (m : Memory), sched.Reach System.any s →
    allocOk s mem newsp.toNat = true → ForkAtomic mem newsp r ret ret' n s m := by
  intro hall
  have hhas : ¬ (some (101, blank) = none ∨ start.Full) := by
    intro hlack
    rcases hlack with hmem | hfull
    · cases hmem
    · exact hfull 1 (by simp [schedNproc]) (by decide +kernel)
  exact not_forkAtomic ⟨0, 0, 0, 0, 0, 0, 0, 0⟩ 0 0 0 (fun _ => 0) (by decide +kernel) hhas
    (hall start (some (101, blank)) 0xffffffffffffffff _ 0 0 0 _ (.init start_initial)
      (by decide +kernel))

end Ece357.Sched
