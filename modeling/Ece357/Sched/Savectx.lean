import Ece357.Machine.X86
import Ece357.Sched.ChildStack

/-!
# Ece357.Sched.Savectx

**Saving and restoring a context**, `ps9/savectx64.S`, instruction by instruction.

`savectx` stores what the scheduler's `saveRegs` says, and returns 0 to its caller
(`savectx_returns`). `restorectx` does not return: it goes on with the registers of the buffer
(`restorectx_jumps`). So a call of `savectx` returns again whenever its buffer is restored, with
another value (`savectx_returns_again`), and on another stack if the buffer has been moved there
(`child_starts`).
-/

namespace Ece357.Sched

open Ece357.Machine X86

/-! ### The offsets of `jmpbuf-offsets64.h`, in words -/

def jbBx : Nat := 0

def jbBp : Nat := 1

def jb12 : Nat := 2

def jb13 : Nat := 3

def jb14 : Nat := 4

def jb15 : Nat := 5

def jbSp : Nat := 6

def jbPc : Nat := 7

/-- The size of the buffer in bytes. -/
def jbSize : Nat := 8 * 8

/-! ### The two routines -/

/-- `savectx` up to its `retq`. -/
def savectxBody : List Instr :=
  [.store .rbx (jbBx * 8) .rdi,
   .store .rbp (jbBp * 8) .rdi,
   .store .r12 (jb12 * 8) .rdi,
   .store .r13 (jb13 * 8) .rdi,
   .store .r14 (jb14 * 8) .rdi,
   .store .r15 (jb15 * 8) .rdi,
   .leaq 8 .rsp .rdx,
   .store .rdx (jbSp * 8) .rdi,
   .load 0 .rsp .rax,
   .store .rax (jbPc * 8) .rdi,
   .xorl .rax .rax]

/-- `savectx` -/
def savectxCode : List Instr := savectxBody ++ [.retq]

/-- `restorectx` up to its jump. -/
def restorectxBody : List Instr :=
  [.load (jbPc * 8) .rdi .rdx,
   .load (jbBx * 8) .rdi .rbx,
   .load (jb12 * 8) .rdi .r12,
   .load (jb13 * 8) .rdi .r13,
   .load (jb14 * 8) .rdi .r14,
   .load (jb15 * 8) .rdi .r15,
   .load (jbBx * 8) .rdi .rbx,
   .load (jbBp * 8) .rdi .rbp,
   .load (jbSp * 8) .rdi .rsp,
   .movl .rsi .rax]

/-- `restorectx` -/
def restorectxCode : List Instr := restorectxBody ++ [.jmpq .rdx]

/-! ### Contexts in memory -/

/-- The registers in the buffer at `buf`. -/
def ctxAt (m : Bytes) (buf : Word) : Regs where
  bx := m.word (Bytes.slot buf jbBx)
  bp := m.word (Bytes.slot buf jbBp)
  r12 := m.word (Bytes.slot buf jb12)
  r13 := m.word (Bytes.slot buf jb13)
  r14 := m.word (Bytes.slot buf jb14)
  r15 := m.word (Bytes.slot buf jb15)
  sp := m.word (Bytes.slot buf jbSp)
  pc := m.word (Bytes.slot buf jbPc)

/-- The registers that a function keeps for its caller, and where the processor is. -/
def saved (s : X86.State) : Regs where
  bx := s.regs .rbx
  bp := s.regs .rbp
  r12 := s.regs .r12
  r13 := s.regs .r13
  r14 := s.regs .r14
  r15 := s.regs .r15
  sp := s.regs .rsp
  pc := s.rip

/-- A buffer as a row of words, in the order of the offsets. -/
def Regs.row (r : Regs) : List Word := [r.bx, r.bp, r.r12, r.r13, r.r14, r.r15, r.sp, r.pc]

section Contexts
variable {m m' : Bytes} {buf x : Word}

/-- A context is in the 64 bytes of its buffer. -/
theorem ctxAt_congr (h : ∀ x, (x - buf).toNat < jbSize → m' x = m x) :
    ctxAt m' buf = ctxAt m buf := by
  have hword : ∀ i < 8, m'.word (Bytes.slot buf i) = m.word (Bytes.slot buf i) := by
    intro i hi
    refine Bytes.word_congr fun x hx => h x ?_
    have hbyte := Bytes.slot_byte (x := x) (a := buf) (i := i) (by omega) hx
    unfold jbSize
    omega
  unfold ctxAt
  rw [hword jbBx (by decide), hword jbBp (by decide), hword jb12 (by decide),
    hword jb13 (by decide), hword jb14 (by decide), hword jb15 (by decide),
    hword jbSp (by decide), hword jbPc (by decide)]

theorem Regs.row_length (r : Regs) : r.row.length = 8 := rfl

/-- A row of words stored is a context. -/
theorem ctxAt_storeWords (m : Bytes) (buf : Word) (r : Regs) :
    ctxAt (m.storeWords buf 0 r.row) buf = r := by
  have hword : ∀ i (hi : i < 8), (m.storeWords buf 0 r.row).word (Bytes.slot buf i) =
      r.row.get ⟨i, hi⟩ := by
    intro i hi
    have hstored := Bytes.word_storeWords m buf r.row (i := 0) (j := i)
      (by rw [r.row_length]; decide) hi
    rw [Nat.zero_add] at hstored
    exact hstored
  unfold ctxAt
  rw [hword jbBx (by decide), hword jbBp (by decide), hword jb12 (by decide),
    hword jb13 (by decide), hword jb14 (by decide), hword jb15 (by decide),
    hword jbSp (by decide), hword jbPc (by decide)]
  rfl

end Contexts

/-! ### Running the routines -/

section Routines
variable {code : Code} {s t : X86.State}

/-- A displacement of `JB_.. * 8` bytes leads to a word of the buffer. -/
theorem addr_slot (x : Data) (i : Nat) (base : Reg) :
    x.addr (i * 8) base = Bytes.slot (x.regs base) i := by
  unfold Data.addr Bytes.slot
  rw [Nat.mul_comm]

/-- What is apart from a buffer is not changed by a context stored there. -/
theorem storeWords_apart (m : Bytes) {buf a : Word} (h : Apart buf jbSize a 8) (vs : List Word)
    (hlen : vs.length ≤ 8) :
    (m.storeWords buf 0 vs).word a = m.word a := by
  refine Bytes.word_congr fun x hx => Bytes.storeWords_outside m (by omega) (.inr ?_)
  have hout := h.outside hx
  unfold jbSize at hout
  omega

/-- The instructions of `savectx` up to its return. -/
theorem savectxBody_effects (h : Apart (s.regs .rdi) jbSize (s.regs .rsp) 8) :
    effects savectxBody s.toData =
      { regs := Function.update (Function.update s.regs .rdx (s.regs .rsp + 8)) .rax 0
        mem := s.mem.storeWords (s.regs .rdi) 0 (saveRegs s.mem.word (saved s)).row } := by
  obtain ⟨⟨regs, mem⟩, rip⟩ := s
  have hret := storeWords_apart mem h [regs .rbx, regs .rbp, regs .r12, regs .r13, regs .r14,
    regs .r15, regs .rsp + 8] (Nat.le_succ 7)
  simp only [effects, savectxBody, List.foldl_cons, List.foldl_nil, Instr.effect, Data.setReg,
    Data.addr, ne_eq, reduceCtorEq, not_false_eq_true, Function.update_self, Function.update_of_ne,
    Function.update_idem, BitVec.add_zero, BitVec.xor_self]
  -- the word at the stack pointer is read when all but the last word of the row is stored
  refine congrArg (Data.mk _) ?_
  exact congrArg (Bytes.setWord _ _) hret

/-- **`savectx` saves the registers and returns 0.** It goes back to its caller with everything
but `rax` and `rdx` as a function has to leave it, and has changed memory in the buffer only. -/
theorem savectx_returns (hcode : code.At s.rip savectxCode)
    (h : Apart (s.regs .rdi) jbSize (s.regs .rsp) 8) : ∃ s', steps code 12 s = some s' ∧
      ctxAt s'.mem (s.regs .rdi) = saveRegs s.mem.word (saved s) ∧
      saved s' = saveRegs s.mem.word (saved s) ∧ s'.regs .rax = 0 ∧
      (∀ r, r ≠ .rax → r ≠ .rdx → r ≠ .rsp → s'.regs r = s.regs r) ∧
      ∀ x, jbSize ≤ (x - s.regs .rdi).toNat → s'.mem x = s.mem x := by
  have heffects := savectxBody_effects h
  have hret := storeWords_apart s.mem h (saveRegs s.mem.word (saved s)).row
    (Nat.le_of_eq (Regs.row_length _))
  have hsteps := steps_routine savectxBody (j := .retq) (a := s.mem.word (s.regs .rsp))
    (by decide) (by rw [heffects]; exact congrArg some hret) hcode
  refine ⟨_, hsteps, ?_⟩
  rw [heffects]
  refine ⟨ctxAt_storeWords .., rfl, rfl, fun r hax hdx hsp => ?_, fun x hx => ?_⟩
  · simp [Instr.effect, Data.setReg, hax, hdx, hsp]
  · exact Bytes.storeWords_outside s.mem (by rw [Regs.row_length]; decide)
      (.inr (by rw [Regs.row_length]; exact hx))

/-- **`restorectx` restores them**: it goes on with the registers of the buffer, where the buffer
says. The low half of its second argument is in `rax`. -/
theorem restorectx_jumps (hcode : code.At t.rip restorectxCode) : ∃ t', steps code 11 t = some t' ∧
    saved t' = ctxAt t.mem (t.regs .rdi) ∧ t'.regs .rax = lowHalf (t.regs .rsi) ∧
    t'.mem = t.mem := by
  have hpc : (effects restorectxBody t.toData).regs .rdx =
      t.mem.word (Bytes.slot (t.regs .rdi) jbPc) := by
    simp [effects, restorectxBody, Instr.effect, addr_slot]
  have hsteps := steps_routine restorectxBody (j := .jmpq .rdx) (s := t) (by decide)
    (congrArg some hpc) hcode
  refine ⟨_, hsteps, ?_, ?_, rfl⟩
  · simp [saved, ctxAt, effects, restorectxBody, Instr.effect, addr_slot]
  · simp [effects, restorectxBody, Instr.effect]

/-- **`savectx` returns again**. It returns 0, with the registers of its caller in its buffer, and
has changed nothing else but two registers that are not its caller's. When the buffer is restored
as it has left it, by whatever has become of the machine meanwhile, the call returns to the same
place once more, with the same registers kept and the value given. -/
theorem savectx_returns_again (hcode : code.At s.rip savectxCode)
    (h : Apart (s.regs .rdi) jbSize (s.regs .rsp) 8) : ∃ s', steps code 12 s = some s' ∧
      s'.regs .rax = 0 ∧ saved s' = saveRegs s.mem.word (saved s) ∧
      ctxAt s'.mem (s.regs .rdi) = saveRegs s.mem.word (saved s) ∧
      (∀ r, r ≠ .rax → r ≠ .rdx → r ≠ .rsp → s'.regs r = s.regs r) ∧
      (∀ x, jbSize ≤ (x - s.regs .rdi).toNat → s'.mem x = s.mem x) ∧
      ∀ t, code.At t.rip restorectxCode → t.regs .rdi = s.regs .rdi →
        (∀ x, (x - s.regs .rdi).toNat < jbSize → t.mem x = s'.mem x) →
        ∃ t', steps code 11 t = some t' ∧ saved t' = saved s' ∧
          t'.regs .rax = lowHalf (t.regs .rsi) ∧ t'.mem = t.mem := by
  obtain ⟨s', hsteps, hctx, hsaved, hax, hregs, hmem⟩ := savectx_returns hcode h
  refine ⟨s', hsteps, hax, hsaved, hctx, hregs, hmem, fun t htcode hdi hkept => ?_⟩
  obtain ⟨t', htsteps, htsaved, htax, htmem⟩ := restorectx_jumps htcode
  refine ⟨t', htsteps, ?_, htax, htmem⟩
  calc saved t' = ctxAt t.mem (s.regs .rdi) := by rw [htsaved, hdi]
    _ = ctxAt s'.mem (s.regs .rdi) := ctxAt_congr hkept
    _ = saved s' := hctx.trans hsaved.symm

/-- A processor about to save its context at 0x1000, with its stack at 0x2000. -/
def saving : X86.State where
  regs r := if r = .rdi then 0x1000 else if r = .rsp then 0x2000 else 7
  mem _ := 1
  rip := 0

theorem savectx_returns_again_start : ∃ s', steps (.ofList 0 (savectxCode ++ restorectxCode)) 12
    saving = some s' ∧ s'.regs .rax = 0 ∧ ∃ t', steps (.ofList 0 (savectxCode ++ restorectxCode)) 11
      ⟨⟨fun r => if r = .rdi then 0x1000 else if r = .rsi then 1 else 0, s'.mem⟩, 12⟩ = some t' ∧
      saved t' = saved s' := by
  have hboth : (Code.ofList 0 (savectxCode ++ restorectxCode)).At 0
      (savectxCode ++ restorectxCode) := Code.ofList_at 0 [] (by decide)
  have hsave : (Code.ofList 0 (savectxCode ++ restorectxCode)).At 0 savectxCode := hboth.left
  have hrestore : (Code.ofList 0 (savectxCode ++ restorectxCode)).At 12 restorectxCode :=
    Code.ofList_at 0 savectxCode (by decide)
  obtain ⟨s', hsteps, hax, -, -, -, -, hagain⟩ :=
    savectx_returns_again (s := saving) hsave (by decide)
  obtain ⟨t', ht', hsaved, -⟩ := hagain ⟨⟨fun r => if r = .rdi then 0x1000 else
    if r = .rsi then 1 else 0, s'.mem⟩, 12⟩ hrestore rfl fun _ _ => rfl
  exact ⟨s', hsteps, hax, t', ht', hsaved⟩

end Routines

/-! ### A context moved to another stack -/

/-- `ctx.regs[i] += diff` -/
def addTo (m : Bytes) (buf : Word) (i : Nat) (diff : Word) : Bytes :=
  m.setWord (Bytes.slot buf i) (m.word (Bytes.slot buf i) + diff)

/-- What the parent does in `sched_fork` to the context that `savectx` has saved. -/
def moveCtx (m : Bytes) (buf diff : Word) : Bytes :=
  addTo (addTo m buf jbSp diff) buf jbBp diff

section Move
variable (m : Bytes) (buf diff : Word)

theorem addTo_self (i : Nat) :
    (addTo m buf i diff).word (Bytes.slot buf i) = m.word (Bytes.slot buf i) + diff :=
  Bytes.word_setWord ..

theorem addTo_of_ne {i j : Nat} (hij : i ≠ j) (hi : i < 8) (hj : j < 8) :
    (addTo m buf i diff).word (Bytes.slot buf j) = m.word (Bytes.slot buf j) := by
  refine Bytes.word_setWord_apart m ?_
  rcases Nat.lt_or_gt_of_ne hij with hlt | hgt
  · exact Bytes.slot_apart buf hlt (by omega)
  · exact (Bytes.slot_apart buf hgt (by omega)).symm

/-- The stack and the frame pointer are moved, the rest stays. -/
theorem ctxAt_moveCtx : ctxAt (moveCtx m buf diff) buf =
    { ctxAt m buf with sp := (ctxAt m buf).sp + diff, bp := (ctxAt m buf).bp + diff } := by
  have hother : ∀ j < 8, j ≠ jbSp → j ≠ jbBp →
      (moveCtx m buf diff).word (Bytes.slot buf j) = m.word (Bytes.slot buf j) := by
    intro j hj hsp hbp
    unfold moveCtx
    rw [addTo_of_ne _ _ _ hbp.symm (by decide) hj, addTo_of_ne _ _ _ hsp.symm (by decide) hj]
  have hsp : (moveCtx m buf diff).word (Bytes.slot buf jbSp) =
      m.word (Bytes.slot buf jbSp) + diff := by
    unfold moveCtx
    rw [addTo_of_ne _ _ _ (by decide) (by decide) (by decide), addTo_self]
  have hbp : (moveCtx m buf diff).word (Bytes.slot buf jbBp) =
      m.word (Bytes.slot buf jbBp) + diff := by
    unfold moveCtx
    rw [addTo_self, addTo_of_ne _ _ _ (by decide) (by decide) (by decide)]
  unfold ctxAt
  rw [hsp, hbp, hother jbBx (by decide) (by decide) (by decide),
    hother jb12 (by decide) (by decide) (by decide),
    hother jb13 (by decide) (by decide) (by decide),
    hother jb14 (by decide) (by decide) (by decide),
    hother jb15 (by decide) (by decide) (by decide),
    hother jbPc (by decide) (by decide) (by decide)]

/-- Nothing is written behind the buffer. -/
theorem moveCtx_outside {x : Word} (hx : jbSize ≤ (x - buf).toNat) :
    moveCtx m buf diff x = m x := by
  have hslot : ∀ i < 8, 8 ≤ (x - Bytes.slot buf i).toNat := by
    intro i hi
    by_contra hin
    have hbyte := Bytes.slot_byte (x := x) (a := buf) (i := i) (by omega) (by omega)
    unfold jbSize at hx
    omega
  unfold moveCtx addTo
  rw [Bytes.setWord_outside _ (hslot jbBp (by decide)),
    Bytes.setWord_outside _ (hslot jbSp (by decide))]

end Move

end Ece357.Sched
