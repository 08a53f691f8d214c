import Ece357.Machine.Bytes
import Mathlib.Algebra.Group.Action.Defs

/-!
# Ece357.Machine.X86

**A few instructions of x86-64**, as the assembler names them, over byte-addressed memory. The
code is a map from addresses to instructions, each with the address of the one behind it: how
an instruction is encoded, and how long, is left to the assembler. The flags are left out, as
no instruction here looks at them, and so are faults.

A routine that jumps only with its last instruction does what its instructions do one after the
other (`steps_routine`), wherever it stands.
-/

namespace Ece357.Machine.X86

/-- The general registers. -/
inductive Reg
  | rax | rbx | rcx | rdx | rsi | rdi | rbp | rsp | r8 | r9 | r10 | r11 | r12 | r13 | r14 | r15
  deriving DecidableEq, Repr

/-- The instructions. An address in memory is `d` bytes behind the one in `base`. -/
inductive Instr
  /-- `movq d(base), dst` -/
  | load (d : Nat) (base dst : Reg)
  /-- `movq src, d(base)` -/
  | store (src : Reg) (d : Nat) (base : Reg)
  /-- `movq src, dst` -/
  | movq (src dst : Reg)
  /-- `movq $v, dst` -/
  | movqImm (v : Word) (dst : Reg)
  /-- `leaq d(base), dst` -/
  | leaq (d : Nat) (base dst : Reg)
  /-- `movl src, dst`, on the low halves; the high half of `dst` becomes 0. -/
  | movl (src dst : Reg)
  /-- `xorl src, dst`, likewise. -/
  | xorl (src dst : Reg)
  /-- `movsbq src, dst`, which extends the sign of the low byte. -/
  | movsbq (src dst : Reg)
  /-- `lock; xchgb src, (base)`: the low byte of `src` and the byte in memory. -/
  | xchgb (src base : Reg)
  /-- `pushq src` -/
  | pushq (src : Reg)
  /-- `popq dst` -/
  | popq (dst : Reg)
  /-- `retq` -/
  | retq
  /-- `jmpq *src` -/
  | jmpq (src : Reg)
  deriving DecidableEq, Repr

/-- What instructions work on: the registers, and memory. -/
structure Data where
  regs : Reg → Word
  mem : Bytes

namespace Data

/-- The address `d(base)`. -/
def addr (x : Data) (d : Nat) (base : Reg) : Word := x.regs base + BitVec.ofNat 64 d

def setReg (x : Data) (r : Reg) (v : Word) : Data := { x with regs := Function.update x.regs r v }

@[simp] theorem setReg_self (x : Data) (r : Reg) (v : Word) : (x.setReg r v).regs r = v :=
  Function.update_self ..

@[simp] theorem setReg_of_ne (x : Data) {r q : Reg} (h : q ≠ r) (v : Word) :
    (x.setReg r v).regs q = x.regs q := Function.update_of_ne h ..

@[simp] theorem setReg_mem (x : Data) (r : Reg) (v : Word) : (x.setReg r v).mem = x.mem := rfl

@[simp] theorem setReg_addr (x : Data) {r base : Reg} (h : base ≠ r) (v : Word) (d : Nat) :
    (x.setReg r v).addr d base = x.addr d base := by
  unfold addr
  rw [setReg_of_ne x h]

end Data

/-- The low half of a word, the high half made 0. -/
def lowHalf (v : Word) : Word := (v.setWidth 32).setWidth 64

/-- The low byte of a word replaced. -/
def withLowByte (v : Word) (b : BitVec 8) : Word := (v &&& 0xffffffffffffff00#64) ||| b.setWidth 64

/-- What an instruction does to the registers and to memory. -/
def Instr.effect (x : Data) : Instr → Data
  | .load d base dst => x.setReg dst (x.mem.word (x.addr d base))
  | .store src d base => { x with mem := x.mem.setWord (x.addr d base) (x.regs src) }
  | .movq src dst => x.setReg dst (x.regs src)
  | .movqImm v dst => x.setReg dst v
  | .leaq d base dst => x.setReg dst (x.addr d base)
  | .movl src dst => x.setReg dst (lowHalf (x.regs src))
  | .xorl src dst => x.setReg dst (lowHalf (x.regs dst ^^^ x.regs src))
  | .movsbq src dst => x.setReg dst (((x.regs src).setWidth 8).signExtend 64)
  | .xchgb src base =>
      { x.setReg src (withLowByte (x.regs src) (x.mem (x.regs base))) with
        mem := Function.update x.mem (x.regs base) ((x.regs src).setWidth 8) }
  | .pushq src =>
      { x.setReg .rsp (x.regs .rsp - 8) with
        mem := x.mem.setWord (x.regs .rsp - 8) (x.regs src) }
  | .popq dst => (x.setReg .rsp (x.regs .rsp + 8)).setReg dst (x.mem.word (x.regs .rsp))
  | .retq => x.setReg .rsp (x.regs .rsp + 8)
  | .jmpq _ => x

/-- Where an instruction jumps to, if it does. -/
def Instr.target (x : Data) : Instr → Option Word
  | .retq => some (x.mem.word (x.regs .rsp))
  | .jmpq src => some (x.regs src)
  | _ => none

/-- Is it a jump? -/
def Instr.jumps : Instr → Bool
  | .retq | .jmpq _ => true
  | _ => false

theorem Instr.target_of_not_jumps {i : Instr} (h : i.jumps = false) (x : Data) :
    i.target x = none := by
  cases i with
  | retq | jmpq => cases h
  | _ => rfl

/-- The instruction looks at the byte at `a`, or writes it. -/
def Instr.Touches (x : Data) (a : Word) : Instr → Prop
  | .load d base _ | .store _ d base => (a - x.addr d base).toNat < 8
  | .xchgb _ base => a = x.regs base
  | .pushq _ => (a - (x.regs .rsp - 8)).toNat < 8
  | .popq _ | .retq => (a - x.regs .rsp).toNat < 8
  | _ => False

section Frame
variable {i : Instr} {x y : Data} {a : Word}

/-- An instruction changes only what it touches. -/
theorem Instr.effect_outside (h : ¬ i.Touches x a) : (i.effect x).mem a = x.mem a := by
  cases i with
  | store | pushq => exact Bytes.setWord_outside x.mem (Nat.le_of_not_lt h)
  | xchgb => exact Function.update_of_ne h ..
  | _ => rfl

/-- What an instruction does depends on the registers and on what it touches; a byte that agrees
before it agrees behind it. -/
theorem Instr.effect_congr (hregs : x.regs = y.regs)
    (hmem : ∀ a, i.Touches x a → x.mem a = y.mem a) :
    (i.effect x).regs = (i.effect y).regs ∧ i.target x = i.target y ∧
      ∀ a, x.mem a = y.mem a → (i.effect x).mem a = (i.effect y).mem a := by
  obtain ⟨regs, mem⟩ := x
  obtain ⟨_, mem'⟩ := y
  obtain rfl : regs = _ := hregs
  have hword : ∀ b, (∀ a, (a - b).toNat < 8 → mem a = mem' a) → mem.word b = mem'.word b :=
    fun b h => Bytes.word_congr h
  cases i with
  | load d base dst =>
      exact ⟨congrArg (Function.update regs dst) (hword _ hmem), rfl, fun a ha => ha⟩
  | popq dst =>
      exact ⟨congrArg (Function.update _ dst) (hword _ hmem), rfl, fun a ha => ha⟩
  | retq => exact ⟨rfl, congrArg some (hword _ hmem), fun a ha => ha⟩
  | xchgb src base =>
      have hbyte : mem (regs base) = mem' (regs base) := hmem _ rfl
      refine ⟨congrArg (fun b => Function.update regs src (withLowByte (regs src) b)) hbyte, rfl,
        fun a ha => ?_⟩
      show Function.update mem (regs base) _ a = Function.update mem' (regs base) _ a
      by_cases hbase : a = regs base
      · rw [hbase, Function.update_self, Function.update_self]
      · rw [Function.update_of_ne hbase, Function.update_of_ne hbase]
        exact ha
  | store | pushq => exact ⟨rfl, rfl, fun a ha => Bytes.setWord_congr ha⟩
  | _ => exact ⟨rfl, rfl, fun a ha => ha⟩

end Frame

/-- The instructions of a listing, one after the other. -/
def effects (is : List Instr) (x : Data) : Data := is.foldl Instr.effect x

/-! ### Code -/

/-- The instruction at each address, and the address behind it. -/
abbrev Code := Word → Option (Instr × Word)

/-- The listing stands in the code from this address on. -/
def Code.At (code : Code) : Word → List Instr → Prop
  | _, [] => True
  | a, i :: is => ∃ next, code a = some (i, next) ∧ code.At next is

theorem Code.At.left {code : Code} {a : Word} {is rest : List Instr}
    (h : code.At a (is ++ rest)) : code.At a is := by
  induction is generalizing a with
  | nil => trivial
  | cons i is ih =>
      obtain ⟨next, hi, hrest⟩ := h
      exact ⟨next, hi, ih hrest⟩

/-- A listing from `base` on, one address an instruction. -/
def Code.ofList (base : Word) (is : List Instr) : Code := fun a =>
  is[(a - base).toNat]?.map fun i => (i, a + 1)

/-- Each part of a listing is where it should be. -/
theorem Code.ofList_at (base : Word) (pre : List Instr) {is : List Instr}
    (h : (pre ++ is).length < 2 ^ 64) :
    (Code.ofList base (pre ++ is)).At (base + BitVec.ofNat 64 pre.length) is := by
  induction is generalizing pre with
  | nil => trivial
  | cons i is ih =>
      have hlen : pre.length < 2 ^ 64 := by
        rw [List.length_append] at h
        omega
      have hoffset : (base + BitVec.ofNat 64 pre.length - base).toNat = pre.length := by
        rw [BitVec.add_comm, BitVec.add_sub_cancel, BitVec.toNat_ofNat, Nat.mod_eq_of_lt hlen]
      refine ⟨base + BitVec.ofNat 64 pre.length + 1, ?_, ?_⟩
      · unfold Code.ofList
        rw [hoffset, List.getElem?_append_right (Nat.le_refl _), Nat.sub_self]
        rfl
      · have hrest := ih (pre ++ [i]) (by rw [List.append_assoc]; exact h)
        rw [List.append_assoc, List.length_append, List.length_singleton, BitVec.ofNat_add,
          ← BitVec.add_assoc] at hrest
        exact hrest

/-- A processor and its memory. -/
structure State extends Data where
  rip : Word

/-- Execute the instruction at `rip`; `none` if there is none. -/
def step (code : Code) (s : State) : Option State :=
  (code s.rip).map fun c =>
    ⟨c.1.effect s.toData, (c.1.target s.toData).getD c.2⟩

/-- `n` instructions. -/
def steps (code : Code) : Nat → State → Option State
  | 0, s => some s
  | n + 1, s => (step code s).bind (steps code n)

variable {code : Code} {s s' : State}

theorem steps_add {n k : Nat} (h : steps code n s = some s') :
    steps code (n + k) s = steps code k s' := by
  induction n generalizing s with
  | zero =>
      obtain rfl := Option.some.inj h
      rw [Nat.zero_add]
  | succ n ih =>
      obtain ⟨t, ht, hrest⟩ := Option.bind_eq_some_iff.mp h
      rw [Nat.add_right_comm, steps, ht]
      exact ih hrest

/-- Instructions that do not jump are executed in the order they stand in. -/
theorem steps_straight {is rest : List Instr} (his : ∀ i ∈ is, i.jumps = false)
    (h : code.At s.rip (is ++ rest)) : ∃ a, code.At a rest ∧
      steps code is.length s = some ⟨effects is s.toData, a⟩ := by
  induction is generalizing s with
  | nil => exact ⟨s.rip, h, rfl⟩
  | cons i is ih =>
      obtain ⟨hi, his⟩ := List.forall_mem_cons.mp his
      obtain ⟨next, hcode, hnext⟩ := h
      have hstep : step code s = some ⟨i.effect s.toData, next⟩ := by
        unfold step
        rw [hcode, Option.map_some, i.target_of_not_jumps hi, Option.getD_none]
      obtain ⟨a, ha, hrest⟩ := ih (s := ⟨i.effect s.toData, next⟩) his hnext
      refine ⟨a, ha, ?_⟩
      rw [List.length_cons, steps, hstep]
      exact hrest

/-- **A routine**: straight code with a jump at its end. -/
theorem steps_routine (is : List Instr) {j : Instr} {a : Word} (his : ∀ i ∈ is, i.jumps = false)
    (hj : j.target (effects is s.toData) = some a) (h : code.At s.rip (is ++ [j])) :
    steps code (is.length + 1) s = some ⟨j.effect (effects is s.toData), a⟩ := by
  obtain ⟨b, ⟨next, hcode, -⟩, hsteps⟩ := steps_straight his h
  rw [steps_add hsteps, steps, step, hcode, Option.map_some, Option.bind_some, steps, hj,
    Option.getD_some]

end Ece357.Machine.X86
