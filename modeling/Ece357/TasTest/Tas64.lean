import Ece357.Machine.Sharing
import Ece357.TasTest.Model

/-!
# Ece357.TasTest.Tas64

**Test and set**, `ps7/tas64.S`, instruction by instruction: it does to the byte of the lock and
to its result what `tas` says of them, keeps the registers of its caller, and writes nothing
else but the word below its return address (`tas_implements`).
-/

namespace Ece357.TasTest

open Ece357.Machine X86

/-- `tas` up to the exchange. -/
def tasBefore : List Instr := [.pushq .rbp, .movq .rsp .rbp, .movqImm 1 .rax]

/-- `lock; xchgb %al,(%rdi)` -/
def tasExchange : Instr := .xchgb .rax .rdi

/-- `tas` behind the exchange, up to its `ret`. -/
def tasAfter : List Instr := [.movsbq .rax .rax, .popq .rbp]

/-- `tas` up to its `ret`. -/
def tasBody : List Instr := tasBefore ++ tasExchange :: tasAfter

/-- `tas` -/
def tasCode : List Instr := tasBody ++ [.retq]

/-- The words of the stack that a call with this stack pointer uses: the return address, and the
frame pointer of the caller below it. -/
def frame (sp : Word) : Word := sp - 8

section Run
variable {code : Code} {s : X86.State} {x : Data}

theorem withLowByte_low (v : Word) (b : BitVec 8) : (withLowByte v b).setWidth 8 = b := by
  unfold withLowByte
  ext i hi
  simp

/-- `tas` up to its return, called with the address of a lock that is not in its frame. -/
theorem tasBody_effects (h : Apart (x.regs .rdi) 1 (frame (x.regs .rsp)) 16) :
    effects tasBody x =
      { regs := Function.update x.regs .rax ((x.mem (x.regs .rdi)).signExtend 64)
        mem := Function.update (x.mem.setWord (frame (x.regs .rsp)) (x.regs .rbp))
          (x.regs .rdi) 1 } := by
  obtain ⟨regs, mem⟩ := x
  -- the byte of the lock is not of the word that is pushed
  have hout : 16 ≤ (regs .rdi - (regs .rsp - 8#64)).toNat := h.2
  have hlock : mem.setWord (regs .rsp - 8#64) (regs .rbp) (regs .rdi) = mem (regs .rdi) :=
    Bytes.setWord_outside mem (by omega)
  have hpushed : Bytes.word (Function.update (mem.setWord (regs .rsp - 8#64) (regs .rbp))
      (regs .rdi) 1#8) (regs .rsp - 8#64) = regs .rbp := by
    rw [Bytes.word_update _ (by omega), Bytes.word_setWord]
  simp only [effects, tasBody, tasBefore, tasExchange, tasAfter, List.cons_append, List.nil_append,
    List.foldl_cons, List.foldl_nil, Instr.effect]
  refine Data.mk.injEq .. ▸ ⟨?_, ?_⟩
  · funext r
    cases r <;> simp [withLowByte_low, hlock, hpushed]
  · simp [frame]

/-- The return address is still there, just above the word pushed. -/
theorem tasBody_target (h : Apart (x.regs .rdi) 1 (frame (x.regs .rsp)) 16) :
    Instr.target (effects tasBody x) .retq = some (x.mem.word (x.regs .rsp)) := by
  have hout : 16 ≤ (x.regs .rdi - (x.regs .rsp - 8)).toNat := h.2
  have height : (8 : Word).toNat = 8 := rfl
  have hlock : 8 ≤ (x.regs .rdi - x.regs .rsp).toNat := by
    simp only [BitVec.toNat_sub, height] at hout ⊢
    omega
  have hpushed : Apart (x.regs .rsp - 8) 8 (x.regs .rsp) 8 := by
    simp only [Apart, BitVec.toNat_sub, height]
    omega
  rw [tasBody_effects h]
  refine congrArg some ?_
  show Bytes.word (Function.update (x.mem.setWord (x.regs .rsp - 8) (x.regs .rbp)) (x.regs .rdi) 1)
    (x.regs .rsp) = x.mem.word (x.regs .rsp)
  rw [Bytes.word_update _ hlock, Bytes.word_setWord_apart _ hpushed]

/-- A call of `tas` as a whole. -/
theorem tasCode_effects (h : Apart (x.regs .rdi) 1 (frame (x.regs .rsp)) 16) :
    effects tasCode x =
      { regs := Function.update (Function.update x.regs .rax ((x.mem (x.regs .rdi)).signExtend 64))
          .rsp (x.regs .rsp + 8)
        mem := Function.update (x.mem.setWord (frame (x.regs .rsp)) (x.regs .rbp))
          (x.regs .rdi) 1 } := by
  have hcons : effects tasCode x = Instr.effect (effects tasBody x) .retq := by
    rw [tasCode, effects, List.foldl_append]
    rfl
  rw [hcons, tasBody_effects h]
  rfl

/-- A call of `tas`, run by itself. -/
theorem tas_runs (hcode : code.At s.rip tasCode)
    (h : Apart (s.regs .rdi) 1 (frame (s.regs .rsp)) 16) :
    steps code 7 s = some ⟨effects tasCode s.toData, s.mem.word (s.regs .rsp)⟩ := by
  have hsteps := steps_routine tasBody (j := .retq) (by decide) (tasBody_target h) hcode
  rw [tasCode, effects, List.foldl_append]
  exact hsteps

/-! ### The word of the lock -/

/-- The `int` at `a`. -/
def int32 (m : Bytes) (a : Word) : BitVec 32 := BitVec.ofNat 32 (m.load a 4)

/-- The low byte of a number and the bytes above it. -/
theorem low_and_high (b : BitVec 8) (y : Nat) :
    (BitVec.ofNat 32 (b.toNat + 256 * y)).setWidth 8 = b ∧
      (BitVec.ofNat 32 (b.toNat + 256 * y) &&& 0xffffff00#32) ||| 1#32 =
        BitVec.ofNat 32 (1 + 256 * y) := by
  have hb := b.isLt
  refine ⟨BitVec.eq_of_toNat_eq ?_, ?_⟩
  · rw [BitVec.toNat_setWidth, BitVec.toNat_ofNat]
    omega
  · have hmask : ∀ i < 32, (0xffffff00#32).getLsbD i = decide (8 ≤ i) := by decide
    have hbits : ∀ c < 2 ^ 8, ∀ i, Nat.testBit (c + 256 * y) i =
        if i < 8 then c.testBit i else y.testBit (i - 8) := by
      intro c hc i
      rw [Nat.add_comm]
      exact Nat.testBit_two_pow_mul_add y hc i
    refine BitVec.eq_of_getLsbD_eq fun i hi => ?_
    rw [BitVec.getLsbD_or, BitVec.getLsbD_and, hmask i hi]
    simp only [BitVec.getLsbD_ofNat, hbits _ hb, hbits 1 (by decide)]
    by_cases hlow : i < 8
    · simp [hlow, hi, Nat.not_le.mpr hlow]
    · have hone : Nat.testBit 1 i = false :=
        Nat.testBit_lt_two_pow (Nat.one_lt_two_pow (by omega))
      simp [hlow, hi, Nat.le_of_not_lt hlow, hone]

/-- A word of memory below its first byte. -/
theorem int32_eq (m : Bytes) (a : Word) :
    int32 m a = BitVec.ofNat 32 ((m a).toNat + 256 * m.load (a + 1) 3) := rfl

/-- Setting the low byte of an `int`. -/
theorem int32_update (m : Bytes) (a : Word) (v : BitVec 8) :
    int32 (Function.update m a v) a = BitVec.ofNat 32 (v.toNat + 256 * m.load (a + 1) 3) := by
  have hrest : Bytes.load (Function.update m a v) (a + 1) 3 = m.load (a + 1) 3 := by
    refine Bytes.load_congr (by decide) fun x hx => Function.update_of_ne ?_ ..
    rintro rfl
    have hone : (1 : Word).toNat = 1 := rfl
    rw [BitVec.toNat_sub, BitVec.toNat_add, hone] at hx
    omega
  rw [int32_eq, Function.update_self, hrest]

/-- **`tas` from its instructions**: called with the address of an `int` apart from its frame, it
returns to its caller, with the registers the caller wants kept; the result in `eax` and the
`int` are what `tas` says; and memory is changed in the byte of the lock and in the word below
the return address only. -/
theorem tas_implements (hcode : code.At s.rip tasCode)
    (h : Apart (s.regs .rdi) 4 (frame (s.regs .rsp)) 16) : ∃ s', steps code 7 s = some s' ∧
      tas (int32 s.mem (s.regs .rdi)) = ((s'.regs .rax).setWidth 32, int32 s'.mem (s.regs .rdi)) ∧
      s'.rip = s.mem.word (s.regs .rsp) ∧ s'.regs .rsp = s.regs .rsp + 8 ∧
      (∀ r, r ≠ .rax → r ≠ .rsp → s'.regs r = s.regs r) ∧
      ∀ a, a ≠ s.regs .rdi → 8 ≤ (a - frame (s.regs .rsp)).toNat → s'.mem a = s.mem a := by
  have hbyte : Apart (s.regs .rdi) 1 (frame (s.regs .rsp)) 16 :=
    ⟨Nat.le_trans (by decide) h.1, h.2⟩
  refine ⟨_, tas_runs hcode hbyte, ?_⟩
  rw [tasCode_effects hbyte]
  refine ⟨?_, rfl, ?_, fun r hax hsp => ?_, fun a hlock hframe => ?_⟩
  · -- the bytes above that of the lock are not in the frame either
    have hrest : Bytes.load (s.mem.setWord (frame (s.regs .rsp)) (s.regs .rbp))
        (s.regs .rdi + 1) 3 = s.mem.load (s.regs .rdi + 1) 3 := by
      refine Bytes.load_congr (by decide) fun x hx => Bytes.setWord_outside s.mem ?_
      have hone : (1 : Word).toNat = 1 := rfl
      have hin : (x - s.regs .rdi).toNat < 4 := by
        simp only [BitVec.toNat_sub, BitVec.toNat_add, hone] at hx ⊢
        omega
      exact Nat.le_trans (by decide) (h.symm.outside hin)
    obtain ⟨hlow, hhigh⟩ := low_and_high (s.mem (s.regs .rdi)) (s.mem.load (s.regs .rdi + 1) 3)
    have hax : (Function.update (Function.update s.regs .rax
        ((s.mem (s.regs .rdi)).signExtend 64)) .rsp (s.regs .rsp + 8)) .rax =
        (s.mem (s.regs .rdi)).signExtend 64 := by
      rw [Function.update_of_ne (by decide), Function.update_self]
    have hlock := int32_update (s.mem.setWord (frame (s.regs .rsp)) (s.regs .rbp)) (s.regs .rdi) 1
    rw [hrest] at hlock
    dsimp only
    rw [hax, hlock, tas, int32_eq, hlow, hhigh]
    rfl
  · dsimp only
    rw [Function.update_self]
  · dsimp only
    rw [Function.update_of_ne hsp, Function.update_of_ne hax]
  · dsimp only
    rw [Function.update_of_ne hlock, Bytes.setWord_outside s.mem hframe]

/-- A processor about to call `tas` for the `int` at 0x1004, with its stack at 0x2000. -/
def testing : X86.State where
  regs r := if r = .rdi then 0x1004 else if r = .rsp then 0x2000 else 7
  mem _ := 0
  rip := 0

theorem tas_implements_free : ∃ s', steps (.ofList 0 tasCode) 7 testing = some s' ∧
    (s'.regs .rax).setWidth 32 = 0#32 ∧ int32 s'.mem 0x1004 = 1 := by
  obtain ⟨s', hsteps, htas, -⟩ := tas_implements (s := testing)
    (Code.ofList_at 0 [] (by decide)) (by decide)
  have hfree : tas (int32 testing.mem 0x1004) = (0, 1) := by decide +kernel
  obtain ⟨hax, hlock⟩ := Prod.mk.inj (hfree.symm.trans htas)
  exact ⟨s', hsteps, hax.symm, hlock.symm⟩

end Run

end Ece357.TasTest
