import Ece357.Machine.Run
import Ece357.Machine.TasLock
import Ece357.TasTest.Tas64
import Mathlib.Tactic.IntervalCases

/-!
# Ece357.TasTest.Processors

**Many processes in `tas` at once.** They share a mapping with the lock in it, and execute the
instructions of `tas` one at a time, in any order. Each has its stack to itself. Between calls, a
process may do anything to its registers, its memory and the mapping, except for the lock, which
it only sets back to 0 when `tas` has returned 0 to it before.

What a call does is what it would do alone, with the byte that its exchange finds
(`Inside.agrees`). So the machine is a refinement of a lock that is tested and set in one step
(`processes_refine`), and its calls return as calls should (`tas_returns`).
-/

namespace Ece357.TasTest

open Ece357.Machine X86

/-! ### The lock in one step -/

/-- A lock, and who holds it. -/
structure Lock (P : Type) where
  taken : Bool
  holds : P → Bool

/-- What can happen to a lock. -/
inductive LockAct (P : Type)
  | tas (p : P)
  | release (p : P)

namespace Lock

variable {P : Type} [DecidableEq P]

/-- A process that does not hold the lock tests and sets it, or the one that does releases it. -/
def step (k : Lock P) : LockAct P → Option (Lock P)
  | .tas p =>
      if k.holds p then none
      else if k.taken then some k
      else some { taken := true, holds := Function.update k.holds p true }
  | .release p =>
      if k.holds p then some { taken := false, holds := Function.update k.holds p false }
      else none

def machine : System (Lock P) (LockAct P) := .ofFun (· = ⟨false, fun _ => false⟩) step

/-- The lock is taken exactly when somebody holds it, and by one process at most. -/
theorem exclusive {k : Lock P} (h : machine.Reach System.any k) :
    Exclusive (k.taken = false) fun p => k.holds p = true := by
  refine h.invariant (I := fun k => Exclusive (k.taken = false) fun p => k.holds p = true)
    (fun {a} ha => ?_) fun {a l b} _ ha _ hstep => ?_
  · obtain rfl := ha
    exact .start rfl fun _ => Bool.false_ne_true
  · cases l with
    | tas p =>
        simp only [machine, System.ofFun, step] at hstep
        split_ifs at hstep with hp htaken <;> obtain rfl := Option.some.inj hstep
        · exact ha
        · refine ha.acquire (p := p) (by simpa using htaken) (by simp) fun q => ?_
          by_cases hq : q = p <;> simp [hq]
    | release p =>
        simp only [machine, System.ofFun, step] at hstep
        split_ifs at hstep with hp
        obtain rfl := Option.some.inj hstep
        refine ha.release hp rfl fun q => ?_
        by_cases hq : q = p <;> simp [hq]

end Lock

/-! ### Processes -/

/-- Where a process is. -/
inductive Mode
  /-- In code of its own. -/
  | out
  /-- In `tas`, `n` instructions behind its entry. Ghost: the registers and memory at the entry,
  and the byte that the exchange has found. -/
  | calling (e : Data) (found : Option (BitVec 8)) (n : Nat)
  /-- In code of its own, after a call of `tas` that has returned 0. -/
  | holding

/-- Has the process got the lock? -/
def Mode.has : Mode → Bool
  | .calling _ (some b) _ => b == 0
  | .holding => true
  | _ => false

/-- A process, with what it sees of memory. -/
structure Proc extends X86.State where
  mode : Mode

/-- The mapping and all processes. -/
structure World (P : Type) where
  shared : Bytes
  proc : P → Proc

/-- What a process does next. -/
inductive Act
  /-- It computes, to these registers and this memory. -/
  | work (x : Data)
  /-- It calls `tas`. -/
  | call
  /-- It executes an instruction of `tas`. -/
  | instr
  /-- It stores 0 in the lock. -/
  | release

/-- A mapping with a lock in it, and code with `tas` in it. -/
structure Setup where
  mapping : Mapping
  lock : Word
  code : Code
  entry : Word
  mem_lock : mapping.Mem lock
  at_entry : code.At entry tasCode

namespace World

variable {P : Type} [DecidableEq P]

/-- A process in `tas` after an instruction that has led to `t`. At the end, the caller looks at
the result. -/
def returned (e : Data) (found : Option (BitVec 8)) (n : Nat) (t : X86.State) : Mode :=
  if n + 1 < tasCode.length then .calling e found (n + 1)
  else if (t.regs .rax).setWidth 32 = 0 then .holding else .out

/-- Process `p` goes on as `q`, with the mapping as in `shared`. -/
def put (s : World P) (p : P) (shared : Bytes) (q : Proc) : World P :=
  ⟨shared, Function.update s.proc p q⟩

/-- What process `p` works on. -/
def see (c : Setup) (s : World P) (p : P) : Data :=
  ⟨(s.proc p).regs, view c.mapping s.shared (s.proc p).mem⟩

/-- Process `p` acts. -/
def step (c : Setup) (s : World P) : P × Act → Option (World P)
  | (p, act) =>
    let q := s.proc p
    match act, q.mode with
    | .work x, .out | .work x, .holding =>
        let mem := Function.update x.mem c.lock (s.shared c.lock)
        some (s.put p mem ⟨⟨⟨x.regs, mem⟩, q.rip⟩, q.mode⟩)
    | .call, .out =>
        let x := s.see c p
        if x.regs .rdi = c.lock ∧
            Apart c.mapping.base c.mapping.size (frame (x.regs .rsp)) 16 then
          some (s.put p s.shared ⟨⟨x, c.entry⟩, .calling x none 0⟩)
        else none
    | .instr, .calling e found n =>
        let found := if n = tasBefore.length then some (s.shared c.lock) else found
        (X86.step c.code ⟨s.see c p, q.rip⟩).map fun t =>
          s.put p t.mem ⟨t, returned e found n t⟩
    | .release, .holding =>
        some (s.put p (Function.update s.shared c.lock 0) { q with mode := .out })
    | _, _ => none

/-- The lock is free, and no process is in `tas` yet. -/
def Start (c : Setup) (s : World P) : Prop := s.shared c.lock = 0 ∧ ∀ p, (s.proc p).mode = .out

def machine (c : Setup) : System (World P) (P × Act) := .ofFun (Start c) (step c)

/-- What is to be seen of the lock. -/
def abstract (c : Setup) (s : World P) : Lock P :=
  ⟨s.shared c.lock != 0, fun p => (s.proc p).mode.has⟩

end World

/-! ### One call -/

section Call
variable {c : Setup} {e : Data} {found : Option (BitVec 8)} {n : Nat} {old b : BitVec 8}
  {q : Proc} {shared : Bytes} {t : X86.State} {a : Word}

/-- The call by itself, after `n` instructions, if its exchange finds `old`. -/
def solo (c : Setup) (e : Data) (old : BitVec 8) (n : Nat) : Data :=
  effects (tasCode.take n) ⟨e.regs, Function.update e.mem c.lock old⟩

theorem solo_succ (hn : n < tasCode.length) :
    solo c e old (n + 1) = tasCode[n].effect (solo c e old n) := by
  unfold solo effects
  rw [List.take_add_one, List.getElem?_eq_getElem hn, List.foldl_append]
  rfl

/-- Of its stack, a call only touches its frame. -/
theorem solo_touches (hn : n < tasCode.length) (hne : n ≠ tasBefore.length)
    (h : tasCode[n].Touches (solo c e old n) a) : (a - frame (e.regs .rsp)).toNat < 16 := by
  have hn7 : n < 7 := hn
  unfold frame
  -- besides the exchange, it is the push, the pop and the return
  interval_cases n <;>
    simp [tasCode, tasBody, tasBefore, tasExchange, tasAfter, solo, effects, Instr.effect,
      Instr.Touches] at h hne ⊢ <;>
    omega

/-- Until the exchange, the lock is as it was. -/
theorem solo_lock (hn : n ≤ tasBefore.length)
    (hframe : 16 ≤ (c.lock - frame (e.regs .rsp)).toNat) : (solo c e old n).mem c.lock = old := by
  induction n with
  | zero => exact Function.update_self ..
  | succ n ih =>
      have hlen : tasBefore.length = 3 := rfl
      have hn7 : n < tasCode.length := by
        show n < 7
        omega
      have hout : ¬ tasCode[n].Touches (solo c e old n) c.lock := by
        intro h
        have hin := solo_touches hn7 (by omega) h
        omega
      rw [solo_succ hn7, Instr.effect_outside hout, ih (by omega)]

/-- The exchange is applied to the lock, and stores 1. -/
theorem solo_exchange (c : Setup) (e : Data) (old : BitVec 8) :
    (solo c e old tasBefore.length).regs .rdi = e.regs .rdi ∧
    ((solo c e old tasBefore.length).regs .rax).setWidth 8 = 1 := by
  simp [tasCode, tasBody, tasBefore, solo, effects, Instr.effect]

/-- The call is where it should be, and has done so far what it would have done by itself. -/
structure Inside (c : Setup) (e : Data) (found : Option (BitVec 8)) (n : Nat) (q : Proc) :
    Prop where
  lt : n < tasCode.length
  at_ : c.code.At q.rip (tasCode.drop n)
  lock : e.regs .rdi = c.lock
  frame : Apart c.mapping.base c.mapping.size (frame (e.regs .rsp)) 16
  none_iff : found = none ↔ n ≤ tasBefore.length
  agrees : ∀ old, (∀ b, found = some b → old = b) →
    AgreesOutside c.mapping q.toData (solo c e old n)

/-- What a process works on, next to what it calls its own. -/
theorem see_agrees (q : Proc) (shared : Bytes) :
    AgreesOutside c.mapping ⟨q.regs, view c.mapping shared q.mem⟩ q.toData :=
  ⟨rfl, fun _ ha => view_not_mem ha⟩

namespace Inside

/-- The frame of a call is not in the mapping. -/
theorem not_mem (h : Inside c e found n q) (ha : (a - TasTest.frame (e.regs .rsp)).toNat < 16) :
    ¬ c.mapping.Mem a := Nat.not_lt.mpr (h.frame.outside ha)

/-- The instruction to be executed, and where it is. -/
theorem next (h : Inside c e found n q) : ∃ b, c.code q.rip = some (tasCode.get ⟨n, h.lt⟩, b) ∧
    c.code.At b (tasCode.drop (n + 1)) := by
  have hat := h.at_
  rw [List.drop_eq_getElem_cons h.lt] at hat
  exact hat

/-- An instruction of the call other than the exchange: it leaves the mapping alone. -/
theorem other (h : Inside c e found n q) (hne : n ≠ tasBefore.length) (shared : Bytes)
    (old : BitVec 8) (hold : ∀ b, found = some b → old = b) :
    AgreesOutside c.mapping ((tasCode.get ⟨n, h.lt⟩).effect ⟨q.regs, view c.mapping shared q.mem⟩)
        (solo c e old (n + 1)) ∧
      (tasCode.get ⟨n, h.lt⟩).target ⟨q.regs, view c.mapping shared q.mem⟩ =
        (tasCode.get ⟨n, h.lt⟩).target (solo c e old n) ∧
      ∀ a, c.mapping.Mem a →
        ((tasCode.get ⟨n, h.lt⟩).effect ⟨q.regs, view c.mapping shared q.mem⟩).mem a =
          shared a := by
  have hagrees := (see_agrees q shared).trans (h.agrees old hold)
  obtain ⟨heffect, htarget, hmem⟩ := hagrees.effect fun a ha htouch =>
    h.not_mem (solo_touches h.lt hne (hagrees.touches_iff.mp htouch)) ha
  rw [solo_succ h.lt]
  exact ⟨heffect, htarget, fun a ha => (hmem a ha).trans (view_mem ha)⟩

/-- The exchange: it finds the byte of the lock, and stores 1 there. -/
theorem exchange (h : Inside c e none tasBefore.length q) (shared : Bytes) :
    AgreesOutside c.mapping (tasExchange.effect ⟨q.regs, view c.mapping shared q.mem⟩)
        (solo c e (shared c.lock) (tasBefore.length + 1)) ∧
      ∀ a, c.mapping.Mem a → (tasExchange.effect ⟨q.regs, view c.mapping shared q.mem⟩).mem a =
        Function.update shared c.lock 1 a := by
  obtain ⟨hdi, hax⟩ := solo_exchange c e (shared c.lock)
  have hagrees := (see_agrees q shared).trans (h.agrees (shared c.lock) fun b hb => by cases hb)
  have hframe : 16 ≤ (c.lock - TasTest.frame (e.regs .rsp)).toNat :=
    Nat.le_of_not_lt fun hlt => h.not_mem hlt c.mem_lock
  have hregs : q.regs = (solo c e (shared c.lock) tasBefore.length).regs := hagrees.regs
  have hlock : q.regs .rdi = c.lock := by rw [hregs, hdi, h.lock]
  constructor
  · rw [solo_succ (by decide)]
    refine hagrees.effect_touched fun a ha htouch => ?_
    obtain rfl : a = q.regs .rdi := htouch
    rw [hlock, solo_lock (Nat.le_refl _) hframe]
    exact view_mem c.mem_lock
  · intro a ha
    show Function.update (view c.mapping shared q.mem) (q.regs .rdi)
      ((q.regs .rax).setWidth 8) a = _
    rw [hlock, hregs, hax]
    by_cases hal : a = c.lock
    · rw [hal, Function.update_self, Function.update_self]
    · rw [Function.update_of_ne hal, Function.update_of_ne hal]
      exact view_mem ha

/-- The lock is not in the frame of the call. -/
theorem lock_apart (h : Inside c e found n q) :
    Apart c.lock 1 (TasTest.frame (e.regs .rsp)) 16 := by
  have hframe : 16 ≤ (c.lock - TasTest.frame (e.regs .rsp)).toNat :=
    Nat.le_of_not_lt fun hlt => h.not_mem hlt c.mem_lock
  refine ⟨?_, hframe⟩
  simp only [BitVec.toNat_sub] at hframe ⊢
  omega

/-- The call returns to where its return address says. -/
theorem target (h : Inside c e found n q) (old : BitVec 8) :
    Instr.target (solo c e old tasBody.length) .retq = some (e.mem.word (e.regs .rsp)) := by
  have hbody := tasBody_target (x := ⟨e.regs, Function.update e.mem c.lock old⟩)
    (by rw [h.lock]; exact h.lock_apart)
  have hret : 8 ≤ (c.lock - e.regs .rsp).toNat := by
    have hframe := h.lock_apart.2
    have height : (8 : Word).toNat = 8 := rfl
    simp only [TasTest.frame, BitVec.toNat_sub, height] at hframe ⊢
    omega
  rw [Bytes.word_update _ hret] at hbody
  exact hbody

end Inside

/-- What an instruction of a call has led to: `t`, with the mapping in `shared` before it. -/
structure Advanced (c : Setup) (e : Data) (found : Option (BitVec 8)) (n : Nat) (shared : Bytes)
    (t : X86.State) : Prop where
  agrees : ∀ old, (∀ b, found = some b → old = b) →
    AgreesOutside c.mapping t.toData (solo c e old (n + 1))
  mapping : ∀ a, c.mapping.Mem a → t.mem a =
    if n = tasBefore.length then Function.update shared c.lock 1 a else shared a
  at_ : n + 1 < tasCode.length → c.code.At t.rip (tasCode.drop (n + 1))
  rip : n + 1 = tasCode.length → t.rip = e.mem.word (e.regs .rsp)

/-- Only the last instruction of `tas` is a jump. -/
theorem tasCode_straight : ∀ n (hn : n < tasCode.length), n + 1 < tasCode.length →
    (tasCode[n]).jumps = false := by decide

/-- **One instruction of a call**, wherever the call is and whatever is in the mapping. -/
theorem Inside.advance (h : Inside c e found n q)
    (ht : X86.step c.code ⟨⟨q.regs, view c.mapping shared q.mem⟩, q.rip⟩ = some t) :
    Advanced c e (if n = tasBefore.length then some (shared c.lock) else found) n shared t := by
  obtain ⟨b, hcode, hat⟩ := h.next
  unfold X86.step at ht
  rw [hcode, Option.map_some] at ht
  obtain rfl := Option.some.inj ht
  have hstraight : n + 1 < tasCode.length →
      (tasCode.get ⟨n, h.lt⟩).target ⟨q.regs, view c.mapping shared q.mem⟩ = none := fun hn =>
    Instr.target_of_not_jumps (tasCode_straight n h.lt hn) _
  by_cases hn : n = tasBefore.length
  · subst hn
    obtain rfl := h.none_iff.mpr (Nat.le_refl _)
    obtain ⟨hagrees, hmapping⟩ := h.exchange shared
    refine ⟨fun old hold => ?_, fun a ha => ?_, fun hlt => ?_, fun heq => absurd heq (by decide)⟩
    · obtain rfl := hold (shared c.lock) rfl
      exact hagrees
    · rw [if_pos rfl]
      exact hmapping a ha
    · dsimp only
      rw [hstraight hlt]
      exact hat
  · rw [if_neg hn]
    refine ⟨fun old hold => (h.other hn shared old hold).1, fun a ha => ?_, fun hlt => ?_,
      fun heq => ?_⟩
    · rw [if_neg hn]
      exact (h.other hn shared (found.getD 0) fun b hb => by rw [hb]; rfl).2.2 a ha
    · dsimp only
      rw [hstraight hlt]
      exact hat
    · obtain rfl : n = tasBody.length := Nat.succ.inj heq
      have htarget := (h.other hn shared (found.getD 0) fun b hb => by rw [hb]; rfl).2.1
      have hret : tasCode.get ⟨tasBody.length, h.lt⟩ = .retq := rfl
      dsimp only
      rw [htarget, hret, h.target]
      rfl

/-- What the caller finds in `rax` behind the call. -/
theorem Advanced.result (h : Advanced c e (some b) tasBody.length shared t)
    (hdi : e.regs .rdi = c.lock) (hlock : Apart c.lock 1 (frame (e.regs .rsp)) 16) :
    AgreesOutside c.mapping t.toData
      { regs := Function.update (Function.update e.regs .rax (b.signExtend 64)) .rsp
          (e.regs .rsp + 8)
        mem := e.mem.setWord (frame (e.regs .rsp)) (e.regs .rbp) } := by
  have hcall := tasCode_effects (x := ⟨e.regs, Function.update e.mem c.lock b⟩)
    (by rw [hdi]; exact hlock)
  have hagrees := h.agrees b fun b' hb' => Option.some.inj hb'
  have hsolo : solo c e b (tasBody.length + 1) =
      effects tasCode ⟨e.regs, Function.update e.mem c.lock b⟩ := rfl
  rw [hsolo, hcall] at hagrees
  dsimp only at hagrees
  rw [hdi, Function.update_self] at hagrees
  refine ⟨hagrees.regs, fun a ha => (hagrees.mem a ha).trans ?_⟩
  have hne : a ≠ c.lock := by
    rintro rfl
    exact ha c.mem_lock
  dsimp only
  rw [Function.update_of_ne hne]
  exact Bytes.setWord_congr (Function.update_of_ne hne ..)

/-- Of the byte found, the caller sees whether it is 0. -/
theorem signExtend_eq_zero (b : BitVec 8) : (b.signExtend 64).setWidth 32 = 0#32 ↔ b = 0 := by
  revert b
  decide

end Call

/-! ### Every run -/

section Runs
variable {P : Type} [DecidableEq P] {c : Setup} {s s' : World P} {p r : P} {act : Act}

namespace World

@[simp] theorem put_self (s : World P) (p : P) (shared : Bytes) (q : Proc) :
    (s.put p shared q).proc p = q := Function.update_self ..

@[simp] theorem put_of_ne (s : World P) (h : r ≠ p) (shared : Bytes) (q : Proc) :
    (s.put p shared q).proc r = s.proc r := Function.update_of_ne h ..

/-- What a step can be. -/
theorem step_cases (h : step c s (p, act) = some s') :
    (∃ x : Data, ((s.proc p).mode = .out ∨ (s.proc p).mode = .holding) ∧
      s' = s.put p (Function.update x.mem c.lock (s.shared c.lock))
        ⟨⟨⟨x.regs, Function.update x.mem c.lock (s.shared c.lock)⟩, (s.proc p).rip⟩,
          (s.proc p).mode⟩) ∨
    ((s.proc p).mode = .out ∧ (s.proc p).regs .rdi = c.lock ∧
      Apart c.mapping.base c.mapping.size (frame ((s.proc p).regs .rsp)) 16 ∧
      s' = s.put p s.shared ⟨⟨s.see c p, c.entry⟩, .calling (s.see c p) none 0⟩) ∨
    (∃ e found n t, act = .instr ∧ (s.proc p).mode = .calling e found n ∧
      X86.step c.code ⟨s.see c p, (s.proc p).rip⟩ = some t ∧
      s' = s.put p t.mem ⟨t, returned e
        (if n = tasBefore.length then some (s.shared c.lock) else found) n t⟩) ∨
    ((s.proc p).mode = .holding ∧
      s' = s.put p (Function.update s.shared c.lock 0) { s.proc p with mode := .out }) := by
  cases act with
  | work x =>
      cases hmode : (s.proc p).mode <;> simp only [step, hmode, reduceCtorEq] at h
      case out => exact .inl ⟨x, .inl rfl, (Option.some.inj h).symm⟩
      case holding => exact .inl ⟨x, .inr rfl, (Option.some.inj h).symm⟩
  | call =>
      cases hmode : (s.proc p).mode <;> simp only [step, hmode, reduceCtorEq] at h
      case out =>
        split_ifs at h with hwhen
        exact .inr (.inl ⟨rfl, hwhen.1, hwhen.2, (Option.some.inj h).symm⟩)
  | instr =>
      cases hmode : (s.proc p).mode <;> simp only [step, hmode, reduceCtorEq] at h
      case calling e found n =>
        obtain ⟨t, ht, hs'⟩ := Option.map_eq_some_iff.mp h
        exact .inr (.inr (.inl ⟨e, found, n, t, rfl, rfl, ht, hs'.symm⟩))
  | release =>
      cases hmode : (s.proc p).mode <;> simp only [step, hmode, reduceCtorEq] at h
      case holding => exact .inr (.inr (.inr ⟨rfl, (Option.some.inj h).symm⟩))

/-- Every process in `tas` is where it should be. -/
def Sane (c : Setup) (s : World P) : Prop :=
  ∀ p e found n, (s.proc p).mode = .calling e found n → Inside c e found n (s.proc p)

omit [DecidableEq P] in
/-- A call that has just begun. -/
theorem inside_entry (hdi : (s.proc p).regs .rdi = c.lock)
    (hframe : Apart c.mapping.base c.mapping.size (frame ((s.proc p).regs .rsp)) 16) :
    Inside c (s.see c p) none 0 ⟨⟨s.see c p, c.entry⟩, .calling (s.see c p) none 0⟩ where
  lt := by decide
  at_ := c.at_entry
  lock := hdi
  frame := hframe
  none_iff := by simp
  agrees old _ := by
    refine ⟨rfl, fun a ha => (Function.update_of_ne ?_ ..).symm⟩
    rintro rfl
    exact ha c.mem_lock

theorem sane_step (hs : Sane c s) (h : step c s (p, act) = some s') : Sane c s' := by
  intro r e found n hmode
  by_cases hr : r = p
  · subst hr
    obtain ⟨x, hout, rfl⟩ | ⟨-, hdi, hframe, rfl⟩ | ⟨e', found', n', t, -, hcalling, ht, rfl⟩ |
      ⟨-, rfl⟩ := step_cases h <;> rw [put_self] at hmode ⊢
    · rcases hout with hout | hout <;> rw [hout] at hmode <;> cases hmode
    · obtain ⟨rfl, rfl, rfl⟩ := Mode.calling.inj hmode
      exact inside_entry hdi hframe
    · have hinside := hs r e' found' n' hcalling
      have hadvance := hinside.advance ht
      dsimp only [returned] at hmode
      by_cases hlt : n' + 1 < tasCode.length
      · rw [if_pos hlt] at hmode
        obtain ⟨rfl, rfl, rfl⟩ := Mode.calling.inj hmode
        refine ⟨hlt, hadvance.at_ hlt, hinside.lock, hinside.frame, ?_, hadvance.agrees⟩
        have hnone := hinside.none_iff
        split_ifs with hex
        · simp only [false_iff]
          omega
        · rw [hnone]
          omega
      · rw [if_neg hlt] at hmode
        split at hmode <;> cases hmode
    · cases hmode
  · have hother : s'.proc r = s.proc r := by
      obtain ⟨x, -, rfl⟩ | ⟨-, -, -, rfl⟩ | ⟨e', found', n', t, -, -, -, rfl⟩ | ⟨-, rfl⟩ :=
        step_cases h <;> exact put_of_ne s hr ..
    rw [hother] at hmode ⊢
    exact hs r e found n hmode

theorem sane (h : (machine c).Reach System.any s) : Sane c s :=
  h.invariant (I := Sane c) (fun ha p e found n hmode => by rw [ha.2 p] at hmode; cases hmode)
    fun _ ha _ hstep => sane_step ha hstep

/-! ### The refinement -/

/-- Who has the lock after a step of `p`. -/
theorem has_put {shared : Bytes} {q : Proc} :
    (fun r => ((s.put p shared q).proc r).mode.has) =
      Function.update (fun r => (s.proc r).mode.has) p q.mode.has := by
  funext r
  by_cases hr : r = p
  · subst hr
    rw [put_self, Function.update_self]
  · rw [put_of_ne s hr, Function.update_of_ne hr]

/-- A step of a process that changes neither the lock nor whether it has it. -/
theorem abstract_put {shared : Bytes} {q : Proc} (hlock : shared c.lock = s.shared c.lock)
    (hhas : q.mode.has = (s.proc p).mode.has) : abstract c (s.put p shared q) = abstract c s := by
  unfold abstract
  rw [has_put, hhas, Function.update_eq_self_iff.mpr rfl]
  exact congrArg (Lock.mk · _) (congrArg (· != 0) hlock)

/-- The exchange is where the lock is tested and set. -/
theorem abstract_exchange {shared : Bytes} {q : Proc} (hno : (s.proc p).mode.has = false)
    (hlock : shared c.lock = 1) (hhas : q.mode.has = (s.shared c.lock == 0)) :
    Lock.step (abstract c s) (.tas p) = some (abstract c (s.put p shared q)) := by
  have htaken : (shared c.lock != 0) = true := by
    rw [hlock]
    rfl
  have hshared : (s.put p shared q).shared = shared := rfl
  unfold Lock.step abstract
  dsimp only
  rw [if_neg (by rw [hno]; exact Bool.false_ne_true), has_put, hhas, hshared, htaken]
  by_cases hfree : s.shared c.lock = 0
  · rw [hfree]
    rfl
  · have hkept : (s.shared c.lock == 0) = (s.proc p).mode.has := by
      rw [hno]
      exact beq_eq_false_iff_ne.mpr hfree
    have hset : (s.shared c.lock != 0) = true := bne_iff_ne.mpr hfree
    rw [hset, hkept, Function.update_eq_self_iff.mpr rfl]
    rfl

/-- The store that ends the section of `p`. -/
theorem abstract_release {q : Proc} (hhas : (s.proc p).mode.has = true)
    (hno : q.mode.has = false) :
    Lock.step (abstract c s) (.release p) =
      some (abstract c (s.put p (Function.update s.shared c.lock 0) q)) := by
  have hshared : (s.put p (Function.update s.shared c.lock 0) q).shared c.lock = 0 :=
    Function.update_self ..
  unfold Lock.step abstract
  dsimp only
  rw [if_pos hhas, has_put, hno, hshared]
  rfl

omit [DecidableEq P] in
/-- A call that is about to return has found something. -/
theorem found_at_return {e : Data} {found : Option (BitVec 8)} {q : Proc}
    (h : Inside c e found tasBody.length q) : ∃ b, found = some b := by
  refine Option.ne_none_iff_exists'.mp fun hnone => ?_
  exact absurd (h.none_iff.mp hnone) (by decide)

omit [DecidableEq P] in
/-- The caller takes itself for the holder exactly if its exchange has found 0. -/
theorem returned_holding {e : Data} {b : BitVec 8} {q : Proc} {shared : Bytes} {t : X86.State}
    (h : Inside c e (some b) tasBody.length q)
    (ht : Advanced c e (some b) tasBody.length shared t) :
    returned e (some b) tasBody.length t = if b = 0 then .holding else .out := by
  have hresult := (ht.result h.lock h.lock_apart).regs
  have hax : t.regs .rax = b.signExtend 64 := by
    rw [hresult]
    simp
  unfold returned
  rw [if_neg (by decide), hax]
  exact if_congr (signExtend_eq_zero b) rfl rfl

omit [DecidableEq P] in
/-- Behind the exchange, a process in `tas` has the lock or not, until it returns and after. -/
theorem has_returned {e : Data} {found : Option (BitVec 8)} {n : Nat} {q : Proc} {shared : Bytes}
    {t : X86.State} (h : Inside c e found n q) (ht : Advanced c e found n shared t) :
    (returned e found n t).has = (Mode.calling e found n).has := by
  by_cases hlt : n + 1 < tasCode.length
  · rw [returned, if_pos hlt]
    cases found <;> rfl
  · have hn := h.lt
    obtain rfl : n = tasBody.length := by
      show n = 6
      have hlen : tasCode.length = 7 := rfl
      omega
    obtain ⟨b, rfl⟩ := found_at_return h
    rw [returned_holding h ht]
    by_cases hb : b = 0
    · rw [if_pos hb, hb]
      rfl
    · rw [if_neg hb]
      exact (beq_eq_false_iff_ne.mpr hb).symm

/-- A step of a process is a step of the lock, or nothing to it. -/
theorem refines (hs : Sane c s) (h : step c s (p, act) = some s') :
    abstract c s' = abstract c s ∨ ∃ l, Lock.step (abstract c s) l = some (abstract c s') := by
  obtain ⟨x, -, rfl⟩ | ⟨hout, -, -, rfl⟩ | ⟨e, found, n, t, -, hcalling, ht, rfl⟩ |
    ⟨hholding, rfl⟩ := step_cases h
  · exact .inl (abstract_put (Function.update_self ..) rfl)
  · exact .inl (abstract_put rfl (by rw [hout]; rfl))
  · have hinside := hs p e found n hcalling
    have hadvance := hinside.advance ht
    have hmapping := hadvance.mapping c.lock c.mem_lock
    by_cases hn : n = tasBefore.length
    · subst hn
      rw [if_pos rfl] at hmapping
      rw [Function.update_self] at hmapping
      obtain rfl := hinside.none_iff.mpr (Nat.le_refl _)
      refine .inr ⟨.tas p, abstract_exchange (by rw [hcalling]; rfl) hmapping ?_⟩
      rfl
    · rw [if_neg hn] at hmapping hadvance ⊢
      refine .inl (abstract_put hmapping ?_)
      rw [hcalling]
      exact has_returned hinside hadvance
  · exact .inr ⟨.release p, abstract_release (by rw [hholding]; rfl) rfl⟩

/-- What is to be seen of the lock could have come about with a lock that is tested and set in
one step. -/
theorem abstract_reach (h : (machine c).Reach System.any s) :
    (Lock.machine (P := P)).Reach System.any (abstract c s) := by
  refine h.simulate (abstract c) (fun {a} ha => ?_) fun {a l b} ha _ hstep => ?_
  · obtain ⟨hfree, hout⟩ := ha
    unfold abstract
    rw [hfree]
    exact congrArg (Lock.mk false) (funext fun p => by rw [hout p]; rfl)
  · obtain ⟨p, act⟩ := l
    rcases refines (sane ha) hstep with heq | ⟨l, hl⟩
    · rw [heq]
      exact .refl
    · exact .single ⟨l, trivial, hl⟩

theorem exclusive (h : (machine c).Reach System.any s) :
    Exclusive (s.shared c.lock = 0) fun p => (s.proc p).mode.has = true :=
  (Lock.exclusive (abstract_reach h)).keep bne_eq_false_iff_eq.symm fun _ => Iff.rfl

/-- A process has just returned from a call that it made with the registers and the memory of
`e`, and that has found `b`. -/
structure Back (c : Setup) (s : World P) (p : P) (e : Data) (b : BitVec 8) : Prop where
  mode : (s.proc p).mode = if b = 0 then .holding else .out
  rip : (s.proc p).rip = e.mem.word (e.regs .rsp)
  rsp : (s.proc p).regs .rsp = e.regs .rsp + 8
  rax : (s.proc p).regs .rax = b.signExtend 64
  regs : ∀ r, r ≠ .rax → r ≠ .rsp → (s.proc p).regs r = e.regs r
  mem : ∀ a, ¬ c.mapping.Mem a → 8 ≤ (a - frame (e.regs .rsp)).toNat →
    (s.proc p).mem a = e.mem a

/-- **Every call returns as it should**, whatever others do meanwhile: after its last
instruction, the process is where its return address has been, with its registers and its stack
as its caller wants them; the result is the byte that its exchange has found; and it is the only
process that has the lock, if that byte is 0. -/
theorem tas_returns {e : Data} {b : BitVec 8} (h : (machine c).Reach System.any s)
    (hmode : (s.proc p).mode = .calling e (some b) tasBody.length) :
    ∃ s', step c s (p, .instr) = some s' ∧ Back c s' p e b ∧
      (b = 0 → ∀ r, r ≠ p → (s'.proc r).mode.has = false) := by
  have hinside := sane h p e _ _ hmode
  obtain ⟨n, hcode, hat⟩ := hinside.next
  obtain ⟨t, ht⟩ : ∃ t, X86.step c.code ⟨s.see c p, (s.proc p).rip⟩ = some t := by
    unfold X86.step
    rw [hcode]
    exact ⟨_, rfl⟩
  have hadvance := hinside.advance ht
  rw [if_neg (by decide)] at hadvance
  have hresult := hadvance.result hinside.lock hinside.lock_apart
  have hstep : step c s (p, .instr) =
      some (s.put p t.mem ⟨t, returned e (some b) tasBody.length t⟩) := by
    unfold step
    dsimp only
    rw [hmode]
    dsimp only
    rw [ht, if_neg (by decide)]
    rfl
  refine ⟨_, hstep, ⟨?_, ?_, ?_, ?_, fun r hax hsp => ?_, fun a ha hframe => ?_⟩, fun hb r hr => ?_⟩
  · rw [put_self]
    exact returned_holding hinside hadvance
  · rw [put_self]
    exact hadvance.rip rfl
  · rw [put_self, hresult.regs]
    simp
  · rw [put_self, hresult.regs]
    simp
  · rw [put_self, hresult.regs]
    simp [hax, hsp]
  · rw [put_self, hresult.mem a ha]
    exact Bytes.setWord_outside _ hframe
  · have hhas : ((s.put p t.mem ⟨t, returned e (some b) tasBody.length t⟩).proc p).mode.has =
        true := by
      rw [put_self, returned_holding hinside hadvance, if_pos hb]
      rfl
    have hnot := (exclusive (h.step trivial hstep)).not_holds hhas hr
    exact Bool.eq_false_iff.mpr hnot

/-- **Test and set is one step**: however the instructions of any number of processes are
interleaved, what is to be seen of the lock could have come about with a lock that is tested and
set in one step; and the byte of the lock is 0 exactly when no process has it, which no two have
at once. -/
theorem processes_refine (h : (machine c).Reach System.any s) :
    (Lock.machine (P := P)).Reach System.any (abstract c s) ∧
      Exclusive (s.shared c.lock = 0) fun p => (s.proc p).mode.has = true :=
  ⟨abstract_reach h, exclusive h⟩

/-- A mapping of ten bytes with the lock at its offset 4. -/
def small : Setup where
  mapping := ⟨0x1000, 10⟩
  lock := 0x1004
  code := .ofList 0 tasCode
  entry := 0
  mem_lock := by decide
  at_entry := Code.ofList_at 0 [] (by decide)

/-- Two processes that want the lock. -/
def two : World Bool where
  shared _ := 0
  proc _ := ⟨⟨⟨fun r => if r = .rdi then 0x1004 else 0x2000, fun _ => 0⟩, 0⟩, .out⟩

/-- The second is about to return with the lock, the first is behind its exchange. -/
def two_run : List (Bool × Act) :=
  [(false, .call), (true, .call), (true, .instr), (true, .instr), (true, .instr), (true, .instr),
   (false, .instr), (false, .instr), (false, .instr), (false, .instr), (true, .instr),
   (true, .instr)]

/-- Is the process about to return with the byte `b`? -/
def aboutToReturn (s : World Bool) (p : Bool) (b : BitVec 8) : Bool :=
  match (s.proc p).mode with
  | .calling _ (some b') n => b' == b && n == tasBody.length
  | _ => false

theorem two_reach : ∃ s : World Bool, (machine small).Reach System.any s ∧
    aboutToReturn s true 0 = true := by
  have hstart : (machine small).Init two := ⟨rfl, fun _ => rfl⟩
  exact System.reach_of_exec (machine small) System.any (step small) (fun _ _ => true)
    (fun h => h) hstart two_run (aboutToReturn · true 0) (fun _ _ _ _ => trivial)
    (by decide +kernel)

theorem processes_refine_two : ∃ s : World Bool, (machine small).Reach System.any s ∧
    aboutToReturn s true 0 = true ∧ ¬ (s.shared 0x1004 = 0 ∧ (s.proc true).mode.has = true) := by
  obtain ⟨s, hreach, hback⟩ := two_reach
  refine ⟨s, hreach, hback, fun hfree => ?_⟩
  exact (processes_refine hreach).2.free_iff.mp hfree.1 true hfree.2

theorem tas_returns_two : ∃ s s' : World Bool, (machine small).Reach System.any s ∧
    step small s (true, .instr) = some s' ∧ (s'.proc true).mode = .holding ∧
    (s'.proc false).mode.has = false := by
  obtain ⟨s, hreach, hback⟩ := two_reach
  obtain ⟨e, hmode⟩ : ∃ e, (s.proc true).mode = .calling e (some 0) tasBody.length := by
    unfold aboutToReturn at hback
    split at hback
    · rename_i e b n hmode
      simp only [Bool.and_eq_true, beq_iff_eq] at hback
      obtain ⟨rfl, rfl⟩ := hback
      exact ⟨e, hmode⟩
    · cases hback
  obtain ⟨s', hstep, hreturn, honly⟩ := tas_returns hreach hmode
  exact ⟨s, s', hreach, hstep, hreturn.mode, honly rfl false Bool.false_ne_true⟩

end World

end Runs

end Ece357.TasTest
