import Ece357.Sched.Savectx

/-!
# Ece357.Sched.ForkBytes

**`sched_fork` in bytes.** The stacks are copied and adjusted here in byte-addressed memory, and
the context is saved and restored by the instructions of `savectx` and `restorectx`.

Words at multiples of 8 are as in word-addressed memory (`Reads`), where the loop of `adjstack`
is followed through a chain of any length; so the child, when it is switched to for the first
time, finds itself behind the same call of `savectx`, on a stack with the frames of its parent
(`child_resumes`).
-/

namespace Ece357.Sched

open Ece357.Machine X86

/-! ### The code -/

/-- `memcpy` -/
def copyBytes (m : Bytes) (dst src : Word) (n : Nat) : Bytes := fun a =>
  if (a - dst).toNat < n then m (src + (a - dst)) else m a

/-- `adjstack` in its loop, over bytes. -/
structure ByteAdjust where
  mem : Bytes
  p : Word
  broken : Bool

/-- `adjstack` up to its loop. -/
def byteAdjstack (m : Bytes) (r : Regs) (ret adj : Word) : ByteAdjust :=
  let m := (m.setWord (r.sp - 8) ret).setWord (r.sp - 8 - 8) r.bp
  let p := r.sp - 8 - 8
  let prev := m.word p
  { mem := m, p := prev + adj, broken := false }

/-- A turn of the loop. -/
def byteTurn (lim0 lim1 adj : Word) (l : ByteAdjust) : ByteAdjust :=
  if l.broken then l
  else
    let prev := l.mem.word l.p
    let new := prev + adj
    if new < lim0 ∨ new > lim1 then { l with broken := true }
    else { l with mem := l.mem.setWord l.p new, p := new }

/-- `memcpy` and `n` turns of the loop of `adjstack`, which returns to `ret`. -/
def byteAdjustCopy (m : Bytes) (r : Regs) (stack newsp ret : Word) (n : Nat) : ByteAdjust :=
  let stackDiff := newsp - stack
  let m := copyBytes m newsp stack stackSize
  (byteTurn newsp (newsp + BitVec.ofNat 64 stackSize) stackDiff)^[n]
    (byteAdjstack m r ret stackDiff)

/-! ### Words in bytes -/

/-- The address of a word. -/
def Aligned (a : Word) : Prop := a.toNat % 8 = 0

/-- At the addresses of words, the two memories are the same. -/
def Reads (m : Memory) (b : Bytes) : Prop := ∀ a, Aligned a → m a = b.word a

section Words
variable {m : Memory} {b : Bytes} {a c v : Word}

theorem Reads.word (b : Bytes) : Reads b.word b := fun _ _ => rfl

theorem Aligned.apart (ha : Aligned a) (hc : Aligned c) (h : c ≠ a) : Apart a 8 c 8 := by
  have hne : c.toNat ≠ a.toNat := fun heq => h (BitVec.eq_of_toNat_eq heq)
  unfold Aligned at ha hc
  unfold Apart
  rw [BitVec.toNat_sub, BitVec.toNat_sub]
  omega

theorem Aligned.sub_eight (ha : Aligned a) : Aligned (a - 8) := by
  have height : (8 : Word).toNat = 8 := rfl
  unfold Aligned at ha ⊢
  rw [BitVec.toNat_sub, height]
  omega

theorem Reads.store (h : Reads m b) (ha : Aligned a) : Reads (m.store a v) (b.setWord a v) := by
  intro c hc
  by_cases hca : c = a
  · rw [hca, Memory.store_self, Bytes.word_setWord]
  · rw [Memory.store_of_ne m hca, Bytes.word_setWord_apart b (ha.apart hc hca), h c hc]

/-- A copy of whole words. -/
theorem Reads.copy (h : Reads m b) {dst src : Word} (hdst : Aligned dst) (hsrc : Aligned src)
    {n : Nat} (hn : n % 8 = 0) (hmax : n < 2 ^ 64) :
    Reads (memcpy m dst src n) (copyBytes b dst src n) := by
  intro c hc
  have hoffset : (c - dst).toNat % 8 = 0 := by
    unfold Aligned at hdst hc
    rw [BitVec.toNat_sub]
    omega
  unfold memcpy
  by_cases hin : (c - dst).toNat < n
  · rw [if_pos ⟨hin, hoffset⟩]
    have hsource : Aligned (src + (c - dst)) := by
      unfold Aligned at hsrc ⊢
      rw [BitVec.toNat_add]
      omega
    rw [h _ hsource]
    refine (Bytes.word_translate fun x hx => ?_).symm
    have hx' : (x - dst).toNat < n := by
      rw [BitVec.toNat_sub] at hin hoffset hx ⊢
      omega
    have hplace : src + (x - dst) = x - c + (src + (c - dst)) := by ring
    unfold copyBytes
    rw [if_pos hx', hplace]
  · rw [if_neg fun hboth => hin hboth.1, h c hc]
    refine (Bytes.word_congr fun x hx => if_neg ?_).symm
    rw [BitVec.toNat_sub] at hin hoffset hx ⊢
    omega

/-! ### The loop in bytes -/

/-- The loop in words and the loop in bytes are at the same point. -/
structure Follows (l : Adjust) (k : ByteAdjust) : Prop where
  mem : Reads l.mem k.mem
  p : k.p = l.p
  broken : k.broken = l.broken

variable {l : Adjust} {k : ByteAdjust}

theorem Follows.turn (h : Follows l k) (hp : Aligned l.p) (lim0 lim1 adj : Word) :
    Follows (adjTurn lim0 lim1 adj l) (byteTurn lim0 lim1 adj k) := by
  obtain ⟨mem, p, broken⟩ := k
  obtain ⟨hmem, rfl, rfl⟩ := h
  have hprev : l.mem l.p = mem.word l.p := hmem _ hp
  unfold adjTurn byteTurn
  dsimp only
  rw [← hprev]
  split_ifs
  · exact ⟨hmem, rfl, rfl⟩
  · exact ⟨hmem, rfl, rfl⟩
  · exact ⟨hmem.store hp, rfl, rfl⟩

/-- The words of an area that begins with one. -/
theorem aligned_of_mem {size : Nat} {B : Area size} (hB : Aligned B.base) (h : B.Mem a) :
    Aligned a := by
  obtain ⟨j, hj, rfl⟩ := h
  unfold Aligned at hB ⊢
  rw [BitVec.toNat_add, BitVec.toNat_ofNat]
  omega

/-- The bytes of a word of a stack. -/
theorem byte_of_mem {B : Area stackSize} {x : Word} (ha : B.Mem a) (hx : (x - a).toNat < 8) :
    (x - B.base).toNat < stackSize := by
  have hsize : stackSize % 8 = 0 ∧ stackSize < 2 ^ 63 := by decide +kernel
  have hmem := Area.mem_iff.mp ha
  rw [BitVec.toNat_sub] at hmem hx ⊢
  omega

/-- Along a chain, the two loops stay together. -/
theorem Follows.chain {size : Nat} {A B : Area size} (hB : Aligned B.base) {last b : Word}
    {rest : List Word} : ∀ (l : Adjust) (k : ByteAdjust),
    FrameChain (fun a => l.mem (a + A.shift B)) A last b rest → l.p = b + A.shift B →
    l.broken = false → Follows l k →
    Follows (adjTurns B.base B.limit (A.shift B) rest.length l)
        ((byteTurn B.base B.limit (A.shift B))^[rest.length] k) ∧
      Aligned (adjTurns B.base B.limit (A.shift B) rest.length l).p := by
  induction rest generalizing b with
  | nil =>
      intro l k hchain hp hl h
      refine ⟨h, ?_⟩
      show Aligned l.p
      rw [hp]
      exact aligned_of_mem hB (Area.mem_translate.mpr hchain.mem)
  | cons c rest ih =>
      intro l k hchain hp hl h
      cases hchain with
      | link hb hlt hbc hrest =>
          have halign : Aligned l.p := by
            rw [hp]
            exact aligned_of_mem hB (Area.mem_translate.mpr hb)
          have hturn := adjTurn_link (B := B) hl ((congrArg l.mem hp).trans hbc) hrest.mem.within
          have hnext := h.turn halign B.base B.limit (A.shift B)
          rw [List.length_cons, adjTurns_succ, Function.iterate_succ_apply]
          rw [hturn] at hnext ⊢
          refine ih _ _ (hrest.congr fun a ha => ?_) rfl hl hnext
          -- the turn has written below the rest of the chain
          refine Memory.store_of_ne _ (fun heq => ?_) _
          rw [hp, Area.translate_inj] at heq
          rw [heq] at ha
          exact absurd hlt (BitVec.not_lt.mpr ha)

/-- A word that does not lead into the area ends the loop in bytes, too. -/
theorem Follows.leaves {size : Nat} {A B : Area size} {last : Word} (h : Follows l k)
    (hp : Aligned l.p) (hl : l.broken = false) (hfoot : l.mem l.p = last) (hlast : ¬ A.Within last)
    (n : Nat) : ((byteTurn B.base B.limit (A.shift B))^[n + 1] k).broken = true ∧
      Reads l.mem ((byteTurn B.base B.limit (A.shift B))^[n + 1] k).mem := by
  have hend := h.turn hp B.base B.limit (A.shift B)
  rw [adjTurn_leaves hl hfoot hlast] at hend
  have hfixed : byteTurn B.base B.limit (A.shift B) (byteTurn B.base B.limit (A.shift B) k) =
      byteTurn B.base B.limit (A.shift B) k := if_pos hend.broken
  rw [Function.iterate_succ_apply, Function.iterate_fixed hfixed]
  exact ⟨hend.broken, hend.mem⟩

end Words

/-! ### From the copy to the first instruction of the child -/

/-- A task that forks, with the stack `A`, registers `r` and the record of the child around
`buf`: the new stack `B` is its own, and the context of the child is neither in it nor where
`savectx` is called. -/
structure Forking (A B : Area stackSize) (r : Regs) (buf : Word) : Prop where
  apart : Stacks A B r
  parent : Aligned A.base
  child : Aligned B.base
  sp : Aligned r.sp
  ctx : Apart buf jbSize B.base stackSize
  ret : Apart buf jbSize (r.sp - 8) 8

section Fork
variable {A B : Area stackSize} {r : Regs} {buf last : Word} {rest : List Word} {m : Bytes}
  {n : Nat}

/-- The call of `adjstack`, in words and in bytes. -/
theorem follows_adjstack (h : Forking A B r buf) (m : Bytes) (ret : Word) :
    Follows (adjstack (memcpy m.word B.base A.base stackSize) r ret (A.shift B))
      (byteAdjstack (copyBytes m B.base A.base stackSize) r ret (A.shift B)) := by
  have hsize : stackSize % 8 = 0 ∧ stackSize < 2 ^ 64 := by decide +kernel
  have hcopy := (Reads.word m).copy h.child h.parent hsize.1 hsize.2
  refine ⟨(hcopy.store h.sp.sub_eight).store h.sp.sub_eight.sub_eight, ?_, rfl⟩
  rw [adjstack_p]
  exact congrArg (· + A.shift B) (Bytes.word_setWord ..)

/-- The copy in the child's stack, adjusted in bytes: the loop comes to its end, with the words
that it has in word-addressed memory. -/
theorem byteAdjustCopy_follows (h : Forking A B r buf) (hchain : FrameChain m.word A last r.bp rest)
    (hlast : ¬ A.Within last) (ret : Word) (hn : rest.length < n) :
    (byteAdjustCopy m r A.base B.base ret n).broken = true ∧
      Reads (adjustCopy m.word r A.base B.base ret rest.length).mem
        (byteAdjustCopy m r A.base B.base ret n).mem := by
  have hwalk := adjustCopy_walk h.apart hchain ret
  have hcopied : FrameChain (fun a => (adjstack (memcpy m.word B.base A.base stackSize) r ret
      (A.shift B)).mem (a + A.shift B)) A last r.bp rest := by
    refine hchain.congr_mem fun a ha => ?_
    rw [adjstack_mem h.apart _ _ _ (Area.mem_translate.mpr ha), Area.memcpy_mem _ ha]
  obtain ⟨hfollows, halign⟩ := Follows.chain h.child _ _ hcopied (adjstack_p ..) rfl
    (follows_adjstack h m ret)
  have hleft := hfollows.leaves (B := B) halign hwalk.broken hwalk.foot hlast
    (n - (1 + rest.length))
  have hturns : n = n - (1 + rest.length) + 1 + rest.length := by omega
  rw [← Function.iterate_add_apply, ← hturns] at hleft
  exact hleft

/-- What the processor has when the parent enters `savectx`, in the call that returns to `ret'`.
Memory is as `adjstack` has left it, but for the return address: what `sched_fork` writes to
`running->procs` and `proc_count` in between, which is neither in a stack nor in the buffer, is
left out. -/
structure Saving (code : Code) (r : Regs) (buf : Word) (m : Bytes) (ret' : Word) (s : X86.State) :
    Prop where
  code : code.At s.rip savectxCode
  regs : saved s = { r with sp := r.sp - 8, pc := s.rip }
  rdi : s.regs .rdi = buf
  mem : s.mem = m.setWord (r.sp - 8) ret'

/-- What it has when somebody enters `restorectx` for the child: the context of the child, and
its stack, are as its parent has left them. -/
structure Starting (code : Code) (B : Area stackSize) (buf : Word) (m : Bytes) (t : X86.State) :
    Prop where
  code : code.At t.rip restorectxCode
  rdi : t.regs .rdi = buf
  ctx : ∀ x, (x - buf).toNat < jbSize → t.mem x = m x
  stack : ∀ x, (x - B.base).toNat < stackSize → t.mem x = m x

/-- **The child starts where its parent has been**, on a copy of the stack with a chain of frames
of its own. The parent gets 0 from `savectx`, moves the context, and goes on; whatever happens
then, when `restorectx` is called for the child, `savectx` returns once more, to the same place,
with the stack and frame pointers moved; the chain of frame pointers is that of the parent,
moved; and every other word of the stack (return addresses among them) is as it was. -/
theorem child_resumes {code : Code} {ret ret' : Word} {s : X86.State} (h : Forking A B r buf)
    (hchain : FrameChain m.word A last r.bp rest) (hlast : ¬ A.Within last) (hn : rest.length < n)
    (hs : Saving code r buf (byteAdjustCopy m r A.base B.base ret n).mem ret' s) :
    (byteAdjustCopy m r A.base B.base ret n).broken = true ∧
    ∃ s', steps code 12 s = some s' ∧ saved s' = { r with pc := ret' } ∧ s'.regs .rax = 0 ∧
      ∀ t, Starting code B buf (moveCtx s'.mem buf (A.shift B)) t →
        ∃ t', steps code 11 t = some t' ∧
          saved t' = { r with bp := r.bp + A.shift B, sp := r.sp + A.shift B, pc := ret' } ∧
          t'.regs .rax = lowHalf (t.regs .rsi) ∧
          FrameChain t'.mem.word B last (r.bp + A.shift B) (rest.map (· + A.shift B)) ∧
          ∀ a, A.Mem a → (∀ c ∈ links r.bp rest, a ≠ c) →
            t'.mem.word (a + A.shift B) = m.word a := by
  obtain ⟨hbroken, hreads⟩ := byteAdjustCopy_follows h hchain hlast ret hn
  have hwalk := adjustCopy_walk h.apart hchain ret
  have hsp : s.regs .rsp = r.sp - 8 := congrArg Regs.sp hs.regs
  have hapart : Apart (s.regs .rdi) jbSize (s.regs .rsp) 8 := by
    rw [hs.rdi, hsp]
    exact h.ret
  have hret : s.mem.word (r.sp - 8) = ret' := by
    rw [hs.mem]
    exact Bytes.word_setWord ..
  obtain ⟨s', hsteps, hctx, hsaved, hax, -, houtside⟩ := savectx_returns hs.code hapart
  have hback : saveRegs s.mem.word (saved s) = { r with pc := ret' } := by
    rw [saveRegs, hs.regs]
    dsimp only
    rw [hret, sub_add_cancel]
  refine ⟨hbroken, s', hsteps, hsaved.trans hback, hax, fun t ht => ?_⟩
  obtain ⟨t', htsteps, htsaved, htax, htmem⟩ := restorectx_jumps ht.code
  -- a word of the child's stack is as the loop has left it
  have hword : ∀ a, B.Mem a → t'.mem.word a =
      (adjustCopy m.word r A.base B.base ret rest.length).mem a := by
    intro a ha
    have hkept : ∀ x, (x - a).toNat < 8 → t'.mem x = s.mem x := by
      intro x hx
      have hin := byte_of_mem ha hx
      have hout := h.ctx.outside hin
      rw [htmem, ht.stack x hin, moveCtx_outside _ _ _ hout]
      exact houtside x (by rw [hs.rdi]; exact hout)
    have halign := aligned_of_mem h.child ha
    have hne : a ≠ r.sp - 8 := fun heq => h.apart.ret (heq ▸ ha)
    rw [Bytes.word_congr hkept, hs.mem,
      Bytes.word_setWord_apart _ (h.sp.sub_eight.apart halign hne), hreads a halign]
  refine ⟨t', htsteps, ?_, htax, ?_, fun a ha hlinks => ?_⟩
  · calc saved t' = ctxAt t.mem buf := by rw [htsaved, ht.rdi]
      _ = ctxAt (moveCtx s'.mem buf (A.shift B)) buf := ctxAt_congr ht.ctx
      _ = _ := by rw [ctxAt_moveCtx, ← hs.rdi, hctx, hback]
  · exact hwalk.chain.congr_mem hword
  · have hB := Area.mem_translate (B := B).mpr ha
    have hother := hwalk.other (a + A.shift B) fun c hc heq =>
      hlinks c hc (Area.translate_inj.mp heq)
    rw [hword _ hB, hother, adjstack_mem h.apart _ _ _ hB, Area.memcpy_mem _ ha]

/-- A processor with the registers `r` that calls a function at `rip` with two arguments. -/
def calling (r : Regs) (rdi rsi : Word) (mem : Bytes) (rip : Word) : X86.State where
  regs
    | .rbx => r.bx
    | .rbp => r.bp
    | .r12 => r.r12
    | .r13 => r.r13
    | .r14 => r.r14
    | .r15 => r.r15
    | .rsp => r.sp
    | .rdi => rdi
    | .rsi => rsi
    | _ => 0
  mem := mem
  rip := rip

/-- A stack with two frames, and the registers at a `sched_fork` in the lower one. -/
def twoFrames : Bytes := Bytes.setWord (fun _ => 0) 0x10100 0x10200

def forkRegs : Regs := ⟨0, 0x10100, 0, 0, 0, 0, 0x100c0, 0⟩

theorem twoFrames_chain : FrameChain twoFrames.word parentArea 0 forkRegs.bp [0x10200] := by
  have hfirst : twoFrames.word 0x10100 = 0x10200 := Bytes.word_setWord ..
  have hsecond : twoFrames.word 0x10200 = 0 := by decide +kernel
  exact .link (by decide +kernel) (by decide) hfirst (.foot (by decide +kernel) hsecond)

theorem forking_two : Forking parentArea childArea forkRegs 0x80000 where
  apart := ⟨by decide +kernel, by decide +kernel, by decide +kernel⟩
  parent := rfl
  child := rfl
  sp := rfl
  ctx := by decide +kernel
  ret := by decide +kernel

theorem child_resumes_two : ∃ s' t' : X86.State, saved s' = { forkRegs with pc := 0x777 } ∧
    saved t' = { forkRegs with bp := 0x40100, sp := 0x400c0, pc := 0x777 } ∧
    t'.regs .rax = 1 ∧ t'.mem.word 0x40100 = 0x40200 := by
  have hboth : (Code.ofList 0 (savectxCode ++ restorectxCode)).At 0
      (savectxCode ++ restorectxCode) := Code.ofList_at 0 [] (by decide)
  have hrestore : (Code.ofList 0 (savectxCode ++ restorectxCode)).At 12 restorectxCode :=
    Code.ofList_at 0 savectxCode (by decide)
  have hshift : parentArea.shift childArea = 0x30000 := by decide +kernel
  have hn : [(0x10200 : Word)].length < 2 := Nat.lt_succ_self 1
  have hs : Saving (Code.ofList 0 (savectxCode ++ restorectxCode)) forkRegs 0x80000
      (byteAdjustCopy twoFrames forkRegs parentArea.base childArea.base 0x555 2).mem 0x777
      (calling { forkRegs with sp := forkRegs.sp - 8 } 0x80000 0
        ((byteAdjustCopy twoFrames forkRegs parentArea.base childArea.base 0x555 2).mem.setWord
          (forkRegs.sp - 8) 0x777) 0) := ⟨hboth.left, rfl, rfl, rfl⟩
  obtain ⟨-, s', -, hsaved, -, hchild⟩ :=
    child_resumes forking_two twoFrames_chain (by decide +kernel) hn hs
  obtain ⟨t', -, htsaved, htax, htchain, -⟩ := hchild (calling forkRegs 0x80000 1
    (moveCtx s'.mem 0x80000 (parentArea.shift childArea)) 12)
    ⟨hrestore, rfl, fun _ _ => rfl, fun _ _ => rfl⟩
  rw [hshift] at htsaved htchain
  exact ⟨s', t', hsaved, htsaved, htax, htchain.link_eq⟩

end Fork


end Ece357.Sched
