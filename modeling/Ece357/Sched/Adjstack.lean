import Ece357.Machine.Words
import Mathlib.Data.List.Basic

/-!
# Ece357.Sched.Adjstack

**Adjusting a copied stack**, `ps9/adjstack.c`. The copy of a stack still holds the frame
pointers of the original. The loop follows their chain through the copy and adds the distance
of the two stacks to each, until it comes to a word that does not lead into the stack.

A chain of any length is walked link by link (`adjTurns_walk`); what comes of its last word
depends on where that word points (`adjTurn_leaves`, `adjTurn_limit`). A word that holds the
address just behind the stack counts as a link: the test for the upper limit lets it pass.
-/

namespace Ece357.Sched

open Ece357.Machine

/-! ### The loop -/

/-- `STACK_SIZE`. -/
@[irreducible] def stackSize : Nat := 65536

/-- The registers that `savectx` saves. -/
structure Regs where
  bx : Word
  bp : Word
  r12 : Word
  r13 : Word
  r14 : Word
  r15 : Word
  sp : Word
  pc : Word
  deriving DecidableEq, Repr

/-- An access to memory through the pointer `p`. -/
inductive Access
  | read (a : Word)
  | write (a : Word)
  deriving DecidableEq, Repr

/-- The word accessed. -/
def Access.addr : Access → Word
  | .read a | .write a => a

/-- `adjstack` in its loop: the memory and the variable `p`. -/
structure Adjust where
  mem : Memory
  p : Word
  /-- Has the loop reached its `break`? -/
  broken : Bool
  /-- Ghost: the accesses of the loop so far, newest first. -/
  accesses : List Access

/-- A call of a function that will return to `ret`. -/
def call (m : Memory) (r : Regs) (ret : Word) : Memory × Regs :=
  (m.store (r.sp - 8) ret, { r with sp := r.sp - 8 })

/-- `adjstack` up to its loop, with the registers `r` of its caller. On entry, a function pushes
the frame pointer of its caller, and makes the stack pointer its own. -/
def adjstack (m : Memory) (r : Regs) (ret adj : Word) : Adjust :=
  let (m, r) := call m r ret
  let m := m.store (r.sp - 8) r.bp
  let p := r.sp - 8
  let prev := m p
  { mem := m, p := prev + adj, broken := false, accesses := [] }

/-- A turn of the loop. -/
def adjTurn (lim0 lim1 adj : Word) (l : Adjust) : Adjust :=
  if l.broken then l
  else
    let prev := l.mem l.p
    let new := prev + adj
    if new < lim0 ∨ new > lim1 then
      { l with broken := true, accesses := .read l.p :: l.accesses }
    else
      { l with mem := l.mem.store l.p new, p := new,
               accesses := .write l.p :: .read l.p :: l.accesses }

/-- `n` turns of the loop, or fewer if it is left before. -/
def adjTurns (lim0 lim1 adj : Word) (n : Nat) (l : Adjust) : Adjust :=
  (adjTurn lim0 lim1 adj)^[n] l

theorem adjTurns_succ (lim0 lim1 adj : Word) (n : Nat) (l : Adjust) :
    adjTurns lim0 lim1 adj (n + 1) l = adjTurns lim0 lim1 adj n (adjTurn lim0 lim1 adj l) := rfl

theorem adjTurns_one (lim0 lim1 adj : Word) (l : Adjust) :
    adjTurns lim0 lim1 adj 1 l = adjTurn lim0 lim1 adj l := rfl

theorem adjTurns_add (lim0 lim1 adj : Word) (k n : Nat) (l : Adjust) :
    adjTurns lim0 lim1 adj (k + n) l = adjTurns lim0 lim1 adj k (adjTurns lim0 lim1 adj n l) :=
  Function.iterate_add_apply ..

theorem adjTurns_broken {lim0 lim1 adj : Word} {l : Adjust} (h : l.broken = true) (n : Nat) :
    adjTurns lim0 lim1 adj n l = l :=
  Function.iterate_fixed (by simp [adjTurn, h]) n

/-- A turn begins with a look at the word `p` points to. -/
theorem adjTurn_reads {lim0 lim1 adj : Word} {l : Adjust} (h : l.broken = false) :
    .read l.p ∈ (adjTurn lim0 lim1 adj l).accesses := by
  unfold adjTurn
  simp only [h, Bool.false_eq_true, if_false]
  split_ifs <;> simp

/-! ### Chains of frame pointers -/

/-- From `b` on, memory holds a chain of addresses in `A`, in strictly increasing order: the
word at `b` holds the first of `rest`, and so on; the last of the chain holds `last`. -/
inductive FrameChain {size : Nat} (m : Memory) (A : Area size) (last : Word) :
    Word → List Word → Prop
  | foot {b : Word} (hb : A.Mem b) (hlast : m b = last) : FrameChain m A last b []
  | link {b c : Word} {rest : List Word} (hb : A.Mem b) (hlt : b < c) (hbc : m b = c)
      (h : FrameChain m A last c rest) : FrameChain m A last b (c :: rest)

section Chain
variable {size : Nat} {m m' : Memory} {A B : Area size} {last b : Word} {rest : List Word}

theorem FrameChain.link_eq {c : Word} (h : FrameChain m A last b (c :: rest)) : m b = c := by
  cases h with
  | link _ _ hbc => exact hbc

theorem FrameChain.mem (h : FrameChain m A last b rest) : A.Mem b := by
  cases h with
  | foot hb => exact hb
  | link hb => exact hb

theorem FrameChain.le (h : FrameChain m A last b rest) : ∀ c ∈ b :: rest, b ≤ c := by
  induction h with
  | foot => simp
  | @link b c rest hb hlt hbc h ih =>
      intro d hd
      rcases List.mem_cons.mp hd with rfl | hd
      · exact BitVec.le_refl _
      · exact BitVec.le_trans (BitVec.le_of_lt hlt) (ih d hd)

/-- A chain is not affected by what is below it. -/
theorem FrameChain.congr (h : FrameChain m A last b rest) (heq : ∀ a, b ≤ a → m' a = m a) :
    FrameChain m' A last b rest := by
  induction h with
  | foot hb hlast => exact .foot hb ((heq _ (BitVec.le_refl _)).trans hlast)
  | link hb hlt hbc h ih =>
      refine .link hb hlt ((heq _ (BitVec.le_refl _)).trans hbc) (ih fun a ha => heq a ?_)
      exact BitVec.le_trans (BitVec.le_of_lt hlt) ha

/-! ### Walking a chain -/

/-- The words of a chain that hold the address of another one of it. -/
def links (b : Word) (rest : List Word) : List Word := (b :: rest).dropLast

/-- From `l` to `l'`, the loop has adjusted the copy in `B` of a chain in `A`, except for its
last word, which is the next to be looked at. -/
structure Walked (A B : Area size) (last b : Word) (rest : List Word) (l l' : Adjust) : Prop where
  broken : l'.broken = false
  foot : l'.mem l'.p = last
  chain : FrameChain l'.mem B last (b + A.shift B) (rest.map (· + A.shift B))
  other : ∀ a, (∀ c ∈ links b rest, a ≠ c + A.shift B) → l'.mem a = l.mem a
  accesses : ∀ x ∈ l'.accesses, x ∈ l.accesses ∨ ∃ c ∈ links b rest, x.addr = c + A.shift B

/-- A link that leads into the area is translated. -/
theorem adjTurn_link {l : Adjust} {c : Word} (hl : l.broken = false) (hc : l.mem l.p = c)
    (hin : A.Within c) : adjTurn B.base B.limit (A.shift B) l =
      { l with mem := l.mem.store l.p (c + A.shift B), p := c + A.shift B,
               accesses := .write l.p :: .read l.p :: l.accesses } := by
  obtain ⟨hlow, hhigh⟩ := Area.within_translate (B := B).mpr hin
  unfold adjTurn
  simp only [hl, hc, Bool.false_eq_true, if_false]
  rw [if_neg]
  intro hout
  rcases hout with hout | hout
  · exact absurd hlow (BitVec.not_le.mpr hout)
  · exact absurd hhigh (BitVec.not_le.mpr hout)

/-- A word that does not lead into the area ends the loop. -/
theorem adjTurn_leaves {l : Adjust} {c : Word} (hl : l.broken = false) (hc : l.mem l.p = c)
    (hout : ¬ A.Within c) : adjTurn B.base B.limit (A.shift B) l =
      { l with broken := true, accesses := .read l.p :: l.accesses } := by
  have hout' : ¬ B.Within (c + A.shift B) := fun h => hout (Area.within_translate.mp h)
  unfold adjTurn
  simp only [hl, hc, Bool.false_eq_true, if_false]
  rw [if_pos]
  rw [Area.Within, not_and_or, BitVec.not_le, BitVec.not_le] at hout'
  exact hout'

/-- **The loop walks a chain of any length**, one turn for a link. -/
theorem adjTurns_walk : ∀ l : Adjust, FrameChain (fun a => l.mem (a + A.shift B)) A last b rest →
    l.p = b + A.shift B → l.broken = false →
    Walked A B last b rest l (adjTurns B.base B.limit (A.shift B) rest.length l) := by
  induction rest generalizing b with
  | nil =>
      intro l hcopy hp hl
      cases hcopy with
      | foot hb hlast =>
          refine ⟨hl, ?_, .foot (Area.mem_translate.mpr hb) hlast, fun a _ => rfl,
            fun x hx => .inl hx⟩
          show l.mem l.p = last
          rw [hp]
          exact hlast
  | cons c rest ih =>
      intro l hcopy hp hl
      cases hcopy with
      | link hb hlt hbc hcopy =>
          have hturn := adjTurn_link (B := B) hl ((congrArg l.mem hp).trans hbc) hcopy.mem.within
          rw [List.length_cons, adjTurns_succ, hturn]
          -- what the turn has written is below the rest of the chain
          have hbelow : ∀ a, c ≤ a → a + A.shift B ≠ l.p := by
            intro a ha heq
            rw [hp, Area.translate_inj] at heq
            rw [heq] at ha
            exact absurd hlt (BitVec.not_lt.mpr ha)
          have hrest : FrameChain (fun a => l.mem.store l.p (c + A.shift B) (a + A.shift B)) A last
              c rest := hcopy.congr fun a ha => Memory.store_of_ne _ (hbelow a ha) _
          have hwalk := ih
            { l with mem := l.mem.store l.p (c + A.shift B), p := c + A.shift B,
                     accesses := .write l.p :: .read l.p :: l.accesses } hrest rfl hl
          have hlater : ∀ d ∈ links c rest, c ≤ d := fun d hd =>
            hcopy.le d (List.dropLast_subset _ hd)
          have hlinks : links b (c :: rest) = b :: links c rest := rfl
          refine ⟨hwalk.broken, hwalk.foot, ?_, fun a ha => ?_, fun x hx => ?_⟩
          · refine .link (Area.mem_translate.mpr hb) (Area.lt_translate hb hcopy.mem hlt) ?_
              hwalk.chain
            rw [← hp, hwalk.other l.p fun d hd => (hbelow d (hlater d hd)).symm]
            exact Memory.store_self ..
          · rw [hlinks, List.forall_mem_cons] at ha
            refine (hwalk.other a ha.2).trans (Memory.store_of_ne _ ?_ _)
            rw [hp]
            exact ha.1
          · rw [hlinks]
            rcases hwalk.accesses x hx with hx | ⟨d, hd, hx⟩
            · have hnew : x.addr = b + A.shift B ∨ x ∈ l.accesses := by
                rcases List.mem_cons.mp hx with rfl | hx
                · exact .inl hp
                · rcases List.mem_cons.mp hx with rfl | hx
                  · exact .inl hp
                  · exact .inr hx
              rcases hnew with haddr | hold
              · exact .inr ⟨b, List.mem_cons_self, haddr⟩
              · exact .inl hold
            · exact .inr ⟨d, List.mem_cons_of_mem _ hd, hx⟩

end Chain

end Ece357.Sched
