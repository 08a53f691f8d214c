import Ece357.Machine.Run
import Mathlib.Algebra.BigOperators.Group.Finset.Basic
import Mathlib.Data.Fintype.BigOperators
import Mathlib.Data.List.Basic

/-!
# Ece357.Machine.Fifo

**A bounded FIFO between processes**, known by what it promises (`Fifo`): words come out in the
order they went in; a write waits while there is no room, a read while there is nothing.

Several writers that each write a sequence of their own write an interleaving of these sequences,
whatever the schedule: `Merge` says so of the list of what was written, with its writers. What
has been read, and what is in the FIFO behind it, is such a list (`Session.split`).
-/

namespace Ece357.Machine

/-- A FIFO of `size` elements. A call that would wait is `none`. -/
structure Fifo (α : Type) where
  Queue : Type
  empty : Queue
  contents : Queue → List α
  wr : Queue → α → Option Queue
  rd : Queue → Option (α × Queue)
  size : Nat
  size_pos : 0 < size
  contents_empty : contents empty = []
  wr_some : ∀ {q q' d}, wr q d = some q' → contents q' = contents q ++ [d]
  wr_room : ∀ {q} d, (contents q).length < size → ∃ q', wr q d = some q'
  rd_some : ∀ {q d q'}, rd q = some (d, q') → contents q = d :: contents q'
  rd_ready : ∀ {q}, contents q ≠ [] → ∃ d q', rd q = some (d, q')

/-- The FIFO that is a list. -/
def Fifo.ofList (α : Type) (size : Nat) (h : 0 < size) : Fifo α where
  Queue := List α
  empty := []
  contents q := q
  wr q d := if q.length < size then some (q ++ [d]) else none
  rd q := match q with
    | [] => none
    | d :: q => some (d, q)
  size := size
  size_pos := h
  contents_empty := rfl
  wr_some h := by
    split at h
    · exact (Option.some.inj h).symm
    · cases h
  wr_room d h := ⟨_, if_pos h⟩
  rd_some {q d q'} h := by
    cases q with
    | nil => cases h
    | cons e q =>
        obtain ⟨rfl, rfl⟩ := Prod.mk.inj (Option.some.inj h)
        rfl
  rd_ready {q} h := by
    cases q with
    | nil => exact absurd rfl h
    | cons d q => exact ⟨d, q, rfl⟩

/-! ### Interleavings -/

section Merge
variable {ω : Type} [DecidableEq ω] {xs ys : List (ω × Nat)} {sent : ω → Nat} {w : ω} {k : Nat}

/-- The numbers of one writer. -/
def ofWriter (w : ω) (xs : List (ω × Nat)) : List Nat := (xs.filter (·.1 = w)).map (·.2)

/-- Of each writer, the list has the numbers below `sent`, in order. -/
def Merge (xs : List (ω × Nat)) (sent : ω → Nat) : Prop :=
  ∀ w, ofWriter w xs = List.range (sent w)

instance [Fintype ω] : Decidable (Merge xs sent) :=
  inferInstanceAs (Decidable (∀ w, ofWriter w xs = List.range (sent w)))

theorem ofWriter_append (w : ω) (xs ys : List (ω × Nat)) :
    ofWriter w (xs ++ ys) = ofWriter w xs ++ ofWriter w ys := by
  unfold ofWriter
  rw [List.filter_append, List.map_append]

theorem ofWriter_self (w : ω) (k : Nat) : ofWriter w [(w, k)] = [k] := by
  simp [ofWriter]

theorem ofWriter_other {v : ω} (h : v ≠ w) (k : Nat) : ofWriter w [(v, k)] = [] := by
  simp [ofWriter, h]

theorem Merge.nil : Merge ([] : List (ω × Nat)) fun _ => 0 := fun _ => rfl

/-- The next number of a writer is put behind. -/
theorem Merge.snoc (h : Merge xs sent) (w : ω) :
    Merge (xs ++ [(w, sent w)]) (Function.update sent w (sent w + 1)) := by
  intro v
  rw [ofWriter_append, h v]
  by_cases hv : v = w
  · subst hv
    rw [ofWriter_self, Function.update_self, List.range_succ]
  · rw [ofWriter_other (Ne.symm hv), List.append_nil, Function.update_of_ne hv]

theorem Merge.sent_eq (h : Merge xs sent) (w : ω) : sent w = (ofWriter w xs).length := by
  rw [h w, List.length_range]

/-- The first part of an interleaving is one of first parts. -/
theorem Merge.left (h : Merge (xs ++ ys) sent) : Merge xs fun w => (ofWriter w xs).length := by
  intro w
  have hall := h w
  rw [ofWriter_append] at hall
  have hlen : (ofWriter w xs).length ≤ sent w := by
    have hboth := congrArg List.length hall
    rw [List.length_append, List.length_range] at hboth
    omega
  have htake := List.prefix_iff_eq_take.mp ⟨_, hall⟩
  rw [List.take_range, Nat.min_eq_left hlen] at htake
  exact htake

/-- In an interleaving, each number is how many of its writer there are before it. -/
theorem Merge.number (h : Merge (xs ++ (w, k) :: ys) sent) : k = (ofWriter w xs).length := by
  have hcut : xs ++ (w, k) :: ys = (xs ++ [(w, k)]) ++ ys := by simp
  rw [hcut] at h
  have hlast : ofWriter w (xs ++ [(w, k)]) = List.range (ofWriter w (xs ++ [(w, k)])).length :=
    h.left w
  rw [ofWriter_append, ofWriter_self, List.length_append, List.length_singleton,
    List.range_succ] at hlast
  have hfirst := List.append_inj_right' hlast rfl
  exact List.singleton_inj.mp hfirst

/-- A list is what its writers have in it. -/
theorem length_eq_sum [Fintype ω] (xs : List (ω × Nat)) :
    xs.length = ∑ w, (ofWriter w xs).length := by
  induction xs with
  | nil => exact (Finset.sum_eq_zero fun _ _ => rfl).symm
  | cons x xs ih =>
      obtain ⟨v, k⟩ := x
      have hcons : ∀ w, (ofWriter w ((v, k) :: xs)).length =
          (if v = w then 1 else 0) + (ofWriter w xs).length := by
        intro w
        rw [← List.singleton_append, ofWriter_append, List.length_append]
        by_cases hv : v = w
        · rw [if_pos hv, ← hv, ofWriter_self, List.length_singleton]
        · rw [if_neg hv, ofWriter_other hv, List.length_nil]
      simp only [hcons, Finset.sum_add_distrib, Finset.sum_ite_eq, Finset.mem_univ, if_true,
        List.length_cons, ← ih]
      omega

theorem Merge.lt (h : Merge xs sent) (hk : (w, k) ∈ xs) : k < sent w := by
  have hmem : k ∈ ofWriter w xs := List.mem_map.mpr ⟨(w, k), by simp [hk], rfl⟩
  rw [h w] at hmem
  exact List.mem_range.mp hmem

theorem Merge.length_eq [Fintype ω] (h : Merge xs sent) : xs.length = ∑ w, sent w := by
  rw [length_eq_sum]
  exact Finset.sum_congr rfl fun w _ => (h.sent_eq w).symm

end Merge

/-! ### Writers and a reader -/

/-- Writers of sequences, and what a reader has got of them. -/
structure Session {α : Type} (F : Fifo α) (ω : Type) where
  queue : F.Queue
  sent : ω → Nat
  got : List α

namespace Session

variable {α ω : Type} {F : Fifo α}

/-- What can happen: a write by a writer, or a read. -/
inductive Act (ω : Type)
  | write (w : ω)
  | read

variable [DecidableEq ω]

/-- The writer `w` writes `msg w k` as its element `k`. -/
def step (msg : ω → Nat → α) (s : Session F ω) : Act ω → Option (Session F ω)
  | .write w =>
      (F.wr s.queue (msg w (s.sent w))).map fun q =>
        { s with queue := q, sent := Function.update s.sent w (s.sent w + 1) }
  | .read => (F.rd s.queue).map fun r => { s with queue := r.2, got := s.got ++ [r.1] }

def machine (F : Fifo α) (msg : ω → Nat → α) : System (Session F ω) (Act ω) :=
  .ofFun (· = ⟨F.empty, fun _ => 0, []⟩) (step msg)

/-- What has been written, in order: what has been read, and what is in the FIFO. -/
def written (s : Session F ω) : List α := s.got ++ F.contents s.queue

variable {msg : ω → Nat → α} {s s' : Session F ω} {l : Act ω}

omit [DecidableEq ω] in
theorem written_read {d : α} {q : F.Queue} (h : F.rd s.queue = some (d, q)) :
    written { s with queue := q, got := s.got ++ [d] } = s.written := by
  unfold written
  rw [F.rd_some h, List.append_assoc, List.singleton_append]

/-- A step adds the next element of a writer to what has been written, or nothing. -/
theorem merged_step {xs : List (ω × Nat)} (hxs : s.written = xs.map fun x => msg x.1 x.2)
    (hmerge : Merge xs s.sent) (h : step msg s l = some s') :
    ∃ ys, s'.written = ys.map (fun x => msg x.1 x.2) ∧ Merge ys s'.sent := by
  cases l with
  | write w =>
      obtain ⟨q, hq, rfl⟩ := Option.map_eq_some_iff.mp h
      refine ⟨xs ++ [(w, s.sent w)], ?_, hmerge.snoc w⟩
      unfold written at hxs ⊢
      dsimp only
      rw [F.wr_some hq, ← List.append_assoc, hxs, List.map_append, List.map_singleton]
  | read =>
      obtain ⟨⟨d, q⟩, hq, rfl⟩ := Option.map_eq_some_iff.mp h
      exact ⟨xs, (written_read hq).trans hxs, hmerge⟩

/-- **What is written is an interleaving** of the writers' sequences, in every run. -/
theorem merged (h : (machine F msg).Reach System.any s) :
    ∃ xs, s.written = xs.map (fun x => msg x.1 x.2) ∧ Merge xs s.sent := by
  refine h.invariant (I := fun s => ∃ xs, s.written = xs.map (fun x => msg x.1 x.2) ∧
    Merge xs s.sent) (fun {a} ha => ?_) fun {a l b} _ ha _ hstep => ?_
  · obtain rfl := ha
    refine ⟨[], ?_, .nil⟩
    unfold written
    rw [F.contents_empty]
    rfl
  · obtain ⟨xs, hxs, hmerge⟩ := ha
    exact merged_step hxs hmerge hstep

/-- What has been read, and what is still to be. -/
theorem split (h : (machine F msg).Reach System.any s) : ∃ xs ys,
    s.got = xs.map (fun x => msg x.1 x.2) ∧ F.contents s.queue = ys.map (fun x => msg x.1 x.2) ∧
      Merge (xs ++ ys) s.sent := by
  obtain ⟨zs, hzs, hmerge⟩ := merged h
  obtain ⟨xs, ys, rfl, hxs, hys⟩ := List.map_eq_append_iff.mp hzs.symm
  exact ⟨xs, ys, hxs.symm, hys.symm, hmerge⟩

end Session

end Ece357.Machine
