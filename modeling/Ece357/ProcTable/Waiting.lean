import Mathlib.Data.Set.Card
import Mathlib.Logic.Relation
import Ece357.ProcTable.Basic

/-!
# Ece357.ProcTable.Waiting

**Who waits for whom.** A sleeping process waits for its children, so a group of
processes can only wait on each other for ever if the parent numbers of living
processes form a cycle. In a table that is well formed and has no such cycle,
every sleeper other than the root has a descendant that can run
(`Wf.exists_runnable`).

Numbers are reused and children of a process that is gone keep its number, so a
`fork` *can* close a cycle: when the number it picks is met on the way up from the
caller. No other step adds a link (`Step.link`), which makes that condition on
forks the exact one (`acyclic_step`).
-/

namespace Ece357.ProcTable

/-! ### Cycles in a relation -/

section Relation
variable {α : Type*} {r r' : α → α → Prop}

/-- No path leads back to where it started. -/
def Acyclic (r : α → α → Prop) : Prop := ∀ a, ¬ Relation.TransGen r a a

theorem Acyclic.mono (h : Acyclic r) (hsub : ∀ a b, r' a b → r a b) : Acyclic r' :=
  fun a ha => h a (Relation.TransGen.mono hsub a a ha)

/-- A path that may use one extra edge either does not, or leads through it. -/
theorem transGen_insert {x y a b : α} (hsub : ∀ u v, r' u v → r u v ∨ (u = a ∧ v = b))
    (h : Relation.TransGen r' x y) :
    Relation.TransGen r x y ∨ (Relation.ReflTransGen r x a ∧ Relation.ReflTransGen r b y) := by
  induction h with
  | single hxy =>
      rcases hsub _ _ hxy with hold | ⟨rfl, rfl⟩
      · exact .inl (.single hold)
      · exact .inr ⟨.refl, .refl⟩
  | tail _ hyz ih =>
      rcases hsub _ _ hyz with hold | ⟨rfl, rfl⟩
      · rcases ih with hxy | ⟨hxa, hby⟩
        · exact .inl (hxy.tail hold)
        · exact .inr ⟨hxa, hby.tail hold⟩
      · rcases ih with hxy | ⟨hxa, -⟩
        · exact .inr ⟨hxy.to_reflTransGen, .refl⟩
        · exact .inr ⟨hxa, .refl⟩

/-- An edge from `a` to `b` closes a cycle only if `b` already leads to `a`. -/
theorem Acyclic.insert {a b : α} (h : Acyclic r)
    (hsub : ∀ u v, r' u v → r u v ∨ (u = a ∧ v = b)) (hnot : ¬ Relation.ReflTransGen r b a) :
    Acyclic r' := by
  intro x hx
  rcases transGen_insert hsub hx with hold | ⟨hxa, hbx⟩
  · exact h x hold
  · exact hnot (hbx.trans hxa)

end Relation

namespace Table

variable {K : Type*}

/-- `q`, alive and not the root, names `p` as its parent. -/
def Link (t : Table K) (root : K) (q p : K) : Prop :=
  ∃ e, t.entry q = some e ∧ e.status ≠ .zombie ∧ e.parent = p ∧ q ≠ root

variable [DecidableEq K] {t t' : Table K} {root : K}

/-- Replacing an entry by one with the same parent, not for a dead process, adds no link. -/
theorem Link.of_set {k q p : K} {e e' : Entry K} (h : (t.set k e').Link root q p)
    (hk : t.entry k = some e) (hparent : e'.parent = e.parent)
    (halive : e'.status ≠ .zombie → e.status ≠ .zombie) : t.Link root q p := by
  obtain ⟨f, hf, hst, hpar, hne⟩ := h
  rw [set_entry] at hf
  split_ifs at hf with hq
  · obtain rfl := Option.some.inj hf
    exact ⟨e, hq ▸ hk, halive hst, hparent.symm.trans hpar, hne⟩
  · exact ⟨f, hf, hst, hpar, hne⟩

/-- Nor does handing the processor to another process. -/
theorem Link.of_hand_over {k q p : K} {e e' ek : Entry K}
    (h : Link { (t.set t.cur e').set k { ek with status := .running } with cur := k } root q p)
    (he : t.entry t.cur = some e) (hparent : e'.parent = e.parent)
    (halive : e'.status ≠ .zombie → e.status ≠ .zombie) (hne : k ≠ t.cur)
    (hk : t.entry k = some ek) (hkalive : ek.status ≠ .zombie) : t.Link root q p := by
  have hk' : (t.set t.cur e').entry k = some ek := by
    rw [set_entry, if_neg hne]
    exact hk
  have hlast : ((t.set t.cur e').set k { ek with status := .running }).Link root q p := h
  have hmid : (t.set t.cur e').Link root q p := hlast.of_set hk' rfl fun _ => hkalive
  exact hmid.of_set he hparent halive

/-- Only a fork adds a link, and only the one from the new process to its creator. -/
theorem Step.link (root : K) {a : Act K} (hs : t.Step a t') :
    (∀ q p, t'.Link root q p → t.Link root q p) ∨
    ∃ k, a = .fork k ∧ t.entry k = none ∧ t' = t.set k ⟨t.cur, .ready, false⟩ := by
  cases hs with
  | fork hfree => exact .inr ⟨_, rfl, hfree, rfl⟩
  | sleep he halive => exact .inl fun q p hl => hl.of_set he rfl fun _ => halive
  | @reap e eq x he hnx hq hparent hzombie =>
      left
      intro q p hl
      obtain ⟨f, hf, hst, hpar, hne⟩ := hl
      rw [reaped_entry] at hf
      split_ifs at hf with hqx hqc
      · obtain rfl := Option.some.inj hf
        exact ⟨e, hqc ▸ he, hst, hpar, hne⟩
      · exact ⟨f, hf, hst, hpar, hne⟩
  | exit he => exact .inl fun q p hl => hl.of_set he rfl fun hst => absurd rfl hst
  | exitWake he hne hp hasleep =>
      exact .inl fun q p hl =>
        hl.of_hand_over he rfl (fun hst => absurd rfl hst) hne hp (by simp [hasleep])
  | keep he => exact .inl fun q p hl => hl.of_set he rfl fun hst hz => hst (by simp [hz, leave])
  | dispatch he hne hq hready =>
      exact .inl fun q p hl =>
        hl.of_hand_over he rfl (fun hst hz => hst (by simp [hz, leave])) hne hq (by simp [hready])

/-- A fork does not pick a number met on the way up from its caller. -/
def OffPath (root : K) (t : Table K) (a : Act K) : Prop :=
  ∀ k, a = .fork k → ¬ Relation.TransGen (t.Link root) t.cur k

/-- The links stay acyclic unless a fork picks a number met on the way up from its
caller. -/
theorem acyclic_step (h : t.Wf) (hac : Acyclic (t.Link root)) {a : Act K}
    (hoff : OffPath root t a) (hs : t.Step a t') : Acyclic (t'.Link root) := by
  rcases hs.link root with hsub | ⟨k, hl, hfree, heq⟩
  · exact hac.mono hsub
  · subst heq
    refine hac.insert (a := k) (b := t.cur) (fun u v huv => ?_) fun hpath => ?_
    · obtain ⟨f, hf, hst, hpar, hne⟩ := huv
      rw [set_entry] at hf
      split_ifs at hf with hu
      · obtain rfl := Option.some.inj hf
        exact .inr ⟨hu, hpar.symm⟩
      · exact .inl ⟨f, hf, hst, hpar, hne⟩
    · rcases Relation.reflTransGen_iff_eq_or_transGen.mp hpath with heq | htrans
      · obtain ⟨e, he⟩ := h.cur_mem
        rw [← heq, hfree] at he
        cases he
      · exact hoff k hl htrans

theorem acyclic_reach (h : (machine root).Reach (OffPath root) t) : Acyclic (t.Link root) := by
  refine h.invariant (fun ha p hp => ?_) fun hreach ha hoff hs =>
    acyclic_step (.reach hreach) ha hoff hs
  -- The only process of the first table is the root, which has no link.
  subst ha
  obtain ⟨q, ⟨e, he, -, -, hne⟩, -⟩ := Relation.TransGen.head'_iff.mp hp
  simp [hne] at he

omit [DecidableEq K] in
/-- A link points from a child. -/
theorem Link.child {q p : K} (h : t.Link root q p) : t.Child p q := by
  obtain ⟨e, he, -, hpar, -⟩ := h
  exact ⟨e, he, hpar⟩

omit [DecidableEq K] in
/-- **No circular wait.** In a well-formed finite table without cycles, whoever
sleeps has a descendant that is READY or RUNNING; only the root, its own parent,
is excepted. -/
theorem Wf.exists_runnable (h : t.Wf) (hfin : {q | t.entry q ≠ none}.Finite)
    (hac : Acyclic (t.Link root))
    (hroot : ∀ e, t.entry root = some e → e.parent = root) :
    ∀ (n : Nat) {p : K} {e : Entry K}, {q | Relation.TransGen (t.Link root) q p}.ncard = n →
      t.entry p = some e → e.status = .sleeping → p ≠ root →
      ∃ q eq, Relation.TransGen t.Child p q ∧ t.entry q = some eq ∧
        (eq.status = .ready ∨ eq.status = .running) := by
  intro n
  induction n using Nat.strong_induction_on with
  | _ n ih =>
      intro p e hn he hst hne
      obtain ⟨q, eq, hq, hpar⟩ := h.waits p e he (h.sleeps p e he hst)
      have halive : eq.status ≠ .zombie := h.heard p e he hst q eq hq hpar
      have hqroot : q ≠ root := by
        intro hqr
        subst hqr
        exact hne (hpar.symm.trans (hroot eq hq))
      have hlink : t.Link root q p := ⟨eq, hq, halive, hpar, hqroot⟩
      cases hsq : eq.status with
      | ready => exact ⟨q, eq, .single hlink.child, hq, .inl hsq⟩
      | running => exact ⟨q, eq, .single hlink.child, hq, .inr hsq⟩
      | zombie => exact absurd hsq halive
      | sleeping =>
          -- The descendants of `q` are descendants of `p`, and `q` is not one of its own.
          have hsub : {x | Relation.TransGen (t.Link root) x q} ⊂
              {x | Relation.TransGen (t.Link root) x p} := by
            refine ⟨fun x hx => Relation.TransGen.tail hx hlink, fun hback => ?_⟩
            exact hac q (hback (Relation.TransGen.single hlink))
          have hfinp : {x | Relation.TransGen (t.Link root) x p}.Finite := by
            refine hfin.subset fun x hx => ?_
            obtain ⟨y, ⟨f, hf, -⟩, -⟩ := Relation.TransGen.head'_iff.mp hx
            simp [hf]
          have hlt := Set.ncard_lt_ncard hsub hfinp
          obtain ⟨r, er, hpath, hr, hrun⟩ := ih _ (hn ▸ hlt) rfl hq hsq hqroot
          exact ⟨r, er, .head hlink.child hpath, hr, hrun⟩

end Table

end Ece357.ProcTable
