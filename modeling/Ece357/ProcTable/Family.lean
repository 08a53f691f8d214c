import Ece357.ProcTable.Basic

/-!
# Ece357.ProcTable.Family

**One parent, many children.** The discipline of a program in which only the root
creates processes and waits for them, and only the others exit. Under it a table is
a `Family`: everybody is a child of the root, the root never dies, and while a dead
process still holds the processor the root is READY. So there is always somebody to
run: the root, or a child it sleeps on.
-/

namespace Ece357.ProcTable

open Ece357.Machine

namespace Table

variable {K : Type*}

/-- The root forks and begins to wait, the others exit. -/
def OneParent (root : K) (t : Table K) : Act K → Prop
  | .fork _ => t.cur = root
  | .sleep | .reap _ => ∀ e, t.entry t.cur = some e → e.waiting = false → t.cur = root
  | .exit => t.cur ≠ root
  | .switch => True

structure Family (root : K) (t : Table K) : Prop where
  alive : ∃ e, t.entry root = some e ∧ e.status ≠ .zombie
  child : ∀ k e, t.entry k = some e → k ≠ root →
    e.parent = root ∧ e.status ≠ .sleeping ∧ e.waiting = false
  dying : ∀ e e', t.entry t.cur = some e → e.status = .zombie → t.entry root = some e' →
    e'.status = .ready

/-- The root is inside a wait. -/
def RootWaits (root : K) (t : Table K) : Prop := ∃ e, t.entry root = some e ∧ e.waiting = true

variable [DecidableEq K] {t t' : Table K} {root : K}

omit [DecidableEq K] in
/-- Whoever sleeps or reaps is the root: it begins to wait, or is waiting. -/
theorem Family.waiter (h : Family root t) {e : Entry K} (he : t.entry t.cur = some e)
    (hone : ∀ e, t.entry t.cur = some e → e.waiting = false → t.cur = root) : t.cur = root := by
  cases hw : e.waiting with
  | false => exact hone e he hw
  | true =>
      by_contra hne
      have hquiet := (h.child _ e he hne).2.2
      rw [hw] at hquiet
      cases hquiet

/-- Replacing the current process's entry. -/
theorem Family.set_cur (h : Family root t) {e' : Entry K}
    (halive : t.cur = root → e'.status ≠ .zombie)
    (hchild : t.cur ≠ root → e'.parent = root ∧ e'.status ≠ .sleeping ∧ e'.waiting = false)
    (hdying : e'.status = .zombie → ∀ r, t.entry root = some r → r.status = .ready) :
    Family root (t.set t.cur e') := by
  obtain ⟨r, hr, hst⟩ := h.alive
  refine ⟨?_, fun k e hk hne => ?_, fun e r' he hz hr' => ?_⟩
  · by_cases hroot : root = t.cur
    · exact ⟨e', by rw [set_entry, if_pos hroot], halive hroot.symm⟩
    · exact ⟨r, by rw [set_entry, if_neg hroot]; exact hr, hst⟩
  · rw [set_entry] at hk
    split_ifs at hk with hkc
    · obtain rfl := Option.some.inj hk
      exact hchild fun hc => hne (hkc.trans hc)
    · exact h.child k e hk hne
  · change (t.set t.cur e').entry t.cur = some e at he
    rw [set_entry, if_pos rfl] at he
    obtain rfl := Option.some.inj he
    rw [set_entry] at hr'
    split_ifs at hr' with hroot
    · exact absurd hz (halive hroot.symm)
    · exact hdying hz r' hr'

/-- Handing the processor to another process, which becomes RUNNING. -/
theorem Family.hand_over (h : Family root t) {e' eq : Entry K} {q : K} (hne : q ≠ t.cur)
    (hq : t.entry q = some eq) (halive : t.cur = root → e'.status ≠ .zombie)
    (hchild : t.cur ≠ root → e'.parent = root ∧ e'.status ≠ .sleeping ∧ e'.waiting = false) :
    Family root { (t.set t.cur e').set q { eq with status := .running } with cur := q } := by
  have hlook : ∀ k f, ((t.set t.cur e').set q { eq with status := .running }).entry k = some f →
      (k = q ∧ f = { eq with status := .running }) ∨ (k = t.cur ∧ f = e') ∨
        (k ≠ q ∧ k ≠ t.cur ∧ t.entry k = some f) := by
    intro k f hf
    rw [set_entry, set_entry] at hf
    split_ifs at hf with hkq hkc
    · exact .inl ⟨hkq, (Option.some.inj hf).symm⟩
    · exact .inr (.inl ⟨hkc, (Option.some.inj hf).symm⟩)
    · exact .inr (.inr ⟨hkq, hkc, hf⟩)
  obtain ⟨r, hr, hst⟩ := h.alive
  refine ⟨?_, fun k f hf hk => ?_, fun f r' hf hz => ?_⟩
  · show ∃ f, ((t.set t.cur e').set q _).entry root = some f ∧ f.status ≠ .zombie
    simp only [set_entry]
    split_ifs with hrq hrc
    · exact ⟨_, rfl, by simp⟩
    · exact ⟨_, rfl, halive hrc.symm⟩
    · exact ⟨r, hr, hst⟩
  · rcases hlook k f hf with ⟨rfl, rfl⟩ | ⟨rfl, rfl⟩ | ⟨-, -, hold⟩
    · obtain ⟨hpar, -, hw⟩ := h.child k eq hq hk
      exact ⟨hpar, by simp, hw⟩
    · exact hchild hk
    · exact h.child k f hold hk
  · change ((t.set t.cur e').set q { eq with status := .running }).entry q = some f at hf
    rw [set_entry, if_pos rfl] at hf
    obtain rfl := Option.some.inj hf
    cases hz

theorem Family.step (h : Family root t) (hwf : t.Wf) {a : Act K} (hone : OneParent root t a)
    (hs : t.Step a t') : Family root t' := by
  obtain ⟨r, hr, hst⟩ := h.alive
  cases hs with
  | @fork k hfree =>
      have hkr : root ≠ k := by
        intro hk
        rw [hk, hfree] at hr
        cases hr
      refine ⟨⟨r, by rw [set_entry, if_neg hkr]; exact hr, hst⟩, fun j e hj hne => ?_,
        fun e r' he hz _ => ?_⟩
      · rw [set_entry] at hj
        split_ifs at hj with hjk
        · obtain rfl := Option.some.inj hj
          exact ⟨hone, by simp, rfl⟩
        · exact h.child j e hj hne
      · have hcur : t.cur = root := hone
        change (t.set k _).entry t.cur = some e at he
        rw [set_entry, hcur, if_neg hkr, hr] at he
        obtain rfl := Option.some.inj he
        exact absurd hz hst
  | @sleep e he halive hchild hquiet =>
      have hcur := h.waiter he hone
      exact h.set_cur (fun _ => by simp) (fun hne => absurd hcur hne) fun hz => by cases hz
  | @reap e eq q he hne hq hparent hzombie =>
      have hcur := h.waiter he hone
      have hrq : root ≠ q := fun hrq => hne (hrq.symm.trans hcur.symm)
      rw [hcur, hr] at he
      obtain rfl := Option.some.inj he
      have hroot : (t.reaped r q).entry root = some { r with waiting := false } := by
        rw [reaped_entry, if_neg hrq, if_pos hcur.symm]
      refine ⟨⟨_, hroot, hst⟩, fun k f hk hnk => ?_, fun f r' hf hz _ => ?_⟩
      · rw [reaped_entry] at hk
        split_ifs at hk with hkq hkc
        · exact absurd (hkc.trans hcur) hnk
        · exact h.child k f hk hnk
      · change (t.reaped r q).entry t.cur = some f at hf
        rw [hcur, hroot] at hf
        obtain rfl := Option.some.inj hf
        exact absurd hz hst
  | @exit e he hawake =>
      have hne : t.cur ≠ root := hone
      obtain ⟨hpar, -, -⟩ := h.child _ e he hne
      refine h.set_cur (fun hcur => absurd hcur hne) (fun _ => ⟨hpar, by simp, rfl⟩)
        fun _ r' hr' => ?_
      -- The root is neither asleep, nor dead, nor the one that is running.
      rw [hr] at hr'
      obtain rfl := Option.some.inj hr'
      have hnsleep := hawake r (hpar ▸ hr) (hpar ▸ hne.symm)
      cases hrs : r.status with
      | ready => rfl
      | running => exact absurd (hwf.running _ r hr hrs).symm hne
      | sleeping => exact absurd hrs hnsleep
      | zombie => exact absurd hrs hst
  | @exitWake e ep he hne hp hasleep =>
      have hroot : t.cur ≠ root := hone
      obtain ⟨hpar, -, -⟩ := h.child _ e he hroot
      exact h.hand_over hne hp (fun hcur => absurd hcur hroot) fun _ => ⟨hpar, by simp, rfl⟩
  | @keep e he =>
      refine h.set_cur (fun hcur hz => ?_) (fun hne => ?_) fun hz r' hr' => ?_
      · rw [hcur, hr] at he
        obtain rfl := Option.some.inj he
        exact hst (leave_zombie hz)
      · obtain ⟨hpar, hsl, hw⟩ := h.child _ e he hne
        exact ⟨hpar, fun hs => hsl (leave_sleeping hs), hw⟩
      · exact h.dying e r' he (leave_zombie hz) hr'
  | @dispatch e eq q he hne hq hready =>
      refine h.hand_over hne hq (fun hcur hz => ?_) fun hroot => ?_
      · rw [hcur, hr] at he
        obtain rfl := Option.some.inj he
        exact hst (leave_zombie hz)
      · obtain ⟨hpar, hsl, hw⟩ := h.child _ e he hroot
        exact ⟨hpar, fun hs => hsl (leave_sleeping hs), hw⟩

theorem Family.init (root : K) :
    Family root ⟨Function.update (fun _ => none) root (some ⟨root, .running, false⟩), root⟩ := by
  refine ⟨⟨⟨root, .running, false⟩, by simp⟩, fun k e hk hne => ?_, fun e e' he hz _ => ?_⟩
  · simp [hne] at hk
  · simp only [Function.update_self, Option.some.injEq] at he
    subst he
    cases hz

theorem Family.reach (h : (machine root).Reach (OneParent root) t) : Family root t :=
  h.invariant (fun ha => ha ▸ Family.init root) fun hreach ha hone hs =>
    ha.step (.reach hreach) hone hs

omit [DecidableEq K] in
/-- **Somebody can run**: the root, or a child of the sleeping root. -/
theorem Family.exists_runnable (h : Family root t) (hwf : t.Wf)
    (hchild : RootWaits root t → ∃ k e, t.entry k = some e ∧ k ≠ root) :
    ∃ k e, t.entry k = some e ∧ (e.status = .ready ∨ e.status = .running) := by
  obtain ⟨r, hr, hst⟩ := h.alive
  cases hrs : r.status with
  | ready => exact ⟨root, r, hr, .inl hrs⟩
  | running => exact ⟨root, r, hr, .inr hrs⟩
  | zombie => exact absurd hrs hst
  | sleeping =>
      obtain ⟨k, e, hk, hne⟩ := hchild ⟨r, hr, hwf.sleeps _ r hr hrs⟩
      obtain ⟨hpar, hsl, -⟩ := h.child k e hk hne
      have hz := hwf.heard _ r hr hrs k e hk hpar
      cases hes : e.status with
      | ready => exact ⟨k, e, hk, .inl hes⟩
      | running => exact ⟨k, e, hk, .inr hes⟩
      | sleeping => exact absurd hes hsl
      | zombie => exact absurd hes hz

/-- The root begins to wait by going to sleep, and stops by reaping. -/
theorem Step.rootWaits {a : Act K} (hs : t.Step a t') (hw : RootWaits root t') :
    (RootWaits root t ∧ ∀ k, a = .reap k → t.cur ≠ root) ∨ (a = .sleep ∧ t.cur = root) := by
  obtain ⟨f, hf, hw⟩ := hw
  cases hs with
  | fork hfree =>
      rw [set_entry] at hf
      split_ifs at hf
      · obtain rfl := Option.some.inj hf
        cases hw
      · exact .inl ⟨⟨f, hf, hw⟩, fun _ h => by cases h⟩
  | sleep he =>
      rw [set_entry] at hf
      split_ifs at hf with hroot
      · exact .inr ⟨rfl, hroot.symm⟩
      · exact .inl ⟨⟨f, hf, hw⟩, fun _ h => by cases h⟩
  | reap he hne hq =>
      rw [reaped_entry] at hf
      -- who reaps waits no longer
      split_ifs at hf with hrq hrc
      · obtain rfl := Option.some.inj hf
        cases hw
      · exact .inl ⟨⟨f, hf, hw⟩, fun _ _ hc => hrc hc.symm⟩
  | exit he =>
      rw [set_entry] at hf
      split_ifs at hf
      · obtain rfl := Option.some.inj hf
        cases hw
      · exact .inl ⟨⟨f, hf, hw⟩, fun _ h => by cases h⟩
  | @exitWake e ep he hne hp =>
      simp only [set_entry] at hf
      split_ifs at hf with hrp hrc
      · obtain rfl := Option.some.inj hf
        exact .inl ⟨⟨ep, hrp ▸ hp, hw⟩, fun _ h => by cases h⟩
      · obtain rfl := Option.some.inj hf
        cases hw
      · exact .inl ⟨⟨f, hf, hw⟩, fun _ h => by cases h⟩
  | @keep e he =>
      rw [set_entry] at hf
      split_ifs at hf with hrc
      · obtain rfl := Option.some.inj hf
        exact .inl ⟨⟨e, hrc ▸ he, hw⟩, fun _ h => by cases h⟩
      · exact .inl ⟨⟨f, hf, hw⟩, fun _ h => by cases h⟩
  | @dispatch e eq q he hne hq =>
      simp only [set_entry] at hf
      split_ifs at hf with hrq hrc
      · obtain rfl := Option.some.inj hf
        exact .inl ⟨⟨eq, hrq ▸ hq, hw⟩, fun _ h => by cases h⟩
      · obtain rfl := Option.some.inj hf
        exact .inl ⟨⟨e, hrc ▸ he, hw⟩, fun _ h => by cases h⟩
      · exact .inl ⟨⟨f, hf, hw⟩, fun _ h => by cases h⟩

end Table

end Ece357.ProcTable
