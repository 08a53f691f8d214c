import Ece357.FifoTest.Reader
import Mathlib.Algebra.Order.BigOperators.Group.Finset

/-!
# Ece357.FifoTest.Runs

**The runs of the FIFO test**, with any number of writers that there is room for (127 of them, with
2^24 numbers each, at most), any schedule and any FIFO that keeps its promises. The processes are a
session over the FIFO (`session_reach`), so what is read is an interleaving of what is sent; the
reader never finds anything wrong (`test2_safe`), and if no `fork` fails, every run comes to
`Success!`, at a length known in advance (`test2_runs`). The same of one writer, for `test1`
(`test1_runs`).
-/

namespace Ece357.FifoTest

open Ece357.Machine

variable {c : Config} {F : Fifo Word} {s s' : State c F} {l : Act c}

/-! ### Two writers -/

/-- Two writers of one number each. -/
def tiny : Config := ⟨2, 1, by decide, by decide, by decide⟩

/-- A FIFO of one element. -/
def tinyFifo : Fifo Word := .ofList Word 1 Nat.one_pos

/-- One run of them. -/
def tinyRun : List (Act tiny) :=
  [.fork, .write ⟨0, by decide⟩, .become, .read, .write ⟨1, by decide⟩, .read]

theorem tinyRun_runs :
    (System.exec step (fun _ l => !l.fails) (start tiny tinyFifo) tinyRun).isSome := by
  decide +kernel

/-! ### The session -/

/-- What the processes do to the FIFO. -/
def session (s : State c F) : Session F (Fin c.numWriters) := ⟨s.queue, s.sent, s.got⟩

/-- What a step can be. -/
theorem step_cases (h : step s l = some s') :
    (∃ i hi, l = .fork ∧ s.launcher = .forking i ∧ s' = { s with
      launcher := .forking (i + 1), started := Function.update s.started ⟨i - 1, hi⟩ true } ∧
      i < c.numWriters) ∨
    (∃ i, l = .forkFails ∧ s.launcher = .forking i ∧ s' = { s with launcher := .exited }) ∨
    (∃ i hi, l = .become ∧ s.launcher = .forking i ∧ c.numWriters ≤ i ∧ s' = { s with
      launcher := .writing,
      started := Function.update s.started ⟨c.numWriters - 1, hi⟩ true }) ∨
    (∃ w q, l = .write w ∧ s.started w = true ∧ s.sent w < c.longsPerWriter ∧
      F.wr s.queue (msg c w (s.sent w)) = some q ∧ s' = { s with
        queue := q, sent := Function.update s.sent w (s.sent w + 1) }) ∨
    (∃ d q, l = .read ∧ s.reader.result = none ∧ F.rd s.queue = some (d, q) ∧ s' = { s with
      queue := q, reader := s.reader.read d, got := s.got ++ [d] }) := by
  cases l with
  | fork =>
      cases hlaunch : s.launcher with
      | forking i =>
          simp only [step, hlaunch] at h
          split_ifs at h with hi
          exact .inl ⟨i, _, rfl, rfl, (Option.some.inj h).symm, hi⟩
      | _ => simp [step, hlaunch] at h
  | forkFails =>
      cases hlaunch : s.launcher with
      | forking i =>
          simp only [step, hlaunch] at h
          split_ifs at h
          exact .inr (.inl ⟨i, rfl, rfl, (Option.some.inj h).symm⟩)
      | _ => simp [step, hlaunch] at h
  | become =>
      cases hlaunch : s.launcher with
      | forking i =>
          simp only [step, hlaunch] at h
          split_ifs at h with hi
          exact .inr (.inr (.inl ⟨i, _, rfl, rfl, Nat.le_of_not_lt hi, (Option.some.inj h).symm⟩))
      | _ => simp [step, hlaunch] at h
  | write w =>
      simp only [step] at h
      split_ifs at h with hw
      obtain ⟨q, hq, hs'⟩ := Option.map_eq_some_iff.mp h
      exact .inr (.inr (.inr (.inl ⟨w, q, rfl, hw.1, hw.2, hq, hs'.symm⟩)))
  | read =>
      simp only [step] at h
      split_ifs at h with hr
      obtain ⟨⟨d, q⟩, hq, hs'⟩ := Option.map_eq_some_iff.mp h
      exact .inr (.inr (.inr (.inr ⟨d, q, rfl, hr, hq, hs'.symm⟩)))

/-- A step of the test is a step of the session, or nothing to it. -/
theorem session_step (h : step s l = some s') : session s' = session s ∨
    ∃ a, Session.step (msg c) (session s) a = some (session s') := by
  obtain ⟨i, hi, -, -, rfl, -⟩ | ⟨i, -, -, rfl⟩ | ⟨i, hi, -, -, -, rfl⟩ |
    ⟨w, q, -, -, -, hq, rfl⟩ | ⟨d, q, -, -, hq, rfl⟩ := step_cases h
  · exact .inl rfl
  · exact .inl rfl
  · exact .inl rfl
  · exact .inr ⟨.write w, Option.map_eq_some_iff.mpr ⟨q, hq, rfl⟩⟩
  · exact .inr ⟨.read, Option.map_eq_some_iff.mpr ⟨(d, q), hq, rfl⟩⟩

theorem session_reach (h : (test2 c F).Reach System.any s) :
    (Session.machine F (msg c)).Reach System.any (session s) := by
  refine h.simulate session (fun {a} ha => ?_) fun {a l b} _ _ hstep => ?_
  · obtain rfl := ha
    rfl
  · rcases session_step hstep with heq | ⟨act, hact⟩
    · rw [heq]
      exact .refl
    · exact .single ⟨act, trivial, hact⟩

/-! ### The reader -/

/-- The reader is what the words read have made of it, and nobody sends more than it should. -/
structure Reading (s : State c F) : Prop where
  reader : s.reader = Reader.readAll c s.got
  sent : ∀ w, s.sent w ≤ c.longsPerWriter

theorem reading (h : (test2 c F).Reach System.any s) : Reading s := by
  refine h.invariant (I := Reading) (fun {a} ha => ?_) fun {a l b} _ ha _ hstep => ?_
  · obtain rfl := ha
    exact ⟨rfl, fun _ => Nat.zero_le _⟩
  · obtain ⟨hreader, hsent⟩ := ha
    obtain ⟨i, hi, -, -, rfl, -⟩ | ⟨i, -, -, rfl⟩ | ⟨i, hi, -, -, -, rfl⟩ |
      ⟨w, q, -, -, hlt, hq, rfl⟩ | ⟨d, q, -, hgoes, hq, rfl⟩ := step_cases hstep
    · exact ⟨hreader, hsent⟩
    · exact ⟨hreader, hsent⟩
    · exact ⟨hreader, hsent⟩
    · refine ⟨hreader, fun v => ?_⟩
      dsimp only
      by_cases hv : v = w
      · rw [hv, Function.update_self]
        exact hlt
      · rw [Function.update_of_ne hv]
        exact hsent v
    · refine ⟨?_, hsent⟩
      rw [readAll_snoc, ← hreader, if_pos hgoes]

/-- How many words have been read, are in the FIFO, and have been sent, and what the reader has
made of those it has read. -/
structure Sound (s : State c F) : Prop where
  length : s.got.length + (F.contents s.queue).length = ∑ w, s.sent w
  sum_le : ∑ w, s.sent w ≤ c.total
  full : ∑ w, s.sent w = c.total → ∀ w, s.sent w = c.longsPerWriter
  result : s.reader.result = loopTest c s.got.length

theorem sum_longs (c : Config) : ∑ _w : Fin c.numWriters, c.longsPerWriter = c.total := by
  rw [Finset.sum_const, Finset.card_univ, Fintype.card_fin]
  rfl

theorem sound (h : (test2 c F).Reach System.any s) : Sound s := by
  obtain ⟨xs, ys, hxs, hys, hmerge⟩ := Session.split (session_reach h)
  obtain ⟨hreader, hsent⟩ := reading h
  change s.got = words c xs at hxs
  change F.contents s.queue = words c ys at hys
  have hlength : s.got.length + (F.contents s.queue).length = ∑ w, s.sent w := by
    rw [hxs, hys, words, words, List.length_map, List.length_map, ← List.length_append]
    exact hmerge.length_eq
  have htotal := sum_longs c
  have hsum : ∑ w, s.sent w ≤ c.total := htotal ▸ Finset.sum_le_sum fun w _ => hsent w
  have horder : InOrder c xs := by
    refine ⟨hmerge.left, fun x hx => ?_⟩
    have hlt := hmerge.lt (w := x.1) (k := x.2) (List.mem_append_left ys hx)
    have hle := hsent x.1
    have hbits := c.longs_le
    have hsame : (session s).sent x.1 = s.sent x.1 := rfl
    omega
  refine ⟨hlength, hsum, fun hall w => ?_, ?_⟩
  · rw [← htotal] at hall
    exact (Finset.sum_eq_sum_iff_of_le fun w _ => hsent w).mp hall w (Finset.mem_univ w)
  · have hgot : s.got.length ≤ c.total := by omega
    rcases readAll_cases hgot with ⟨zs, hzs, -, hcounts⟩ | ⟨-, hnone⟩
    · rw [hreader, hcounts.result, hcounts.j, hzs, words, List.length_map]
    · exact absurd horder (hnone xs hxs)

theorem loopTest_success {j : Nat} (h : loopTest c j = some .success) : c.total ≤ j := by
  unfold loopTest at h
  split_ifs at h with hj
  exact Nat.le_of_not_lt hj

/-- **The reader never finds anything wrong**: with any schedule, any FIFO and any `fork` failing,
and with no more than 127 writers and 2^24 numbers of each (`Config`), it neither reports a failure
nor leaves its array; and when it says `Success!`, each writer has sent all its numbers, and the
FIFO is empty. -/
theorem test2_safe (h : (test2 c F).Reach System.any s) :
    s.reader.result ≠ some .failed ∧ s.reader.result ≠ some .outside ∧
      (s.reader.result = some .success →
        F.contents s.queue = [] ∧ ∀ w, s.sent w = c.longsPerWriter) := by
  obtain ⟨hlength, hsum, hfull, hresult⟩ := sound h
  refine ⟨?_, ?_, fun hsuccess => ?_⟩
  · rw [hresult, loopTest]
    split <;> simp
  · rw [hresult, loopTest]
    split <;> simp
  · have hj := loopTest_success (hresult.symm.trans hsuccess)
    exact ⟨List.length_eq_zero_iff.mp (by omega), hfull (by omega)⟩

/-- One of the runs of the two writers, to its end. -/
theorem test2_safe_tiny : ∃ s : State tiny tinyFifo, (test2 tiny tinyFifo).Reach System.any s ∧
    s.reader.result = some .success ∧ tinyFifo.contents s.queue = [] := by
  have hstart : (test2 tiny tinyFifo).Init (start tiny tinyFifo) := rfl
  obtain ⟨s, hs, hresult⟩ := System.reach_of_exec (test2 tiny tinyFifo) System.any step
    (fun _ l => !l.fails) (fun hstep => hstep) hstart tinyRun
    (fun s => s.reader.result == some .success) (fun _ _ _ _ => trivial) (by decide +kernel)
  have hsuccess := eq_of_beq hresult
  exact ⟨s, hs, hsuccess, ((test2_safe hs).2.2 hsuccess).1⟩

/-! ### Runs of any length -/

/-- How far the launcher is, when no `fork` has failed. -/
def Launching (s : State c F) : Prop :=
  match s.launcher with
  | .forking i => 0 < i ∧ i ≤ c.numWriters ∧ ∀ w, w.val + 1 < i → s.started w = true
  | .writing => ∀ w, s.started w = true
  | .exited => False

/-- How many steps of its own the launcher has made. -/
def launched (s : State c F) : Nat :=
  match s.launcher with
  | .forking i => i - 1
  | _ => c.numWriters

/-- How many steps there have been. -/
def progress (s : State c F) : Nat :=
  launched s + (F.contents s.queue).length + 2 * s.got.length

theorem start_launching : Launching (start c F) :=
  ⟨Nat.one_pos, c.writers_pos, fun w hw => absurd hw (by omega)⟩

theorem launching_step (h : step s l = some s') (hl : l.fails = false) (hs : Launching s) :
    Launching s' ∧ progress s' = progress s + 1 := by
  obtain ⟨i, hi, -, hlaunch, rfl, hlt⟩ | ⟨i, rfl, -, -⟩ | ⟨i, hi, -, hlaunch, hle, rfl⟩ |
    ⟨w, q, -, -, -, hq, rfl⟩ | ⟨d, q, -, -, hq, rfl⟩ := step_cases h
  · unfold Launching progress launched at *
    simp only [hlaunch] at hs ⊢
    obtain ⟨hpos, -, hstarted⟩ := hs
    refine ⟨⟨by omega, hlt, fun w hw => ?_⟩, by omega⟩
    by_cases hwi : w = ⟨i - 1, hi⟩
    · rw [hwi, Function.update_self]
    · rw [Function.update_of_ne hwi]
      refine hstarted w ?_
      have hval : w.val ≠ i - 1 := fun heq => hwi (Fin.ext heq)
      omega
  · cases hl
  · unfold Launching progress launched at *
    simp only [hlaunch] at hs ⊢
    obtain ⟨hpos, hi', hstarted⟩ := hs
    refine ⟨fun w => ?_, by omega⟩
    by_cases hwi : w = ⟨c.numWriters - 1, hi⟩
    · rw [hwi, Function.update_self]
    · rw [Function.update_of_ne hwi]
      refine hstarted w ?_
      have hval : w.val ≠ c.numWriters - 1 := fun heq => hwi (Fin.ext heq)
      have hw := w.isLt
      omega
  · refine ⟨hs, ?_⟩
    have hlen := congrArg List.length (F.wr_some hq)
    rw [List.length_append, List.length_singleton] at hlen
    unfold progress launched
    dsimp only
    omega
  · refine ⟨hs, ?_⟩
    have hlen := congrArg List.length (F.rd_some hq)
    rw [List.length_cons] at hlen
    unfold progress launched
    dsimp only
    rw [List.length_append, List.length_singleton]
    omega

/-- After any number of steps. -/
theorem launching_exec {ls : List (Act c)}
    (h : System.exec step (fun _ l => !l.fails) s ls = some s') (hs : Launching s) :
    Launching s' ∧ progress s' = progress s + ls.length := by
  refine System.exec_counted (I := fun n t => Launching t ∧ progress t = n) ?_ ⟨hs, rfl⟩ h
  intro n t l t' ht hl hstep
  obtain ⟨hlaunch, hprogress⟩ := launching_step hstep (by simpa using hl) ht.1
  exact ⟨hlaunch, by rw [hprogress, ht.2]⟩

/-- The test is through. -/
structure Done (s : State c F) : Prop where
  result : s.reader.result = some .success
  contents : F.contents s.queue = []
  sent : ∀ w, s.sent w = c.longsPerWriter

theorem progress_le (h : Sound s) (hs : Launching s) : progress s ≤ c.numWriters + 2 * c.total := by
  have hlaunched : launched s ≤ c.numWriters := by
    unfold Launching at hs
    unfold launched
    cases hlaunch : s.launcher with
    | forking i =>
        rw [hlaunch] at hs
        have hle := hs.2.1
        dsimp only
        omega
    | _ => exact le_rfl
  have hlength := h.length
  have hsum := h.sum_le
  unfold progress
  omega

/-- As long as a writer has something to send, it can, if the FIFO is empty. -/
theorem write_ready {w : Fin c.numWriters} (hempty : F.contents s.queue = [])
    (hstarted : s.started w = true) (hw : s.sent w < c.longsPerWriter) :
    (step s (.write w)).isSome := by
  have hroom : (F.contents s.queue).length < F.size := by
    rw [hempty]
    exact F.size_pos
  obtain ⟨q, hq⟩ := F.wr_room (msg c w (s.sent w)) hroom
  simp only [step]
  rw [if_pos ⟨hstarted, hw⟩, hq]
  rfl

/-- If no `fork` has failed, the test is through, or something can happen. -/
theorem done_or_step (h : Sound s) (hs : Launching s) :
    Done s ∧ progress s = c.numWriters + 2 * c.total ∨
      ∃ l : Act c, l.fails = false ∧ (step s l).isSome := by
  unfold Launching at hs
  cases hlaunch : s.launcher with
  | exited =>
      rw [hlaunch] at hs
      exact hs.elim
  | forking i =>
      refine .inr ?_
      by_cases hi : i < c.numWriters
      · refine ⟨.fork, rfl, ?_⟩
        simp only [step, hlaunch, dif_pos hi, Option.isSome_some]
      · refine ⟨.become, rfl, ?_⟩
        simp only [step, hlaunch, if_neg hi, Option.isSome_some]
  | writing =>
      rw [hlaunch] at hs
      obtain ⟨hlength, hsum, hfull, hresult⟩ := h
      by_cases hread : s.got.length < c.total
      · refine .inr ?_
        by_cases hempty : F.contents s.queue = []
        · -- not all has been sent, so one of the writers has something left
          have hless : ∃ w, s.sent w < c.longsPerWriter := by
            by_contra hnone
            have hge := Finset.sum_le_sum fun w (_ : w ∈ Finset.univ) =>
              Nat.le_of_not_lt fun hw => hnone ⟨w, hw⟩
            rw [hempty, List.length_nil] at hlength
            rw [sum_longs] at hge
            omega
          obtain ⟨w, hw⟩ := hless
          exact ⟨.write w, rfl, write_ready hempty (hs w) hw⟩
        · obtain ⟨d, q, hq⟩ := F.rd_ready hempty
          refine ⟨.read, rfl, ?_⟩
          have hgoes : s.reader.result = none := by rw [hresult, loopTest, if_pos hread]
          simp only [step]
          rw [if_pos hgoes, hq]
          rfl
      · refine .inl ⟨⟨?_, ?_, hfull (by omega)⟩, ?_⟩
        · rw [hresult, loopTest, if_neg hread]
        · exact List.length_eq_zero_iff.mp (by omega)
        · unfold progress launched
          rw [hlaunch]
          dsimp only
          omega

/-- **Every run comes to `Success!`.** If no `fork` fails, any way to go on ends after
`numWriters + 2 * numWriters * longs_per_writer` steps, neither before nor after; the test is then
through, whatever the schedule. -/
theorem test2_runs {ls : List (Act c)}
    (h : System.exec step (fun _ l => !l.fails) (start c F) ls = some s) :
    ls.length = c.numWriters + 2 * c.total ∧ Done s ∨
      ls.length < c.numWriters + 2 * c.total ∧
        ∃ l : Act c, l.fails = false ∧ (step s l).isSome := by
  have hreach : (test2 c F).Reach System.any s :=
    ⟨start c F, rfl, System.run_of_exec (test2 c F) System.any step (fun _ l => !l.fails)
      (fun hstep => hstep) (fun _ _ _ _ => trivial) h⟩
  obtain ⟨hlaunch, hprogress⟩ := launching_exec h start_launching
  have hzero : progress (start c F) = 0 := by
    unfold progress
    dsimp only [start]
    rw [F.contents_empty]
    rfl
  rw [hzero, Nat.zero_add] at hprogress
  rcases done_or_step (sound hreach) hlaunch with ⟨hdone, hall⟩ | ⟨l, hl, hsome⟩
  · exact .inl ⟨hprogress.symm.trans hall, hdone⟩
  · refine .inr ⟨?_, l, hl, hsome⟩
    obtain ⟨s', hs'⟩ := Option.isSome_iff_exists.mp hsome
    obtain ⟨hlaunch', hmore⟩ := launching_step hs' hl hlaunch
    have hle := progress_le (sound (hreach.step trivial hs')) hlaunch'
    omega

/-- The run of the two writers. -/
theorem test2_runs_tiny : ∃ s : State tiny tinyFifo,
    System.exec step (fun _ l => !l.fails) (start tiny tinyFifo) tinyRun = some s ∧ Done s := by
  obtain ⟨s, hs⟩ := Option.isSome_iff_exists.mp tinyRun_runs
  rcases test2_runs hs with ⟨-, hdone⟩ | ⟨hlt, -⟩
  · exact ⟨s, hs, hdone⟩
  · exact absurd hlt (by decide)

/-! ### One writer -/

section One
variable {n : Nat} {t t' : State1 F} {a : Act1}

/-- What has been read and what is in the FIFO are the numbers sent, and the child has found them
right. -/
structure Comparing (n : Nat) (t : State1 F) : Prop where
  written : t.got ++ F.contents t.queue = (List.range t.sent).map (BitVec.ofNat 64)
  i : t.i = t.got.length
  i_le : t.i ≤ n
  sent_le : t.sent ≤ n
  success : t.success = true

theorem start1_comparing (n : Nat) : Comparing n (start1 F) :=
  ⟨by dsimp only [start1]; rw [F.contents_empty]; rfl, rfl, Nat.zero_le n, Nat.zero_le n, rfl⟩

/-- The numbers in the FIFO are those sent and not read. -/
theorem Comparing.length (h : Comparing n t) : t.i + (F.contents t.queue).length = t.sent := by
  have hlen := congrArg List.length h.written
  rw [List.length_append, List.length_map, List.length_range, ← h.i] at hlen
  exact hlen

/-- The next number to be read is the one that the child waits for. -/
theorem Comparing.next (h : Comparing n t) {d : Word} {q : F.Queue}
    (hq : F.rd t.queue = some (d, q)) : d = BitVec.ofNat 64 t.i := by
  have hlength := h.length
  rw [F.rd_some hq, List.length_cons] at hlength
  have hat := congrArg (·[t.got.length]?) h.written
  rw [F.rd_some hq, List.getElem?_append_right le_rfl, Nat.sub_self, List.getElem?_cons_zero,
    List.getElem?_map, List.getElem?_range (by rw [← h.i]; omega), ← h.i] at hat
  exact Option.some.inj hat

theorem comparing_step (h : step1 n t a = some t') (ht : Comparing n t) :
    Comparing n t' ∧ t'.sent + t'.i = t.sent + t.i + 1 := by
  cases a with
  | write =>
      simp only [step1] at h
      split_ifs at h with hlt
      obtain ⟨q, hq, rfl⟩ := Option.map_eq_some_iff.mp h
      refine ⟨⟨?_, ht.i, ht.i_le, hlt, ht.success⟩, Nat.add_right_comm ..⟩
      dsimp only
      rw [F.wr_some hq, ← List.append_assoc, ht.written, List.range_succ, List.map_append,
        List.map_singleton]
  | read =>
      simp only [step1] at h
      split_ifs at h with hlt
      obtain ⟨⟨d, q⟩, hq, rfl⟩ := Option.map_eq_some_iff.mp h
      refine ⟨⟨?_, ?_, hlt, ht.sent_le, ?_⟩, (Nat.add_assoc ..).symm⟩
      · dsimp only
        rw [List.append_assoc, List.singleton_append, ← F.rd_some hq]
        exact ht.written
      · dsimp only
        rw [List.length_append, List.length_singleton, ht.i]
      · dsimp only
        rw [ht.success, ht.next hq, beq_self_eq_true]
        rfl

/-- After any number of steps. -/
theorem comparing_exec {as : List Act1}
    (h : System.exec (step1 n) (fun _ _ => true) t as = some t') (ht : Comparing n t) :
    Comparing n t' ∧ t'.sent + t'.i = t.sent + t.i + as.length := by
  refine System.exec_counted (I := fun k u => Comparing n u ∧ u.sent + u.i = k) ?_ ⟨ht, rfl⟩ h
  intro k u a u' hu _ hstep
  obtain ⟨hcomparing, hone⟩ := comparing_step hstep hu.1
  exact ⟨hcomparing, by rw [hone, hu.2]⟩

/-- **`test1` prints that it was successful**, whatever the schedule: any way to go on ends after
a write and a read for each number. -/
theorem test1_runs {as : List Act1}
    (h : System.exec (step1 n) (fun _ _ => true) (start1 F) as = some t) :
    as.length = 2 * n ∧ printed n t = some true ∨
      as.length < 2 * n ∧ printed n t ≠ some false ∧ ∃ a, (step1 n t a).isSome := by
  obtain ⟨hcomparing, hsteps⟩ := comparing_exec h (start1_comparing n)
  have hlength := hcomparing.length
  have hzero : (start1 F).sent + (start1 F).i = 0 := rfl
  obtain ⟨-, -, hi, hsent, hsuccess⟩ := hcomparing
  unfold printed
  by_cases hread : t.i < n
  · refine .inr ⟨by omega, by rw [if_pos hread]; simp, ?_⟩
    by_cases hempty : F.contents t.queue = []
    · have hroom : (F.contents t.queue).length < F.size := by
        rw [hempty]
        exact F.size_pos
      rw [hempty, List.length_nil] at hlength
      obtain ⟨q, hq⟩ := F.wr_room (BitVec.ofNat 64 t.sent) hroom
      refine ⟨.write, ?_⟩
      simp only [step1]
      rw [if_pos (by omega), hq]
      rfl
    · obtain ⟨d, q, hq⟩ := F.rd_ready hempty
      refine ⟨.read, ?_⟩
      simp only [step1]
      rw [if_pos hread, hq]
      rfl
  · refine .inl ⟨by omega, ?_⟩
    rw [if_neg hread, hsuccess]

/-- Two numbers, through a FIFO of one element. -/
theorem test1_runs_tiny : ∃ t : State1 tinyFifo, System.exec (step1 2) (fun _ _ => true)
    (start1 tinyFifo) [.write, .read, .write, .read] = some t ∧ printed 2 t = some true := by
  have hruns : (System.exec (step1 2) (fun _ _ => true) (start1 tinyFifo)
      [.write, .read, .write, .read]).isSome := by
    decide +kernel
  obtain ⟨t, ht⟩ := Option.isSome_iff_exists.mp hruns
  rcases test1_runs ht with ⟨-, hprinted⟩ | ⟨hlt, -⟩
  · exact ⟨t, ht, hprinted⟩
  · exact absurd hlt (by decide)

end One

end Ece357.FifoTest
