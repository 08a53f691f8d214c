import Ece357.Machine.CData
import Ece357.Machine.Stream

/-!
# Ece357.CatGrepMore.Copy

**What the pipe carries**: the copy loop of `pipeFile` in `ps4/main.c`, and the loop of
`main` over the files, with the statistics that both keep.

A `write` that takes only a part of its chunk is retried, but the retry offers the *first*
`byteNum - wrstatus` bytes of the buffer again instead of those that are missing, its result
is not looked at, and what it writes is not counted. So a loop that ends well has carried the
file exactly, and counted it exactly, if and only if no `write` of a chunk was partial
(`copyLoop_spec`); the same follows for every call of `pipeFile` that returns
(`pipeFile_exact_iff`).
-/

namespace Ece357.CatGrepMore

open Ece357.Machine

/-- `int bufferSize = 4096`. -/
def bufferSize : Nat := 4096

/-! ### The copy loop -/

/-- The statistics of `main`. -/
structure Totals where
  totalBytes : Int
  totalFiles : Int
  deriving DecidableEq, Repr

/-- The system's answers in one turn of the loop: to `read`, to `write`, and to the `write`
that is made again after a partial one. A call without an answer fails. -/
structure Answers where
  read : Option Nat
  write : Option Nat
  retry : Option Nat
  deriving DecidableEq, Repr

/-- The state of the loop: what is left in the file, and what the pipe has accepted. -/
structure Copying where
  rest : List Byte
  piped : List Byte
  deriving DecidableEq, Repr

/-- What one turn comes to. -/
inductive Turn
  /-- The `write` took `wrstatus` bytes, and the loop goes on. -/
  | again (c : Copying) (wrstatus : Nat)
  /-- `read` has come to the end of the file. -/
  | eof
  /-- An error, after which the program exits. -/
  | failed
  deriving DecidableEq, Repr

/-- What `write(pipe1fds[1], buf, count)` hands to the pipe. -/
def written (answer : Option Nat) (buf : List Byte) (count : Nat) : List Byte :=
  match answer with
  | none => []
  | some part => buf.take (writeAmount count part)

/-- One turn of `while ((byteNum = read(infd, buf, bufferSize)) > 0)`. -/
def copyTurn (a : Answers) (c : Copying) : Turn :=
  match a.read with
  | none => .failed
  | some want =>
      let byteNum := readAmount bufferSize want c.rest.length
      let buf := c.rest.take byteNum
      if byteNum = 0 then .eof
      else
        let wrstatus := (written a.write buf byteNum).length
        if wrstatus = 0 then .failed
        else
          .again {
            rest := c.rest.drop byteNum
            piped := c.piped ++ written a.write buf byteNum ++
              -- the retry starts at `buf` again
              if wrstatus < byteNum then written a.retry buf (byteNum - wrstatus) else [] }
            wrstatus

/-- `(*totalBytes) += wrstatus`. -/
def Totals.count (t : Totals) (wrstatus : Nat) : Totals :=
  { t with totalBytes := toInt (t.totalBytes + wrstatus) }

/-- A turn that goes on has read and written a chunk. -/
theorem copyTurn_again {a : Answers} {c c' : Copying} {wrstatus : Nat}
    (h : copyTurn a c = .again c' wrstatus) : ∃ want byteNum,
    a.read = some want ∧ byteNum = readAmount bufferSize want c.rest.length ∧ byteNum ≠ 0 ∧
    wrstatus = (written a.write (c.rest.take byteNum) byteNum).length ∧ wrstatus ≠ 0 ∧
    c' = {
      rest := c.rest.drop byteNum
      piped := c.piped ++ written a.write (c.rest.take byteNum) byteNum ++
        if wrstatus < byteNum then written a.retry (c.rest.take byteNum) (byteNum - wrstatus)
        else [] } := by
  unfold copyTurn at h
  cases hread : a.read with
  | none => simp [hread] at h
  | some want =>
      simp only [hread] at h
      by_cases hend : readAmount bufferSize want c.rest.length = 0
      · simp [hend] at h
      · rw [if_neg hend] at h
        split at h
        · cases h
        · next hfail =>
          obtain ⟨rfl, rfl⟩ := Turn.again.inj h
          exact ⟨want, _, rfl, rfl, hend, rfl, hfail, rfl⟩

theorem copyTurn_less {a : Answers} {c c' : Copying} {wrstatus : Nat}
    (h : copyTurn a c = .again c' wrstatus) : c'.rest.length < c.rest.length := by
  obtain ⟨want, byteNum, -, rfl, hne, -, -, rfl⟩ := copyTurn_again h
  exact length_drop_readAmount hne

/-- The loop, from its `n`-th turn on; `none` if the program exits. -/
def copyLoop (answers : Nat → Answers) (n : Nat) (c : Copying) (t : Totals) :
    Option (Nat × Copying × Totals) :=
  match hturn : copyTurn (answers n) c with
  | .failed => none
  | .eof => some (n + 1, c, t)
  | .again c' wrstatus => copyLoop answers (n + 1) c' (t.count wrstatus)
termination_by c.rest.length
decreasing_by exact copyTurn_less hturn

theorem copyLoop_eof {answers : Nat → Answers} {n : Nat} {c : Copying} (t : Totals)
    (h : copyTurn (answers n) c = .eof) : copyLoop answers n c t = some (n + 1, c, t) := by
  rw [copyLoop]
  split <;> simp_all

theorem copyLoop_again {answers : Nat → Answers} {n wrstatus : Nat} {c c' : Copying} (t : Totals)
    (h : copyTurn (answers n) c = .again c' wrstatus) :
    copyLoop answers n c t = copyLoop answers (n + 1) c' (t.count wrstatus) := by
  rw [copyLoop]
  split <;> simp_all

/-- A loop that does not exit has come to the end of the file, or goes on after a turn. -/
theorem copyLoop_cases {answers : Nat → Answers} {n : Nat} {c : Copying} {t : Totals}
    {r : Nat × Copying × Totals} (h : copyLoop answers n c t = some r) :
    copyTurn (answers n) c = .eof ∧ r = (n + 1, c, t) ∨
    ∃ c' wrstatus, copyTurn (answers n) c = .again c' wrstatus ∧
      copyLoop answers (n + 1) c' (t.count wrstatus) = some r := by
  rw [copyLoop] at h
  split at h
  · cases h
  · next hturn => exact .inl ⟨hturn, (Option.some.inj h).symm⟩
  · next c' wrstatus hturn => exact .inr ⟨c', wrstatus, hturn, h⟩

/-! ### One file -/

/-- `read` comes to an end where the file does. -/
theorem copyTurn_eof {a : Answers} {c : Copying} (h : copyTurn a c = .eof) : c.rest = [] := by
  unfold copyTurn at h
  cases hread : a.read with
  | none => simp [hread] at h
  | some want =>
      simp only [hread] at h
      split_ifs at h with hend
      have hnone := (readAmount_eq_zero.mp hend).resolve_left (by decide)
      exact List.eq_nil_of_length_eq_zero hnone

/-- Whether each `write` of the loop that does not fail wants to take its chunk whole, when
`rest` is left to read at the `n`-th turn. -/
def WholeWrites (answers : Nat → Answers) (n : Nat) (rest : List Byte) : Prop :=
  match (answers n).read with
  | none => True
  | some want =>
      if _hend : readAmount bufferSize want rest.length = 0 then True
      else
        (∀ part, (answers n).write = some part → readAmount bufferSize want rest.length ≤ part) ∧
          WholeWrites answers (n + 1) (rest.drop (readAmount bufferSize want rest.length))
termination_by rest.length
decreasing_by exact length_drop_readAmount _hend

theorem wholeWrites_nil (answers : Nat → Answers) (n : Nat) : WholeWrites answers n [] := by
  rw [WholeWrites]
  cases (answers n).read <;> simp [readAmount]

theorem length_written_le (answer : Option Nat) (buf : List Byte) (count : Nat) :
    (written answer buf count).length ≤ count := by
  cases answer with
  | none => exact Nat.zero_le _
  | some part =>
      have hle := writeAmount_le count part
      simp only [written, List.length_take]
      omega

/-- A `write` that takes anything takes the whole chunk if and only if it wants that much. -/
theorem length_written_eq {answer : Option Nat} {buf : List Byte} {count : Nat}
    (hbuf : buf.length = count) (htook : (written answer buf count).length ≠ 0) :
    (written answer buf count).length = count ↔ ∀ part, answer = some part → count ≤ part := by
  cases answer with
  | none => exact absurd rfl htook
  | some part =>
      simp only [written, writeAmount, List.length_take, Option.some.injEq, forall_eq']
      omega

/-- A `write` of the whole chunk hands on the chunk. -/
theorem written_whole {answer : Option Nat} {buf : List Byte} {count : Nat}
    (hbuf : buf.length = count) (hwhole : (written answer buf count).length = count) :
    written answer buf count = buf := by
  cases answer with
  | none => exact (List.eq_nil_of_length_eq_zero (hbuf.trans hwhole.symm)).symm
  | some part =>
      simp only [written, List.length_take] at hwhole ⊢
      exact List.take_of_length_le (by omega)

/-- Whether a turn that goes on has written its chunk whole, and the turns after it too. -/
theorem wholeWrites_again {answers : Nat → Answers} {n wrstatus : Nat} {c c' : Copying}
    (h : copyTurn (answers n) c = .again c' wrstatus) :
    WholeWrites answers n c.rest ↔
      wrstatus = c.rest.length - c'.rest.length ∧ WholeWrites answers (n + 1) c'.rest := by
  obtain ⟨want, byteNum, hread, rfl, hne, rfl, htook, rfl⟩ := copyTurn_again h
  have hbuf := length_take_readAmount bufferSize want c.rest
  have hle := readAmount_le_left bufferSize want c.rest.length
  rw [WholeWrites, hread]
  simp only [dif_neg hne, ← length_written_eq hbuf htook, List.length_drop, Nat.sub_sub_self hle]

/-- What a turn that goes on has written and counted. -/
theorem copyTurn_writes {a : Answers} {c c' : Copying} {wrstatus : Nat}
    (h : copyTurn a c = .again c' wrstatus) :
    wrstatus ≤ c.rest.length - c'.rest.length ∧
      (wrstatus = c.rest.length - c'.rest.length →
        c'.piped ++ c'.rest = c.piped ++ c.rest) := by
  obtain ⟨want, byteNum, -, rfl, -, rfl, -, rfl⟩ := copyTurn_again h
  have hbuf := length_take_readAmount bufferSize want c.rest
  have hle := readAmount_le_left bufferSize want c.rest.length
  simp only [List.length_drop, Nat.sub_sub_self hle]
  refine ⟨length_written_le _ _ _, fun hwhole => ?_⟩
  rw [hwhole, if_neg (Nat.lt_irrefl _), written_whole hbuf hwhole, List.append_nil,
    List.append_assoc, List.take_append_drop]

/-- **One run of the loop.** It counts no more bytes than the file has, and exactly as many
if and only if every `write` takes its chunk whole; then the pipe has accepted the file. -/
theorem copyLoop_spec {answers : Nat → Answers} {n n' : Nat} {c c' : Copying} {t t' : Totals}
    (h : copyLoop answers n c t = some (n', c', t')) (hfits : FitsInt t.totalBytes)
    (hsum : t.totalBytes + c.rest.length < 2 ^ 31) : ∃ counted : Nat,
    t'.totalBytes = t.totalBytes + counted ∧ counted ≤ c.rest.length ∧
      (counted = c.rest.length ↔ WholeWrites answers n c.rest) ∧
      (WholeWrites answers n c.rest → c'.piped = c.piped ++ c.rest) := by
  induction hlen : c.rest.length using Nat.strongRecOn generalizing n c t with
  | _ len ih =>
      rcases copyLoop_cases h with ⟨hend, heq⟩ | ⟨c₁, wrstatus, hturn, hlater⟩
      · obtain ⟨rfl, rfl, rfl⟩ : n' = n + 1 ∧ c' = c ∧ t' = t := by simpa using heq
        have hnil := copyTurn_eof hend
        rw [hnil] at hlen ⊢
        exact ⟨0, by simp, by simp, iff_of_true hlen (wholeWrites_nil _ _), by simp⟩
      · have hless := copyTurn_less hturn
        obtain ⟨hstatus, hpiped⟩ := copyTurn_writes hturn
        have hcount : (t.count wrstatus).totalBytes = t.totalBytes + wrstatus :=
          toInt_of_fits ⟨by have := hfits.1; omega, by omega⟩
        have hfits₁ : FitsInt (t.count wrstatus).totalBytes := toInt_fits _
        obtain ⟨counted, htotal, hmost, hiff, hall⟩ :=
          ih _ (hlen ▸ hless) hlater hfits₁ (by omega) rfl
        rw [wholeWrites_again hturn]
        refine ⟨wrstatus + counted, by omega, by omega, ?_, fun ⟨hwhole, hrest⟩ => ?_⟩
        · rw [← hiff]
          omega
        · rw [hall hrest, hpiped hwhole]

/-! ### All files -/

/-- What the system answers to `main`: whether the calls that come before the loop for the
`k`-th file succeed (`pipe`, `fork`, `open`), what it says in the `n`-th turn of the loop,
counted over all files, and whether the `wait3` for the `k`-th file succeeds. -/
structure Env where
  setup : Nat → Bool
  answers : Nat → Answers
  wait : Nat → Bool

/-- A call of `pipeFile` that has returned. -/
structure Call where
  content : List Byte
  /-- What the pipe has accepted. -/
  piped : List Byte
  before : Totals
  after : Totals
  /-- The turns of the loop that came before the call, and with it. -/
  turn : Nat
  turns : Nat
  deriving DecidableEq, Repr

/-- `pipeFile` in the original process, for the `k`-th file; `none` if the program exits. -/
def pipeFile (env : Env) (k turn : Nat) (content : List Byte) (t : Totals) : Option Call :=
  let entered : Totals := { t with totalFiles := toInt (t.totalFiles + 1) }
  if env.setup k then
    match copyLoop env.answers turn ⟨content, []⟩ entered with
    | none => none
    | some (turns, c, after) =>
        if env.wait k then some ⟨content, c.piped, t, after, turn, turns⟩ else none
  else none

/-- How `main` went: the calls of `pipeFile` that returned, and the exit status. -/
structure Outcome where
  calls : List Call
  status : Nat

/-- The loop of `main`, from the `k`-th file on. -/
def processFiles (env : Env) : Nat → Nat → Totals → List (List Byte) → Outcome
  | _, _, _, [] => ⟨[], 0⟩
  | k, turn, t, content :: files =>
      match pipeFile env k turn content t with
      | none => ⟨[], 1⟩
      | some call =>
          let later := processFiles env (k + 1) call.turns call.after files
          { later with calls := call :: later.calls }

/-- `main`, for operands with these contents. -/
def main (env : Env) (files : List (List Byte)) : Outcome :=
  if files = [] then ⟨[], 1⟩ else processFiles env 0 0 ⟨0, 0⟩ files

/-- The pipe has accepted the file, and as many bytes have been counted. -/
def Call.Exact (call : Call) : Prop :=
  call.piped = call.content ∧
    call.after.totalBytes = call.before.totalBytes + call.content.length

/-- A call that comes from a run of the loop, with statistics that fit their variable. -/
def Call.Copied (env : Env) (call : Call) : Prop :=
  FitsInt call.before.totalBytes ∧ ∃ c,
    copyLoop env.answers call.turn ⟨call.content, []⟩
      { call.before with totalFiles := toInt (call.before.totalFiles + 1) } =
        some (call.turns, c, call.after) ∧ call.piped = c.piped

theorem pipeFile_copied {env : Env} {k turn : Nat} {content : List Byte} {t : Totals}
    {call : Call} (h : pipeFile env k turn content t = some call)
    (hfits : FitsInt t.totalBytes) : call.content = content ∧ call.Copied env := by
  unfold pipeFile at h
  dsimp only at h
  split at h
  · split at h
    · cases h
    · next turns c after hloop =>
      split at h
      · obtain rfl := Option.some.inj h
        exact ⟨rfl, hfits, c, hloop, rfl⟩
      · cases h
  · cases h

/-- The loop keeps the number of bytes an `int`. -/
theorem copyLoop_fits {answers : Nat → Answers} {n n' : Nat} {c c' : Copying} {t t' : Totals}
    (h : copyLoop answers n c t = some (n', c', t')) (hfits : FitsInt t.totalBytes) :
    FitsInt t'.totalBytes := by
  induction hlen : c.rest.length using Nat.strongRecOn generalizing n c t with
  | _ len ih =>
      rcases copyLoop_cases h with ⟨-, heq⟩ | ⟨c₁, wrstatus, hturn, hlater⟩
      · obtain ⟨-, -, rfl⟩ : n' = n + 1 ∧ c' = c ∧ t' = t := by simpa using heq
        exact hfits
      · exact ih _ (hlen ▸ copyTurn_less hturn) hlater (toInt_fits _) rfl

/-- The calls of the loop of `main` are for the files in order. -/
theorem processFiles_calls {env : Env} {call : Call} (files : List (List Byte)) :
    ∀ {k turn : Nat} {t : Totals} {j : Nat}, FitsInt t.totalBytes →
      (processFiles env k turn t files).calls[j]? = some call →
      files[j]? = some call.content ∧ call.Copied env := by
  induction files with
  | nil =>
      intro k turn t j _ hcall
      cases hcall
  | cons content files ih =>
      intro k turn t j hfits hcall
      rw [processFiles] at hcall
      cases hfile : pipeFile env k turn content t with
      | none =>
          rw [hfile] at hcall
          cases hcall
      | some first =>
          rw [hfile] at hcall
          obtain ⟨hcontent, hcopied⟩ := pipeFile_copied hfile hfits
          cases j with
          | zero =>
              obtain rfl : first = call := by simpa using hcall
              exact ⟨by simp [hcontent], hcopied⟩
          | succ j =>
              have hlater : FitsInt first.after.totalBytes := by
                obtain ⟨hbefore, c, hloop, -⟩ := hcopied
                exact copyLoop_fits hloop hbefore
              have hrest := ih hlater (by simpa using hcall)
              simpa using hrest

/-- When a run of the loop is exact. -/
theorem Call.Copied.exact_iff {env : Env} {call : Call} (h : call.Copied env)
    (hsum : call.before.totalBytes + call.content.length < 2 ^ 31) :
    call.Exact ↔ WholeWrites env.answers call.turn call.content := by
  obtain ⟨hfits, c, hloop, hpiped⟩ := h
  obtain ⟨counted, htotal, -, hiff, hall⟩ := copyLoop_spec hloop hfits hsum
  dsimp only at htotal hiff hall
  rw [Call.Exact, htotal, hpiped, ← hiff]
  constructor
  · intro hexact
    obtain ⟨-, hcount⟩ := hexact
    omega
  · intro hcount
    exact ⟨by simpa using hall (hiff.mp hcount), by omega⟩

/-- **When the pipe carries the file**: for every file whose call of `pipeFile` returns, the
pipe has accepted exactly the file, and exactly its bytes have been counted, if and only if
every `write` of the loop took its chunk whole. -/
theorem pipeFile_exact_iff {env : Env} {files : List (List Byte)} {k : Nat} {call : Call}
    (hcall : (main env files).calls[k]? = some call)
    (hsum : call.before.totalBytes + call.content.length < 2 ^ 31) :
    files[k]? = some call.content ∧
      (call.Exact ↔ WholeWrites env.answers call.turn call.content) := by
  unfold main at hcall
  split at hcall
  · cases hcall
  · obtain ⟨hfile, hcopied⟩ := processFiles_calls files ⟨by decide, by decide⟩ hcall
    exact ⟨hfile, hcopied.exact_iff hsum⟩

/-- A system whose `write`s take one byte each, the retried one too. -/
def slow : Env :=
  ⟨fun _ => true, fun _ => ⟨some bufferSize, some 1, some 1⟩, fun _ => true⟩

/-- What the only call comes to if its loop comes to its end. -/
theorem main_single {env : Env} {content : List Byte} {turns : Nat} {c : Copying} {after : Totals}
    (hsetup : env.setup 0 = true) (hwait : env.wait 0 = true)
    (hloop : copyLoop env.answers 0 ⟨content, []⟩ ⟨0, 1⟩ = some (turns, c, after)) :
    (main env [content]).calls[0]? = some ⟨content, c.piped, ⟨0, 0⟩, after, 0, turns⟩ := by
  have hone : toInt (0 + 1) = 1 := by decide
  rw [main, if_neg (by simp), processFiles, pipeFile, if_pos hsetup, hone, hloop]
  dsimp only
  rw [if_pos hwait]
  rfl

/-- What the first call comes to if its loop takes two turns. -/
theorem main_slow {content piped : List Byte}
    (hread : copyTurn (slow.answers 0) ⟨content, []⟩ = .again ⟨[], piped⟩ 1) :
    (main slow [content]).calls[0]? = some ⟨content, piped, ⟨0, 0⟩, ⟨1, 1⟩, 0, 2⟩ := by
  have hloop : copyLoop slow.answers 0 ⟨content, []⟩ ⟨0, 1⟩ = some (2, ⟨[], piped⟩, ⟨1, 1⟩) := by
    rw [copyLoop_again _ hread, copyLoop_eof _ (by simp [copyTurn, slow, readAmount])]
    rfl
  exact main_single rfl rfl hloop

/-- A system whose `read`s and `write`s take two bytes each. -/
def pairs : Env := ⟨fun _ => true, fun _ => ⟨some 2, some 2, none⟩, fun _ => true⟩

/-- A file of two chunks, which are written whole, and one of a single chunk, which is not. -/
theorem pipeFile_exact_iff_chunks :
    (⟨[1, 2, 3, 4], [1, 2, 3, 4], ⟨0, 0⟩, ⟨4, 1⟩, 0, 3⟩ : Call).Exact ∧
    WholeWrites pairs.answers 0 [1, 2, 3, 4] ∧ ¬ WholeWrites slow.answers 0 [1, 2] := by
  have hloop : copyLoop pairs.answers 0 ⟨[1, 2, 3, 4], []⟩ ⟨0, 1⟩ =
      some (3, ⟨[], [1, 2, 3, 4]⟩, ⟨4, 1⟩) := by
    rw [copyLoop_again _ (by decide : copyTurn (pairs.answers 0) _ = .again ⟨[3, 4], [1, 2]⟩ 2),
      copyLoop_again _ (by decide : copyTurn (pairs.answers 1) _ = .again ⟨[], [1, 2, 3, 4]⟩ 2),
      copyLoop_eof _ (by decide)]
    rfl
  have hexact : (⟨[1, 2, 3, 4], [1, 2, 3, 4], ⟨0, 0⟩, ⟨4, 1⟩, 0, 3⟩ : Call).Exact := ⟨rfl, rfl⟩
  have hwhole := pipeFile_exact_iff (main_single rfl rfl hloop) (by decide)
  have hslow : (main slow [[1, 2]]).calls[0]? = some ⟨[1, 2], [1, 1], ⟨0, 0⟩, ⟨1, 1⟩, 0, 2⟩ :=
    main_slow (by decide)
  have hslowly := pipeFile_exact_iff hslow (by decide)
  refine ⟨hexact, hwhole.2.mp hexact, fun h => ?_⟩
  exact absurd (hslowly.2.mpr h).1 (by decide)

/-- **Of two bytes the first is carried twice, and the second never**, if the `write` of both
takes one. -/
theorem pipeFile_repeats : ¬ ∀ (env : Env) (files : List (List Byte)) (k : Nat) (call : Call),
    (main env files).calls[k]? = some call →
      call.before.totalBytes + call.content.length < 2 ^ 31 → call.Exact := by
  intro hall
  have hexact := hall slow [[1, 2]] 0 ⟨[1, 2], [1, 1], ⟨0, 0⟩, ⟨1, 1⟩, 0, 2⟩
    (main_slow (by decide)) (by decide)
  exact absurd hexact.1 (by decide)

end Ece357.CatGrepMore
