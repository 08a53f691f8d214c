import Ece357.Machine.Pieces
import Ece357.Shell.Model
import Mathlib.Data.List.TakeWhile

/-!
# Ece357.Shell.Tokens

**Splitting a line into arguments.** The loop over `strtok` finds the pieces of a string between
its delimiters (`strtokAll_eq`). `getArguments` first overwrites the
last character of the line, whatever it is: the newline of a line that has one, but the last
character of the last argument where the script does not end in a newline
(`getArguments_exact_iff`).
-/

namespace Ece357.Shell

open Ece357.Machine

/-- The words of a text. -/
abbrev words (s : CStr) : List CStr := pieces isDelimiter s

/-- A line without its newline, if it has one. -/
def content (line : CStr) : CStr := if line.getLast? = some '\n' then line.dropLast else line

/-! ### The loop over `strtok` -/

/-- What `strtok` finds is the first word. -/
theorem strtok_words (s : CStr) :
    strtok s = none ∧ words s = [] ∨
      ∃ arg rest, strtok s = some (arg, rest) ∧ words s = arg :: words rest := by
  unfold words
  rw [← pieces_dropWhile s]
  unfold strtok
  cases hs : s.dropWhile isDelimiter with
  | nil => exact .inl ⟨rfl, pieces_nil⟩
  | cons c cs =>
      have hc : isDelimiter c = false := by
        have hhead := List.head?_dropWhile_not isDelimiter s
        rw [hs] at hhead
        simpa using hhead
      refine .inr ⟨_, _, rfl, ?_⟩
      have hpiece : IsPiece isDelimiter ((c :: cs).takeWhile (! isDelimiter ·)) :=
        ⟨by simp [hc], fun d hd => by simpa using List.mem_takeWhile_imp hd⟩
      have hsplit := List.takeWhile_append_dropWhile (p := (! isDelimiter ·)) (l := c :: cs)
      cases hrest : (c :: cs).dropWhile (! isDelimiter ·) with
      | nil =>
          -- The word ends with the string.
          rw [hrest, List.append_nil] at hsplit
          rw [List.drop_nil, pieces_nil, hsplit]
          rw [hsplit] at hpiece
          exact hpiece.pieces_eq
      | cons d ds =>
          have hd : isDelimiter d = true := by
            have hhead := List.head?_dropWhile_not (! isDelimiter ·) (c :: cs)
            rw [hrest] at hhead
            simpa using hhead
          rw [hrest] at hsplit
          conv_lhs => rw [← hsplit]
          exact hpiece.pieces_cons hd ds

theorem strtokAll_eq (s : CStr) : strtokAll s = words s := by
  induction s using strtokAll.induct with
  | case1 s hnone =>
      rcases strtok_words s with ⟨-, hwords⟩ | ⟨arg, rest, hsome, -⟩
      · rw [strtokAll_none hnone, hwords]
      · rw [hnone] at hsome
        cases hsome
  | case2 s arg rest hsome ih =>
      rcases strtok_words s with ⟨hnone, -⟩ | ⟨arg', rest', hsome', hwords⟩
      · rw [hnone] at hsome
        cases hsome
      · rw [hsome] at hsome'
        obtain ⟨rfl, rfl⟩ := Prod.mk.inj (Option.some.inj hsome')
        rw [strtokAll_some hsome, ih, hwords]

/-- The loop of `getArguments` with what it keeps: the arguments so far, and `*count`. -/
def collect (s : CStr) (args : List CStr) (count : Nat) : List CStr × Nat :=
  match _hs : strtok s with
  | none => (args, count)
  | some (arg, rest) => collect rest (args ++ [arg]) (count + 1)
termination_by s.length
decreasing_by exact strtok_less _hs

theorem collect_eq (s : CStr) (args : List CStr) (count : Nat) :
    collect s args count = (args ++ strtokAll s, count + (strtokAll s).length) := by
  induction s, args, count using collect.induct with
  | case1 s args count hnone =>
      rw [collect, strtokAll_none hnone]
      split
      · simp
      · simp_all
  | case2 s args count arg rest hsome ih =>
      rw [collect, strtokAll_some hsome]
      split
      · simp_all
      · rename_i arg' rest' hsome'
        rw [hsome] at hsome'
        obtain ⟨rfl, rfl⟩ := Prod.mk.inj (Option.some.inj hsome')
        rw [ih, List.length_cons, List.append_assoc, List.singleton_append, Nat.add_assoc,
          Nat.add_comm 1]

/-- `getArguments` with the `*count` it is called with, 0, and leaves behind. -/
def getArgumentsCount (line : CStr) : List CStr × Nat :=
  collect (line.takeWhile (· ≠ nul)).dropLast [] 0

theorem getArgumentsCount_eq (line : CStr) :
    getArgumentsCount line = (getArguments line, (getArguments line).length) := by
  unfold getArgumentsCount getArguments
  rw [collect_eq, List.nil_append, Nat.zero_add]

/-! ### Reading a line -/

theorem getline_ne_nil {script line rest : CStr} (h : getline script = some (line, rest)) :
    line ≠ [] := by
  cases script with
  | nil => cases h
  | cons c cs =>
      rintro rfl
      unfold getline at h
      split at h
      · cases h
      · cases h
      · split at h <;> simp at h

/-- A line that is followed by a newline. -/
theorem getline_newline {line : CStr} (hline : '\n' ∉ line) (rest : CStr) :
    getline (line ++ '\n' :: rest) = some (line ++ ['\n'], rest) := by
  induction line with
  | nil => rfl
  | cons c line ih =>
      obtain ⟨hc, hrest⟩ := List.ne_and_not_mem_of_not_mem_cons hline
      rw [List.cons_append, getline, ih hrest]
      · rfl
      · exact fun heq => hc heq.symm

/-- The last line of a script that does not end in a newline. -/
theorem getline_end {line : CStr} (hne : line ≠ []) (hline : '\n' ∉ line) :
    getline line = some (line, []) := by
  induction line with
  | nil => exact absurd rfl hne
  | cons c line ih =>
      obtain ⟨hc, hrest⟩ := List.ne_and_not_mem_of_not_mem_cons hline
      cases line with
      | nil =>
          rw [getline]
          · rfl
          · exact fun heq => hc heq.symm
      | cons d line =>
          rw [getline, ih (List.cons_ne_nil d line) hrest]
          exact fun heq => hc heq.symm

/-! ### Exactness -/

/-- `getArguments` finds the words of the line's content, and counts them. -/
def Exact (line : CStr) : Prop :=
  getArgumentsCount line = (words (content line), (words (content line)).length)

/-- The character that is overwritten belongs to no argument. -/
def Spare (line : CStr) : Prop := ∃ c, line.getLast? = some c ∧ (c = '\n' ∨ isDelimiter c = true)

theorem getArguments_eq {line : CStr} (hnul : nul ∉ line) :
    getArguments line = words line.dropLast := by
  unfold getArguments
  rw [strtokAll_eq, List.takeWhile_eq_self_iff.mpr]
  intro c hc
  have hne : c ≠ nul := fun heq => hnul (heq ▸ hc)
  simpa using hne

theorem exact_iff_words {line : CStr} (hnul : nul ∉ line) :
    Exact line ↔ words line.dropLast = words (content line) := by
  unfold Exact
  rw [getArgumentsCount_eq, getArguments_eq hnul]
  constructor
  · exact fun h => (Prod.mk.inj h).1
  · intro h
    rw [h]

theorem exact_iff_spare {line : CStr} (hne : line ≠ []) (hnul : nul ∉ line) :
    Exact line ↔ Spare line := by
  obtain ⟨front, c, rfl⟩ : ∃ front c, line = front ++ [c] :=
    ⟨_, _, (List.dropLast_concat_getLast hne).symm⟩
  rw [exact_iff_words hnul, List.dropLast_concat]
  unfold Spare content
  rw [List.getLast?_concat, List.dropLast_concat]
  constructor
  · intro h
    refine ⟨c, rfl, ?_⟩
    by_cases hnl : c = '\n'
    · exact .inl hnl
    · refine .inr ?_
      rw [if_neg fun heq => hnl (Option.some.inj heq)] at h
      -- Otherwise the line has one character more in its words.
      have hchars := congrArg List.flatten h
      rw [pieces_flatten, pieces_flatten, List.filter_append, List.self_eq_append_right] at hchars
      simpa using hchars
  · rintro ⟨d, hd, hspare⟩
    obtain rfl := Option.some.inj hd
    rcases hspare with rfl | hdelim
    · rw [if_pos rfl]
    · by_cases hnl : some c = some '\n'
      · rw [if_pos hnl]
      · unfold words
        rw [if_neg hnl, pieces_append_separator hdelim, pieces_nil, List.append_nil]

/-! ### Joining words -/

/-- A word as it may stand in a line. -/
structure IsWord (w : CStr) : Prop extends IsPiece isDelimiter w where
  no_newline : '\n' ∉ w
  no_nul : nul ∉ w

section Join

variable {sep : Nat → CStr} {ws : List CStr} (hsep : ∀ k, IsGap isDelimiter (sep k))
  (hws : ∀ w ∈ ws, IsWord w)
include hsep hws

theorem newline_not_mem_join : '\n' ∉ joinGaps sep 0 ws :=
  not_mem_joinGaps hsep (by decide) (fun w hw => (hws w hw).no_newline) 0

theorem nul_not_mem_join : nul ∉ joinGaps sep 0 ws :=
  not_mem_joinGaps hsep (by decide) (fun w hw => (hws w hw).no_nul) 0

theorem words_join : words (joinGaps sep 0 ws) = ws :=
  pieces_joinGaps hsep (fun w hw => (hws w hw).toIsPiece) 0

/-- Behind a newline nothing is lost. -/
theorem join_newline : getArguments (joinGaps sep 0 ws ++ ['\n']) = ws := by
  have hnul : nul ∉ joinGaps sep 0 ws ++ ['\n'] := by
    rw [List.mem_append, not_or]
    exact ⟨nul_not_mem_join hsep hws, by decide⟩
  rw [getArguments_eq hnul, List.dropLast_concat, words_join hsep hws]

/-- The text ends in a character of a word. -/
theorem join_not_spare : ¬ Spare (joinGaps sep 0 ws) := by
  intro h
  obtain ⟨c, hlast, hc⟩ := h
  obtain ⟨w, hw, hmem⟩ :=
    joinGaps_getLast? hsep (fun w hw => (hws w hw).toIsPiece) hlast
  rcases hc with rfl | hc
  · exact (hws w hw).no_newline hmem
  · rw [(hws w hw).no_separator c hmem] at hc
    cases hc

/-- Without a newline something is. -/
theorem join_end (hne : ws ≠ []) : getArguments (joinGaps sep 0 ws) ≠ ws := by
  intro hback
  have hjoin := joinGaps_ne_nil hsep (fun w hw => (hws w hw).toIsPiece) hne 0
  have hcontent : content (joinGaps sep 0 ws) = joinGaps sep 0 ws :=
    if_neg fun hlast => newline_not_mem_join hsep hws (List.mem_of_getLast? hlast)
  have hexact : Exact (joinGaps sep 0 ws) := by
    unfold Exact
    rw [getArgumentsCount_eq, hback, hcontent, words_join hsep hws]
  exact join_not_spare hsep hws ((exact_iff_spare hjoin (nul_not_mem_join hsep hws)).mp hexact)

end Join

/-- **Tokenisation is exact just where the last character of the line can be spared.** Words
that are joined are read back if a newline follows, and never at the end of a script. -/
theorem getArguments_exact_iff (script line rest : CStr) :
    (getline script = some (line, rest) → nul ∉ line → (Exact line ↔ Spare line)) ∧
    ∀ (sep : Nat → CStr) (ws : List CStr), (∀ k, IsGap isDelimiter (sep k)) →
      (∀ w ∈ ws, IsWord w) →
      (∀ tail, ∃ text, getline (joinGaps sep 0 ws ++ '\n' :: tail) = some (text, tail) ∧
        getArguments text = ws) ∧
      (ws ≠ [] →
        ∃ text, getline (joinGaps sep 0 ws) = some (text, []) ∧ getArguments text ≠ ws) := by
  constructor
  · intro hline hnul
    exact exact_iff_spare (getline_ne_nil hline) hnul
  · intro sep ws hsep hws
    have hnewline := newline_not_mem_join hsep hws
    constructor
    · intro tail
      exact ⟨_, getline_newline hnewline tail, join_newline hsep hws⟩
    · intro hne
      have hjoin := joinGaps_ne_nil hsep (fun w hw => (hws w hw).toIsPiece) hne 0
      exact ⟨_, getline_end hjoin hnewline, join_end hsep hws hne⟩

/-- The arguments of a command with a newline are exact; without it the line `ls` is read as
`l`. -/
theorem getArguments_exact_iff_ls :
    Exact "ls\n".toList ∧
      ∃ line, getline "ls".toList = some (line, []) ∧ getArguments line ≠ ["ls".toList] :=
  ⟨((getArguments_exact_iff "ls\n".toList "ls\n".toList []).1 (by decide) (by decide)).mpr
      ⟨'\n', by decide, .inl rfl⟩,
    ((getArguments_exact_iff [] [] []).2 (fun _ => [' ']) ["ls".toList]
      (fun _ => ⟨by decide, by simp [isDelimiter]⟩)
      (by
        intro w hw
        obtain rfl := List.mem_singleton.mp hw
        exact ⟨⟨by decide, by simp [isDelimiter]⟩, by decide, by decide⟩)).2 (by decide)⟩

/-- A script of the one line `ls`, without a newline: the argument found is `l`. -/
theorem getArguments_not_exact :
    ¬ ∀ script line rest, getline script = some (line, rest) → nul ∉ line → Exact line := by
  intro h
  have hexact := h "ls".toList "ls".toList [] (by decide) (by decide)
  rw [exact_iff_spare (by decide) (by decide)] at hexact
  obtain ⟨c, hlast, hc⟩ := hexact
  obtain rfl : 's' = c := Option.some.inj hlast
  revert hc
  decide

end Ece357.Shell
