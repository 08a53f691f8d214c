import Ece357.Copycat.Model
import Mathlib.Data.List.Basic
import Mathlib.Data.List.Induction

/-!
# Ece357.Copycat.Operands

**Which operands survive the options?** The option loop recognizes options wherever they stand,
and counts them; then the arguments are moved down by that count, as if all options had stood in
front. So the operands are kept precisely when they did, or if all that stood in front of the last
option is one operand which is the same string as the value of that option, and takes its place
(`operands_kept_iff`).

The loop also starts one argument too early, at the name of the program, which must not be taken
for an option. Arguments are written here as a sequence of options, each with its value, and
operands, which are no options by their type.
-/

namespace Ece357.Copycat

open Ece357.Machine

/-! ### Arguments -/

/-- The options of `main`. -/
inductive Flag
  | o
  | b
  deriving DecidableEq, Repr

def Flag.str : Flag → CStr
  | .o => ['-', 'o']
  | .b => ['-', 'b']

/-- The string is no option. -/
def Plain (s : CStr) : Prop := s ≠ ['-', 'o'] ∧ s ≠ ['-', 'b']

instance (s : CStr) : Decidable (Plain s) := inferInstanceAs (Decidable (_ ∧ _))

theorem Plain.ne_flag {s : CStr} (h : Plain s) (flag : Flag) : s ≠ flag.str := by
  cases flag with
  | o => exact h.1
  | b => exact h.2

theorem exists_flag_of_not_plain {s : CStr} (h : ¬ Plain s) : ∃ flag : Flag, s = flag.str := by
  by_cases ho : s = ['-', 'o']
  · exact ⟨.o, ho⟩
  · by_cases hb : s = ['-', 'b']
    · exact ⟨.b, hb⟩
    · exact absurd ⟨ho, hb⟩ h

/-- What the command line consists of. The value of an option can be any string. -/
inductive Item
  | option (flag : Flag) (value : CStr)
  | operand (s : CStr) (plain : Plain s)

/-- The arguments that an item takes up. -/
def Item.strings : Item → List CStr
  | .option flag value => [flag.str, value]
  | .operand s _ => [s]

def Item.isOption : Item → Bool
  | .option .. => true
  | .operand .. => false

/-- The value, if it is this option. -/
def Item.value? (flag : Flag) : Item → Option CStr
  | .option flag' value => if flag' = flag then some value else none
  | .operand .. => none

def Item.operand? : Item → Option CStr
  | .option .. => none
  | .operand s _ => some s

def strings (items : List Item) : List CStr := items.flatMap Item.strings

/-- What the command line says: the value of the last such option. -/
def lastValue (flag : Flag) (items : List Item) : Option CStr :=
  (items.filterMap (Item.value? flag)).getLast?

def bufferSizeOf (items : List Item) : Int := ((lastValue .b items).map atoi).getD 4096

def operandsOf (items : List Item) : List CStr := items.filterMap Item.operand?

/-- The files to be read: `-` alone if there is no operand. -/
def filesOf (items : List Item) : List CStr :=
  if operandsOf items = [] then [['-']] else operandsOf items

def optionCount (items : List Item) : Nat := items.countP Item.isOption

/-- The options and operands of the command line are found. -/
def KeepsOperands (prog : CStr) (items : List Item) : Prop :=
  ∃ found, getOptions (prog :: strings items) defaults = some found ∧
    found.outfile = lastValue .o items ∧ found.bufferSize = bufferSizeOf items ∧
    inputFiles (prog :: strings items) found.numToRemove = filesOf items

/-- No operand stands in front of the last option, or one that is the same string as the value
of that option. -/
def OptionsFirst (items : List Item) : Prop :=
  ∀ before flag value after, items = before ++ Item.option flag value :: after →
    optionCount after = 0 → operandsOf before = [] ∨ operandsOf before = [value]

/-- With the name of the program in front, the arguments can be read again as options and
operands, which say the same about the options. So they can if that name is no option. -/
def NameIgnored (prog : CStr) (items : List Item) : Prop :=
  ∃ items', prog :: strings items = strings items' ∧ optionCount items' = optionCount items ∧
    lastValue .o items' = lastValue .o items ∧ bufferSizeOf items' = bufferSizeOf items

/-! ### What the option loop finds -/

/-- What an item changes. -/
def Options.after (found : Options) : Item → Options
  | .option .o value =>
      { found with outfile := some value, numToRemove := found.numToRemove + 2 }
  | .option .b value =>
      { found with bufferSize := atoi value, numToRemove := found.numToRemove + 2 }
  | .operand .. => found

theorem getOptions_plain {s : CStr} (h : Plain s) (rest : List CStr) (found : Options) :
    getOptions (s :: rest) found = getOptions rest found := by
  obtain ⟨ho, hb⟩ := h
  rw [getOptions] <;> simp_all

theorem getOptions_item (item : Item) (rest : List CStr) (found : Options) :
    getOptions (item.strings ++ rest) found = getOptions rest (found.after item) := by
  cases item with
  | option flag value => cases flag <;> rfl
  | operand s plain => exact getOptions_plain plain rest found

theorem getOptions_strings (items : List Item) (rest : List CStr) (found : Options) :
    getOptions (strings items ++ rest) found =
      getOptions rest (items.foldl Options.after found) := by
  induction items generalizing found with
  | nil => rfl
  | cons item items ih =>
      rw [strings, List.flatMap_cons, List.append_assoc, getOptions_item, List.foldl_cons]
      exact ih _

theorem lastValue_concat (flag : Flag) (items : List Item) (item : Item) :
    lastValue flag (items ++ [item]) = (item.value? flag).or (lastValue flag items) := by
  unfold lastValue
  rw [List.filterMap_append]
  cases h : item.value? flag with
  | none => simp [h]
  | some value => simp [h]

theorem optionCount_append (items items' : List Item) :
    optionCount (items ++ items') = optionCount items + optionCount items' :=
  List.countP_append

theorem optionCount_option (flag : Flag) (value : CStr) (items : List Item) :
    optionCount (.option flag value :: items) = optionCount items + 1 :=
  List.countP_cons_of_pos rfl

/-- The loop finds the last values, and counts the options. -/
theorem foldl_after (items : List Item) : items.foldl Options.after defaults =
    ⟨lastValue .o items, bufferSizeOf items, 1 + 2 * optionCount items⟩ := by
  induction items using List.reverseRecOn with
  | nil => rfl
  | append_singleton items item ih =>
      rw [List.foldl_concat, ih]
      unfold bufferSizeOf
      rw [lastValue_concat, lastValue_concat, optionCount_append]
      cases item with
      | option flag value => cases flag <;> simp [Options.after, Item.value?, optionCount,
          Item.isOption] <;> omega
      | operand s plain => simp [Options.after, Item.value?, optionCount, Item.isOption]

theorem getOptions_items (items : List Item) : getOptions (strings items) defaults =
    some ⟨lastValue .o items, bufferSizeOf items, 1 + 2 * optionCount items⟩ := by
  have h := getOptions_strings items [] defaults
  rw [List.append_nil] at h
  rw [h, foldl_after]
  rfl

/-! ### The name of the program -/

/-- Arguments consist of options and operands, but for an option without value at the end. -/
def Readable (args : List CStr) : Prop :=
  ∃ items, args = strings items ∨ ∃ flag : Flag, args = strings items ++ [flag.str]

theorem Readable.cons {args : List CStr} (h : Readable args) (item : Item) :
    Readable (item.strings ++ args) := by
  obtain ⟨items, rfl | ⟨flag, rfl⟩⟩ := h
  · exact ⟨item :: items, .inl rfl⟩
  · exact ⟨item :: items, .inr ⟨flag, (List.append_assoc ..).symm⟩⟩

/-- An option takes the next argument with it, so the induction carries along what comes of the
arguments behind one more. -/
theorem readable (args : List CStr) : Readable args ∧ ∀ s, Readable (s :: args) := by
  induction args with
  | nil =>
      refine ⟨⟨[], .inl rfl⟩, fun s => ?_⟩
      by_cases hplain : Plain s
      · exact ⟨[.operand s hplain], .inl rfl⟩
      · obtain ⟨flag, rfl⟩ := exists_flag_of_not_plain hplain
        exact ⟨[], .inr ⟨flag, rfl⟩⟩
  | cons value args ih =>
      obtain ⟨hargs, hvalue⟩ := ih
      refine ⟨hvalue value, fun s => ?_⟩
      by_cases hplain : Plain s
      · exact (hvalue value).cons (.operand s hplain)
      · obtain ⟨flag, rfl⟩ := exists_flag_of_not_plain hplain
        exact hargs.cons (.option flag value)

theorem strings_cons (item : Item) (items : List Item) :
    strings (item :: items) = item.strings ++ strings items := List.flatMap_cons

theorem strings_ne_dangling (items items' : List Item) (flag : Flag) :
    strings items ≠ strings items' ++ [flag.str] := by
  induction items' generalizing items with
  | nil =>
      intro h
      cases items with
      | nil => cases h
      | cons item items =>
          cases item with
          | option flag' value => simp [strings, Item.strings] at h
          | operand s plain => exact plain.ne_flag flag (List.cons.inj h).1
  | cons item' items' ih =>
      intro h
      rw [strings_cons, List.append_assoc] at h
      cases items with
      | nil => cases item' <;> cases h
      | cons item items =>
          rw [strings_cons] at h
          cases item with
          | option f value =>
              cases item' with
              | option f' value' => exact ih items (List.cons.inj (List.cons.inj h).2).2
              | operand s' plain' => exact plain'.ne_flag f (List.cons.inj h).1.symm
          | operand s plain =>
              cases item' with
              | option f' value' => exact plain.ne_flag f' (List.cons.inj h).1
              | operand s' plain' => exact ih items (List.cons.inj h).2

/-- If the last option is left without a value because of the name of the program, then there
is one option more than should be. -/
theorem optionCount_of_dangling {prog : CStr} {items items' : List Item} {flag : Flag}
    (h : prog :: strings items = strings items' ++ [flag.str]) :
    optionCount items' = optionCount items := by
  induction items generalizing prog items' with
  | nil =>
      cases items' with
      | nil => rfl
      | cons item' items' => cases item' <;> simp [strings, Item.strings] at h
  | cons item items ih =>
      cases items' with
      | nil => cases item <;> simp [strings, Item.strings] at h
      | cons item' items' =>
          rw [strings_cons item', List.append_assoc] at h
          cases item' with
          | operand s' plain' =>
              -- the arguments themselves would end with an option without value
              exact (strings_ne_dangling _ _ _ (List.cons.inj h).2).elim
          | option f' value' =>
              have htail := (List.cons.inj h).2
              cases item with
              | operand s plain =>
                  exact (strings_ne_dangling _ _ _ (List.cons.inj htail).2).elim
              | option f value =>
                  have hvalue : value :: strings items = strings items' ++ [flag.str] :=
                    (List.cons.inj htail).2
                  have hcount := ih hvalue
                  rw [optionCount_option, optionCount_option, hcount]

/-! ### The arguments that are left -/

theorem length_strings (items : List Item) :
    (strings items).length = 2 * optionCount items + (operandsOf items).length := by
  induction items with
  | nil => rfl
  | cons item items ih =>
      rw [strings_cons, List.length_append, ih]
      cases item with
      | option flag value =>
          rw [optionCount_option]
          show 2 + _ = 2 * (optionCount items + 1) + (operandsOf items).length
          omega
      | operand s plain =>
          show 1 + _ = 2 * optionCount items + ((operandsOf items).length + 1)
          omega

/-- As many arguments are left as there are operands only if the options are counted right. -/
theorem optionCount_of_inputFiles {prog : CStr} {items : List Item} {count : Nat}
    (h : inputFiles (prog :: strings items) (1 + 2 * count) = filesOf items) :
    count = optionCount items := by
  have hlen := congrArg List.length h
  have hstrings := length_strings items
  unfold inputFiles filesOf at hlen
  rw [List.length_cons] at hlen
  by_cases hops : operandsOf items = []
  · rw [if_pos hops] at hlen
    rw [hops, List.length_nil] at hstrings
    split_ifs at hlen
    · omega
    · rw [List.length_drop, List.length_cons, List.length_singleton] at hlen
      omega
  · rw [if_neg hops] at hlen
    have hpos := List.length_pos_iff.mpr hops
    split_ifs at hlen
    · rw [List.length_singleton] at hlen
      omega
    · rw [List.length_drop, List.length_cons] at hlen
      omega

theorem strings_append (items items' : List Item) :
    strings (items ++ items') = strings items ++ strings items' := List.flatMap_append

theorem operandsOf_append (items items' : List Item) :
    operandsOf (items ++ items') = operandsOf items ++ operandsOf items' := List.filterMap_append

theorem plain_of_mem {items : List Item} {s : CStr} (h : s ∈ operandsOf items) : Plain s := by
  obtain ⟨item, -, hs⟩ := List.mem_filterMap.mp h
  cases item with
  | option flag value => cases hs
  | operand s' plain =>
      obtain rfl : s' = s := Option.some.inj hs
      exact plain

/-- Behind the last option, all arguments are operands. -/
theorem strings_of_no_option {items : List Item} (h : optionCount items = 0) :
    strings items = operandsOf items := by
  induction items with
  | nil => rfl
  | cons item items ih =>
      cases item with
      | option flag value =>
          rw [optionCount_option] at h
          omega
      | operand s plain =>
          have htail : strings items = operandsOf items := ih h
          show s :: strings items = s :: operandsOf items
          rw [htail]

theorem exists_last_option {items : List Item} (h : optionCount items ≠ 0) :
    ∃ before flag value after, items = before ++ Item.option flag value :: after ∧
      optionCount after = 0 := by
  induction items with
  | nil => exact absurd rfl h
  | cons item items ih =>
      by_cases hrest : optionCount items = 0
      · cases item with
        | option flag value => exact ⟨[], flag, value, items, rfl, hrest⟩
        | operand s plain => exact absurd hrest h
      · obtain ⟨before, flag, value, after, rfl, hafter⟩ := ih hrest
        exact ⟨item :: before, flag, value, after, rfl, hafter⟩

/-- What is left when the options are counted off from the front: the operands, if none stood in
front of the last option, or one whose place its value takes. With two in front, the option itself
would be left, which is no operand. -/
theorem drop_strings_iff (before : List Item) (flag : Flag) (value : CStr) {after : List Item}
    (hafter : optionCount after = 0) :
    (strings (before ++ .option flag value :: after)).drop
        (2 * optionCount (before ++ .option flag value :: after)) =
      operandsOf (before ++ .option flag value :: after) ↔
    operandsOf before = [] ∨ operandsOf before = [value] := by
  have hcount : optionCount (before ++ .option flag value :: after) = optionCount before + 1 := by
    rw [optionCount_append, optionCount_option, hafter]
  have hstrings : strings (before ++ .option flag value :: after) =
      (strings before ++ [flag.str, value]) ++ operandsOf after := by
    rw [strings_append, strings_cons, strings_of_no_option hafter, List.append_assoc]
    rfl
  have hoperands : operandsOf (before ++ .option flag value :: after) =
      operandsOf before ++ operandsOf after := operandsOf_append ..
  have hlen := length_strings before
  rw [hcount, hstrings, hoperands, List.drop_append_of_le_length (by
    rw [List.length_append, List.length_cons, List.length_singleton]
    omega), List.append_cancel_right_eq]
  rcases hops : operandsOf before with _ | ⟨s, _ | ⟨s', ops⟩⟩
  · rw [hops, List.length_nil] at hlen
    simp only [true_or, iff_true, List.drop_eq_nil_iff, List.length_append, List.length_cons,
      List.length_nil]
    omega
  · rw [hops, List.length_singleton] at hlen
    have hdrop : (strings before ++ [flag.str, value]).drop (2 * (optionCount before + 1)) =
        [value] := by
      rw [show strings before ++ [flag.str, value] = (strings before ++ [flag.str]) ++ [value] by
        simp]
      refine List.drop_left' ?_
      rw [List.length_append, List.length_singleton]
      omega
    rw [hdrop]
    simp [eq_comm]
  · rw [hops, List.length_cons, List.length_cons] at hlen
    refine ⟨fun h => ?_, fun h => by rcases h with h | h <;> cases h⟩
    rw [List.drop_append_of_le_length (by omega)] at h
    have hmem : flag.str ∈ operandsOf before := by
      rw [hops, ← h]
      exact List.mem_append_right _ (List.mem_cons_self ..)
    exact absurd rfl ((plain_of_mem hmem).ne_flag flag)

/-- **The operands are what is left**, when the options are counted right, precisely if the
options come first. -/
theorem inputFiles_iff (prog : CStr) (items : List Item) :
    inputFiles (prog :: strings items) (1 + 2 * optionCount items) = filesOf items ↔
      OptionsFirst items := by
  have hlen := length_strings items
  unfold inputFiles filesOf
  rw [List.length_cons]
  by_cases hops : operandsOf items = []
  · rw [hops, List.length_nil] at hlen
    rw [if_pos (by omega), if_pos hops]
    refine ⟨fun _ before flag value after heq _ => .inl ?_, fun _ => rfl⟩
    rw [heq, operandsOf_append] at hops
    exact (List.append_eq_nil_iff.mp hops).1
  · have hpos := List.length_pos_iff.mpr hops
    rw [if_neg (by omega), if_neg hops, Nat.add_comm 1, List.drop_succ_cons]
    constructor
    · rintro h before flag value after rfl hafter
      exact (drop_strings_iff before flag value hafter).mp h
    · intro h
      by_cases hcount : optionCount items = 0
      · rw [hcount]
        exact strings_of_no_option hcount
      · obtain ⟨before, flag, value, after, rfl, hafter⟩ := exists_last_option hcount
        exact (drop_strings_iff before flag value hafter).mpr
          (h before flag value after rfl hafter)

/-- **When are the operands kept?** If the name of the program does not pass for an option, and
the options come first. -/
theorem operands_kept_iff (prog : CStr) (items : List Item) :
    KeepsOperands prog items ↔ NameIgnored prog items ∧ OptionsFirst items := by
  constructor
  · rintro ⟨found, hfound, hout, hsize, hfiles⟩
    obtain ⟨items', hread | ⟨flag, hread⟩⟩ := (readable (prog :: strings items)).1
    · rw [hread, getOptions_items] at hfound
      obtain rfl := Option.some.inj hfound
      have hcount := optionCount_of_inputFiles hfiles
      refine ⟨⟨items', hread, hcount, hout, hsize⟩, ?_⟩
      rw [← inputFiles_iff prog, ← hcount]
      exact hfiles
    · rw [hread, getOptions_strings, foldl_after] at hfound
      cases flag with
      | b => cases hfound
      | o =>
          obtain rfl := Option.some.inj hfound
          have hcount := optionCount_of_dangling hread
          have hone : optionCount items' + 1 = optionCount items :=
            optionCount_of_inputFiles (by rw [← hfiles]; congr 1)
          omega
  · rintro ⟨⟨items', hread, hcount, hout, hsize⟩, hfirst⟩
    refine ⟨_, hread ▸ getOptions_items items', hout, hsize, ?_⟩
    rw [hcount]
    exact (inputFiles_iff prog items).mpr hfirst

/-- An ordinary name is no option. -/
theorem nameIgnored_of_plain {prog : CStr} (h : Plain prog) (items : List Item) :
    NameIgnored prog items := by
  refine ⟨.operand prog h :: items, rfl, rfl, rfl, rfl⟩

/-- `copycat a b -o c` reads the files `-o` and `c`. -/
theorem operands_lost : ¬ ∀ prog items, KeepsOperands prog items := by
  intro h
  obtain ⟨found, hfound, -, -, hfiles⟩ := h ['c', 'o', 'p', 'y', 'c', 'a', 't']
    [.operand ['a'] (by decide), .operand ['b'] (by decide), .option .o ['c']]
  obtain rfl := Option.some.inj hfound
  exact absurd hfiles (by decide)

/-! ### The loop that moves the arguments down -/

/-- `k` turns of the loop `inputFiles[i] = inputFiles[i + numToRemove]`, on `argv` itself. -/
def moveDown (numToRemove k : Nat) (argv : List CStr) : List CStr :=
  (List.range k).foldl (fun inputFiles i => inputFiles.set i (inputFiles.getD (i + numToRemove) []))
    argv

/-- Each turn reads an argument that no turn before has overwritten. -/
theorem moveDown_eq {numToRemove k : Nat} {argv : List CStr} (h : k + numToRemove ≤ argv.length) :
    moveDown numToRemove k argv = (argv.drop numToRemove).take k ++ argv.drop k := by
  induction k with
  | zero => rfl
  | succ k ih =>
      have hk : k < argv.length := by omega
      have hread : k < (argv.drop numToRemove).length := by
        rw [List.length_drop]
        omega
      have htake : ((argv.drop numToRemove).take k).length = k := by
        rw [List.length_take]
        omega
      have hvalue : (((argv.drop numToRemove).take k) ++ argv.drop k).getD (k + numToRemove) [] =
          (argv.drop numToRemove)[k] := by
        have hbound : numToRemove + k < argv.length := by omega
        rw [List.getD_eq_getElem?_getD, List.getElem?_append_right (by omega), htake,
          Nat.add_sub_cancel_left, List.getElem?_drop, List.getElem_drop, Nat.add_comm k,
          List.getElem?_eq_getElem hbound]
        rfl
      unfold moveDown at ih ⊢
      rw [List.range_succ, List.foldl_concat, ih (by omega), hvalue, List.set_append_right _ _ (by
        omega), htake, Nat.sub_self, List.drop_eq_getElem_cons hk, List.set_cons_zero,
        List.take_succ_eq_append_getElem hread, List.append_assoc]
      rfl

/-- The operands are what the loop has moved to the front. -/
theorem inputFiles_moveDown {argv : List CStr} {numToRemove : Nat} (h : argv.length ≠ numToRemove) :
    inputFiles argv numToRemove =
      (moveDown numToRemove (argv.length - numToRemove) argv).take (argv.length - numToRemove) := by
  unfold inputFiles
  rw [if_neg h]
  by_cases hle : numToRemove ≤ argv.length
  · have hlen : (argv.drop numToRemove).length = argv.length - numToRemove := List.length_drop
    rw [moveDown_eq (by omega), ← hlen, List.take_length, List.take_left]
  · have hzero : argv.length - numToRemove = 0 := by omega
    rw [hzero, List.take_zero]
    exact List.drop_eq_nil_of_le (by omega)

end Ece357.Copycat
