/-
# The command line of the tool

`ParseArgs` of `cli/main.cc`, and the command lines that it accepts: options with
their values, `--help` and `--version` in any order and number, and among them one
command, before which there may be empty words. Of the values of one option the
last one counts. A command line that is not accepted begins with one that is, and
the argument after that is what the tool complains of.

Key definitions: `Opt`, `CommandLine`, `parseArgs`, `Item`, `Grammar`, `Offends`.
Key theorem: `parseArgs_iff`.
-/
import ModelCrypt.Cli
import Mathlib.Data.List.Induction

namespace ModelCrypt.Cli

open Lib Prog

/-! ### ParseArgs -/

/-- The options that take a value. -/
inductive Opt
  | input | out | keyFile | keyEnv | compression | chunkSize | kdfLogN | kdfR | kdfP
  deriving DecidableEq, Repr

namespace Opt

/-- In the order that `ParseArgs` compares them. -/
def all : List Opt := [input, out, keyFile, keyEnv, compression, chunkSize, kdfLogN, kdfR, kdfP]

def name : Opt → Text
  | input => "--in".toList
  | out => "--out".toList
  | keyFile => "--key-file".toList
  | keyEnv => "--key-env".toList
  | compression => "--compression".toList
  | chunkSize => "--chunk-size".toList
  | kdfLogN => "--kdf-log-n".toList
  | kdfR => "--kdf-r".toList
  | kdfP => "--kdf-p".toList

/-- The option that an argument is. -/
def named (arg : Text) : Option Opt := all.find? fun o => decide (o.name = arg)

end Opt

def Args.get (args : Args) : Opt → Text
  | .input => args.input
  | .out => args.out
  | .keyFile => args.keyFile
  | .keyEnv => args.keyEnv
  | .compression => args.compression
  | .chunkSize => args.chunkSize
  | .kdfLogN => args.kdfLogN
  | .kdfR => args.kdfR
  | .kdfP => args.kdfP

def Args.set (args : Args) (value : Text) : Opt → Args
  | .input => { args with input := value }
  | .out => { args with out := value }
  | .keyFile => { args with keyFile := value }
  | .keyEnv => { args with keyEnv := value }
  | .compression => { args with compression := value }
  | .chunkSize => { args with chunkSize := value }
  | .kdfLogN => { args with kdfLogN := value }
  | .kdfR => { args with kdfR := value }
  | .kdfP => { args with kdfP := value }

/-- `Args` of the source, with the command and the flags. -/
structure CommandLine where
  command : Text := []
  args : Args := ⟨[], [], [], [], [], [], [], [], []⟩
  help : Bool := false
  version : Bool := false

/-- What the tool prints when it ends with another code than 0. -/
inductive Complaint
  | requiresValue (o : Opt)
  | keyNotSupported
  | unknownOption (arg : Text)
  | unexpectedArgument (arg : Text)
  | usage
  | unknownCommand (command : Text)
  | cannotOpen (path : Path)
  | inspectFailed (s : McStatus)
  | exception
  | failed (d : Diagnostic)
  deriving DecidableEq, Repr

/-- `ParseArgs`, from the arguments that are left and what it parsed before them; `mem` is whether there is memory for
a string of a length, when it made `n` strings before. -/
def parseArgs (mem : ℕ → ℕ → Bool) : ℕ → List Text → CommandLine → Except Stop (Except Complaint CommandLine)
  | _, [], line => return .ok line
  | n, arg :: rest, line => do
    throwIf (mem n arg.length = false) Stop.badAlloc
    if arg = "-h".toList ∨ arg = "--help".toList then parseArgs mem (n + 1) rest { line with help := true }
    else if arg = "--version".toList then parseArgs mem (n + 1) rest { line with version := true }
    else
      match Opt.named arg with
      | some o =>
        -- `TakeValue`
        match rest with
        | [] => return .error (.requiresValue o)
        | value :: rest => do
          throwIf (mem (n + 1) value.length = false) Stop.badAlloc
          parseArgs mem (n + 2) rest { line with args := line.args.set value o }
      | none =>
        if arg = "--key".toList then return .error .keyNotSupported
        else if arg.head? = some '-' then return .error (.unknownOption arg)
        else if line.command = [] then do
          throwIf (mem (n + 1) arg.length = false) Stop.badAlloc
          parseArgs mem (n + 2) rest { line with command := arg }
        else return .error (.unexpectedArgument arg)

/-! ### The options -/

theorem Opt.named_name (o : Opt) : named o.name = some o := by cases o <;> rfl

theorem Opt.named_eq_some {arg : Text} {o : Opt} : named arg = some o ↔ arg = o.name := by
  constructor
  · intro h
    exact (of_decide_eq_true (List.find?_some (p := fun o : Opt => decide (o.name = arg)) h)).symm
  · rintro rfl
    exact o.named_name

theorem Opt.named_eq_none {arg : Text} : named arg = none ↔ ∀ o, arg ≠ Opt.name o := by
  rw [Option.eq_none_iff_forall_ne_some]
  exact forall_congr' fun o => not_congr named_eq_some

/-- No option is a flag. -/
theorem Opt.name_ne (o : Opt) :
    ¬ (o.name = "-h".toList ∨ o.name = "--help".toList) ∧ o.name ≠ "--version".toList := by
  cases o <;> decide

theorem Args.get_set (args : Args) (v : Text) (o p : Opt) :
    (args.set v o).get p = if p = o then v else args.get p := by
  cases o <;> cases p <;> rfl

theorem Args.ext_get {a b : Args} (h : ∀ o, a.get o = b.get o) : a = b := by
  obtain ⟨_, _, _, _, _, _, _, _, _⟩ := a
  obtain ⟨_, _, _, _, _, _, _, _, _⟩ := b
  rw [Args.mk.injEq]
  exact ⟨h .input, h .out, h .keyFile, h .keyEnv, h .compression, h .chunkSize, h .kdfLogN, h .kdfR, h .kdfP⟩

/-! ### The command lines that are accepted -/

/-- A part of a command line. -/
inductive Item
  | help (long : Bool)
  | version
  | value (o : Opt) (v : Text)
  | word (t : Text)

namespace Item

/-- The arguments that it is spelled with. -/
def spelling : Item → List Text
  | help false => ["-h".toList]
  | help true => ["--help".toList]
  | version => ["--version".toList]
  | value o v => [o.name, v]
  | word t => [t]

/-- The strings that are made of it: one of each argument, and a copy of the command. -/
def strings : Item → List Text
  | word t => [t, t]
  | it => it.spelling

def word? : Item → Option Text
  | word t => some t
  | _ => none

def value? (o : Opt) : Item → Option Text
  | value p v => if p = o then some v else none
  | _ => none

end Item

def words (items : List Item) : List Text := items.filterMap Item.word?

def values (o : Opt) (items : List Item) : List Text := items.filterMap (Item.value? o)

/-- A command line may have these parts. -/
structure Grammar (items : List Item) : Prop where
  /-- A word is not taken for an option. -/
  plain : ∀ t ∈ words items, t.head? ≠ some '-'
  /-- Only the last one is not empty. -/
  single : ∀ t ∈ (words items).dropLast, t = []

/-- What the tool takes from the parts: the command, and the last value of each option. -/
structure Says (items : List Item) (line : CommandLine) : Prop where
  command : line.command = (words items).getLast?.getD []
  value : ∀ o, line.args.get o = (values o items).getLast?.getD []
  help : line.help = true ↔ ∃ long, .help long ∈ items
  version : line.version = true ↔ .version ∈ items

/-- What is wrong with the next argument, after the words `ws`. -/
inductive Offends (ws : List Text) : Complaint → List Text → Prop
  | requiresValue (o : Opt) : Offends ws (.requiresValue o) [o.name]
  | keyNotSupported (rest : List Text) : Offends ws .keyNotSupported ("--key".toList :: rest)
  | unknownOption (arg : Text) (rest : List Text) (hd : arg.head? = some '-') (hn : ∀ o, arg ≠ Opt.name o)
      (hf : arg ∉ ["-h".toList, "--help".toList, "--version".toList, "--key".toList]) :
      Offends ws (.unknownOption arg) (arg :: rest)
  | unexpectedArgument (arg : Text) (rest : List Text) (hd : arg.head? ≠ some '-') (hc : ∃ t ∈ ws, t ≠ []) :
      Offends ws (.unexpectedArgument arg) (arg :: rest)

/-! ### One part after the other -/

section Parsing

variable {mem : ℕ → ℕ → Bool} {n : ℕ} {line : CommandLine} {items : List Item} {it : Item} {argv rest : List Text}
  {c : Complaint}

/-- What a part adds to what was parsed. -/
def Item.apply (line : CommandLine) : Item → CommandLine
  | .help _ => { line with help := true }
  | .version => { line with version := true }
  | .value o v => { line with args := line.args.set v o }
  | .word t => { line with command := t }

/-- The part may come next. -/
def Item.Fits (line : CommandLine) : Item → Prop
  | .word t => t.head? ≠ some '-' ∧ line.command = []
  | _ => True

/-- There is memory for these strings, one after the other, when `n` were made before. -/
def Fit (mem : ℕ → ℕ → Bool) : ℕ → List Text → Prop
  | _, [] => True
  | n, t :: ts => mem n t.length = true ∧ Fit mem (n + 1) ts

instance Fit.decide (mem : ℕ → ℕ → Bool) : ∀ (n : ℕ) (ts : List Text), Decidable (Fit mem n ts)
  | _, [] => isTrue trivial
  | n, _ :: ts =>
    have := Fit.decide mem (n + 1) ts
    inferInstanceAs (Decidable (_ ∧ _))

theorem fit_append : ∀ {n : ℕ} {a b : List Text}, Fit mem n (a ++ b) ↔ Fit mem n a ∧ Fit mem (n + a.length) b
  | _, [], _ => ⟨fun h => ⟨trivial, h⟩, fun h => h.2⟩
  | n, t :: a, b => by
    rw [List.cons_append, Fit, Fit, fit_append, and_assoc, List.length_cons, Nat.add_assoc, Nat.add_comm 1]

/-- An argument that is no option. -/
theorem named_plain {t : Text} (h : t.head? ≠ some '-') : Opt.named t = none ∧
    ¬ (t = "-h".toList ∨ t = "--help".toList) ∧ t ≠ "--version".toList ∧ t ≠ "--key".toList := by
  have hne {u : Text} (hu : u.head? = some '-') : t ≠ u := fun e => h (e ▸ hu)
  refine ⟨Opt.named_eq_none.mpr fun o => hne (by cases o <;> rfl), ?_, hne rfl, hne rfl⟩
  rintro (e | e)
  · exact hne rfl e
  · exact hne rfl e

/-- `ParseArgs` takes a part that may come next, if there is memory for it. -/
theorem parseArgs_item (h : it.Fits line) : parseArgs mem n (it.spelling ++ rest) line =
    if Fit mem n it.strings then parseArgs mem (n + it.strings.length) rest (it.apply line) else .error .badAlloc := by
  cases it with
  | help long =>
    cases long
    · rw [Item.spelling, List.singleton_append, parseArgs.eq_def]
      simp only [throwIf_except, Item.strings, Item.spelling, Fit, and_true]
      cases mem n "-h".toList.length <;> rfl
    · rw [Item.spelling, List.singleton_append, parseArgs.eq_def]
      simp only [throwIf_except, Item.strings, Item.spelling, Fit, and_true]
      cases mem n "--help".toList.length <;> rfl
  | version =>
    rw [Item.spelling, List.singleton_append, parseArgs.eq_def]
    simp only [throwIf_except, Item.strings, Item.spelling, Fit, and_true]
    cases mem n "--version".toList.length <;> rfl
  | value o v =>
    rw [Item.spelling, List.cons_append, List.singleton_append, parseArgs.eq_def]
    simp only [throwIf_except, if_neg o.name_ne.1, if_neg o.name_ne.2, o.named_name, Item.strings, Item.spelling, Fit,
      and_true]
    cases mem n o.name.length <;> cases mem (n + 1) v.length <;> rfl
  | word t =>
    obtain ⟨hd, hc⟩ := h
    obtain ⟨hnamed, hhelp, hversion, hkey⟩ := named_plain hd
    rw [Item.spelling, List.singleton_append, parseArgs.eq_def]
    simp only [throwIf_except, if_neg hhelp, if_neg hversion, hnamed, if_neg hkey, if_neg hd, if_pos hc, Item.strings,
      Fit, and_true]
    cases mem n t.length <;> cases mem (n + 1) t.length <;> rfl

/-- What `ParseArgs` complains of, if it has memory to look at it. -/
theorem parseArgs_offends {ws : List Text} (hws : (∃ t ∈ ws, t ≠ []) ↔ line.command ≠ []) (h : Offends ws c argv) :
    parseArgs mem n argv line = if Fit mem n (argv.take 1) then .ok (.error c) else .error .badAlloc := by
  have fit (arg : Text) (rest : List Text) : Fit mem n ((arg :: rest).take 1) ↔ mem n arg.length = true := by simp [Fit]
  cases h with
  | requiresValue o =>
    rw [parseArgs.eq_def]
    simp only [throwIf_except, if_neg o.name_ne.1, if_neg o.name_ne.2, o.named_name, fit]
    cases mem n o.name.length <;> rfl
  | keyNotSupported rest =>
    rw [parseArgs.eq_def]
    simp only [throwIf_except, fit]
    cases mem n "--key".toList.length <;> rfl
  | unknownOption arg rest hd hn hf =>
    simp only [List.mem_cons, List.not_mem_nil, or_false, not_or] at hf
    obtain ⟨hh, hhelp, hversion, hkey⟩ := hf
    rw [parseArgs.eq_def]
    simp only [throwIf_except, if_neg (not_or.mpr ⟨hh, hhelp⟩), if_neg hversion, Opt.named_eq_none.mpr hn, if_neg hkey,
      if_pos hd, fit]
    cases mem n arg.length <;> rfl
  | unexpectedArgument arg rest hd hc =>
    obtain ⟨hnamed, hhelp, hversion, hkey⟩ := named_plain hd
    rw [parseArgs.eq_def]
    simp only [throwIf_except, if_neg hhelp, if_neg hversion, hnamed, if_neg hkey, if_neg hd, if_neg (hws.mp hc), fit]
    cases mem n arg.length <;> rfl

/-- An argument begins a part that may come next, or offends. -/
theorem item_or_offends (line : CommandLine) {ws : List Text} (hws : (∃ t ∈ ws, t ≠ []) ↔ line.command ≠ []) (arg : Text)
    (rest : List Text) : (∃ (it : Item) (rest' : List Text), arg :: rest = it.spelling ++ rest' ∧ it.Fits line) ∨
      ∃ c, Offends ws c (arg :: rest) := by
  rcases hn : Opt.named arg with _ | o
  swap
  · obtain rfl := Opt.named_eq_some.mp hn
    cases rest with
    | nil => exact .inr ⟨_, .requiresValue o⟩
    | cons v rest => exact .inl ⟨.value o v, rest, rfl, trivial⟩
  by_cases hhelp : arg = "-h".toList
  · exact .inl ⟨.help false, rest, by rw [hhelp]; rfl, trivial⟩
  by_cases hlong : arg = "--help".toList
  · exact .inl ⟨.help true, rest, by rw [hlong]; rfl, trivial⟩
  by_cases hversion : arg = "--version".toList
  · exact .inl ⟨.version, rest, by rw [hversion]; rfl, trivial⟩
  by_cases hkey : arg = "--key".toList
  · exact .inr ⟨_, hkey ▸ Offends.keyNotSupported rest⟩
  by_cases hd : arg.head? = some '-'
  · exact .inr ⟨_, .unknownOption arg rest hd (Opt.named_eq_none.mp hn) (by simp_all)⟩
  by_cases hc : line.command = []
  · exact .inl ⟨.word arg, rest, rfl, hd, hc⟩
  · exact .inr ⟨_, .unexpectedArgument arg rest hd (hws.mpr hc)⟩

/-! ### The whole command line -/

/-- What is parsed of the parts. -/
def parsed (items : List Item) : CommandLine := items.foldl Item.apply {}

theorem parsed_snoc (items : List Item) (it : Item) : parsed (items ++ [it]) = it.apply (parsed items) :=
  List.foldl_append ..

theorem words_snoc (items : List Item) (it : Item) : words (items ++ [it]) = words items ++ it.word?.toList := by
  rw [words, List.filterMap_append, words]
  cases h : it.word? <;> simp [h]

theorem values_snoc (o : Opt) (items : List Item) (it : Item) :
    values o (items ++ [it]) = values o items ++ (it.value? o).toList := by
  rw [values, List.filterMap_append, values]
  cases h : it.value? o <;> simp [h]

/-- By induction on the parts, from the last one. -/
theorem says_parsed (items : List Item) : Says items (parsed items) := by
  induction items using List.reverseRecOn with
  | nil => exact ⟨rfl, fun o => (by cases o <;> rfl), by simp [parsed], by simp [parsed]⟩
  | append_singleton items it ih =>
    rw [parsed_snoc]
    refine ⟨?_, fun o => ?_, ?_, ?_⟩
    · rw [words_snoc]
      cases it <;> simp [Item.apply, Item.word?, ih.command]
    · rw [values_snoc]
      cases it with
      | value p v =>
        rw [Item.apply, Args.get_set, Item.value?]
        by_cases hp : p = o
        · simp [hp]
        · rw [if_neg (Ne.symm hp), if_neg hp]
          simpa using ih.value o
      | _ => simpa [Item.apply, Item.value?] using ih.value o
    · cases it <;> simp [Item.apply, ih.help]
    · cases it <;> simp [Item.apply, ih.version]

theorem Says.unique {line line' : CommandLine} (h : Says items line) (h' : Says items line') : line = line' := by
  obtain ⟨command, args, help, version⟩ := line
  obtain ⟨command', args', help', version'⟩ := line'
  rw [CommandLine.mk.injEq]
  exact ⟨h.command.trans h'.command.symm, Args.ext_get fun o => (h.value o).trans (h'.value o).symm,
    Bool.eq_iff_iff.mpr (h.help.trans h'.help.symm), Bool.eq_iff_iff.mpr (h.version.trans h'.version.symm)⟩

/-- There is a command as soon as a word is not empty. -/
theorem Grammar.command_ne (hg : Grammar items) : (∃ t ∈ words items, t ≠ []) ↔ (parsed items).command ≠ [] := by
  rw [(says_parsed items).command]
  have hsingle := hg.single
  rcases List.eq_nil_or_concat (words items) with hw | ⟨ws, t, hw⟩
  · simp [hw]
  · rw [hw, List.concat_eq_append, List.dropLast_concat] at hsingle
    rw [hw, List.concat_eq_append, List.getLast?_concat, Option.getD_some]
    constructor
    · rintro ⟨u, hu, hne⟩
      rcases List.mem_append.mp hu with hu | hu
      · exact absurd (hsingle u hu) hne
      · exact List.mem_singleton.mp hu ▸ hne
    · exact fun hne => ⟨t, List.mem_append_right _ (List.mem_singleton_self t), hne⟩

/-- The parts of a command line may be followed by what fits behind them, and by nothing else. -/
theorem grammar_snoc : Grammar (items ++ [it]) ↔ Grammar items ∧ it.Fits (parsed items) := by
  have hempty (hg : Grammar items) : (parsed items).command = [] ↔ ∀ t ∈ words items, t = [] := by
    have := hg.command_ne
    grind
  have hw := words_snoc items it
  rcases hword : it.word? with _ | t <;> rw [hword] at hw
  · have hfits : it.Fits (parsed items) := by
      cases it
      case word => cases hword
      all_goals trivial
    rw [Option.toList_none, List.append_nil] at hw
    exact ⟨fun hg => ⟨⟨hw ▸ hg.plain, hw ▸ hg.single⟩, hfits⟩, fun h => ⟨hw.symm ▸ h.1.plain, hw.symm ▸ h.1.single⟩⟩
  · obtain rfl : it = .word t := by cases it <;> cases hword; rfl
    rw [Option.toList_some] at hw
    constructor
    · rintro ⟨hp, hs⟩
      rw [hw] at hp hs
      rw [List.dropLast_concat] at hs
      have hg : Grammar items :=
        ⟨fun u hu => hp u (List.mem_append_left _ hu), fun u hu => hs u (List.dropLast_subset _ hu)⟩
      exact ⟨hg, hp t (List.mem_append_right _ (List.mem_singleton_self t)), (hempty hg).mpr hs⟩
    · rintro ⟨hg, hd, hc⟩
      refine ⟨fun u hu => ?_, ?_⟩
      · rw [hw] at hu
        rcases List.mem_append.mp hu with hu | hu
        · exact hg.plain u hu
        · exact List.mem_singleton.mp hu ▸ hd
      · rw [hw, List.dropLast_concat]
        exact (hempty hg).mp hc

/-- The arguments that the parts are spelled with. -/
def spelled (items : List Item) : List Text := items.flatMap Item.spelling

theorem spelled_snoc (items : List Item) (it : Item) : spelled (items ++ [it]) = spelled items ++ it.spelling := by
  simp [spelled]

/-- The strings that are made of the parts. -/
def copied (items : List Item) : List Text := items.flatMap Item.strings

theorem copied_snoc (items : List Item) (it : Item) : copied (items ++ [it]) = copied items ++ it.strings := by
  simp [copied]

/-- `ParseArgs` takes the parts of a command line, one after the other. By induction on them, from the last one. -/
theorem parseArgs_items (hg : Grammar items) (rest : List Text) : parseArgs mem 0 (spelled items ++ rest) {} =
    if Fit mem 0 (copied items) then parseArgs mem (copied items).length rest (parsed items) else .error .badAlloc := by
  induction items using List.reverseRecOn generalizing rest with
  | nil => rfl
  | append_singleton items it ih =>
    obtain ⟨hg', hfits⟩ := grammar_snoc.mp hg
    rw [spelled_snoc, List.append_assoc, ih hg', parseArgs_item hfits, parsed_snoc, copied_snoc, List.length_append]
    simp only [fit_append, Nat.zero_add]
    by_cases h1 : Fit mem 0 (copied items) <;> by_cases h2 : Fit mem (copied items).length it.strings <;> simp [h1, h2]

/-- **Every command line is one that is accepted, or has one in front of an argument that offends.** By induction on the
number of arguments that are left. -/
theorem grammar_or_offends (argv : List Text) (hg : Grammar items) : ∃ items' rest, Grammar items' ∧
    spelled items ++ argv = spelled items' ++ rest ∧ (rest = [] ∨ ∃ c, Offends (words items') c rest) := by
  induction hn : argv.length using Nat.strong_induction_on generalizing argv items with
  | _ n ih =>
    rcases argv with _ | ⟨arg, rest⟩
    · exact ⟨items, [], hg, rfl, .inl rfl⟩
    rcases item_or_offends (parsed items) hg.command_ne arg rest with ⟨it, rest', he, hfits⟩ | ⟨c, hc⟩
    swap
    · exact ⟨items, _, hg, rfl, .inr ⟨c, hc⟩⟩
    have hpos : 0 < it.spelling.length := by rcases it with (_ | _) | _ | _ | _ <;> exact Nat.succ_pos _
    have hlen := congrArg List.length he
    rw [hn, List.length_append] at hlen
    obtain ⟨items', rest2, hg', hs, hrest⟩ := ih rest'.length (by omega) rest' (grammar_snoc.mpr ⟨hg, hfits⟩) rfl
    refine ⟨items', rest2, hg', ?_, hrest⟩
    rw [he, ← List.append_assoc, ← spelled_snoc, hs]

theorem parseArgs_accepts (mem : ℕ → ℕ → Bool) (hg : Grammar items) : parseArgs mem 0 (spelled items) {} =
    if Fit mem 0 (copied items) then .ok (.ok (parsed items)) else .error .badAlloc := by
  have h := @parseArgs_items mem items hg []
  rwa [List.append_nil] at h

theorem parseArgs_complains (mem : ℕ → ℕ → Bool) (hg : Grammar items) (hc : Offends (words items) c rest) :
    parseArgs mem 0 (spelled items ++ rest) {} =
      if Fit mem 0 (copied items ++ rest.take 1) then .ok (.error c) else .error .badAlloc := by
  rw [parseArgs_items hg, parseArgs_offends hg.command_ne hc]
  simp only [fit_append, Nat.zero_add]
  by_cases h1 : Fit mem 0 (copied items) <;> by_cases h2 : Fit mem (copied items).length (rest.take 1) <;> simp [h1, h2]

/-- What `ParseArgs` throws, and where memory lacks then: for a string of the parts that are accepted, or of the argument
that offends. -/
theorem parseArgs_throws {argv : List Text} {e : Stop} : parseArgs mem 0 argv {} = .error e ↔
    e = .badAlloc ∧ ∃ items rest, Grammar items ∧ argv = spelled items ++ rest ∧
      (rest = [] ∨ ∃ c, Offends (words items) c rest) ∧ ¬ Fit mem 0 (copied items ++ rest.take 1) := by
  constructor
  · intro h
    obtain ⟨items, rest, hg, hargv, hrest⟩ := @grammar_or_offends [] argv ⟨by simp [words], by simp [words]⟩
    replace hargv : argv = spelled items ++ rest := hargv
    suffices hthrown : e = .badAlloc ∧ ¬ Fit mem 0 (copied items ++ rest.take 1) from
      ⟨hthrown.1, items, rest, hg, hargv, hrest, hthrown.2⟩
    rw [hargv] at h
    rcases hrest with rfl | ⟨c, hc⟩
    · rw [List.append_nil, parseArgs_accepts mem hg] at h
      rw [List.take_nil, List.append_nil]
      split at h <;> cases h
      exact ⟨rfl, ‹_›⟩
    · rw [parseArgs_complains mem hg hc] at h
      split at h <;> cases h
      exact ⟨rfl, ‹_›⟩
  · rintro ⟨rfl, items, rest, hg, rfl, rfl | ⟨c, hc⟩, hfit⟩
    · rw [List.take_nil, List.append_nil] at hfit
      rw [List.append_nil, parseArgs_accepts mem hg, if_neg hfit]
    · rw [parseArgs_complains mem hg hc, if_neg hfit]

/-- **What `ParseArgs` makes of a command line.** It accepts those that `Grammar` describes, for whose strings there is
memory when they are made; it complains of the first argument that offends; and it throws exactly where memory lacks. -/
theorem parseArgs_iff (mem : ℕ → ℕ → Bool) (argv : List Text) :
    (∀ line, parseArgs mem 0 argv {} = .ok (.ok line) ↔
      ∃ items, Grammar items ∧ argv = spelled items ∧ Says items line ∧ Fit mem 0 (copied items)) ∧
    (∀ c, parseArgs mem 0 argv {} = .ok (.error c) ↔ ∃ items rest, Grammar items ∧ argv = spelled items ++ rest ∧
      Offends (words items) c rest ∧ Fit mem 0 (copied items ++ rest.take 1)) ∧
    ∀ e, parseArgs mem 0 argv {} = .error e ↔ e = .badAlloc ∧ ∃ items rest, Grammar items ∧ argv = spelled items ++ rest ∧
      (rest = [] ∨ ∃ c, Offends (words items) c rest) ∧ ¬ Fit mem 0 (copied items ++ rest.take 1) := by
  obtain ⟨items, rest, hg, he, hrest⟩ := @grammar_or_offends [] argv ⟨by simp [words], by simp [words]⟩
  have hargv : argv = spelled items ++ rest := he
  refine ⟨fun line => ⟨fun h => ?_, ?_⟩, fun c => ⟨fun h => ?_, ?_⟩, fun e => parseArgs_throws⟩
  · rcases hrest with rfl | ⟨c, hc⟩
    · rw [List.append_nil] at hargv
      rw [hargv, parseArgs_accepts mem hg] at h
      split at h <;> cases h
      exact ⟨items, hg, hargv, says_parsed items, ‹_›⟩
    · rw [hargv, parseArgs_complains mem hg hc] at h
      split at h <;> cases h
  · rintro ⟨items', hg', rfl, hs, hfit⟩
    rw [parseArgs_accepts mem hg', if_pos hfit, (says_parsed items').unique hs]
  · rcases hrest with rfl | ⟨c', hc⟩
    · rw [List.append_nil] at hargv
      rw [hargv, parseArgs_accepts mem hg] at h
      split at h <;> cases h
    · rw [hargv, parseArgs_complains mem hg hc] at h
      split at h <;> cases h
      exact ⟨items, rest, hg, hargv, hc, ‹_›⟩
  · rintro ⟨items', rest', hg', rfl, hc', hfit⟩
    rw [parseArgs_complains mem hg' hc', if_pos hfit]

/-- Of two values of one option the last one counts, and the command may stand between them. -/
example : parseArgs (fun _ _ => true) 0 ["--in".toList, "a".toList, "inspect".toList, "--in".toList, "b".toList] {} =
    .ok (.ok { command := "inspect".toList, args := ⟨"b".toList, [], [], [], [], [], [], [], []⟩ }) := rfl

end Parsing

end ModelCrypt.Cli
