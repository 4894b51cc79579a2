/-
# A key is what its source holds

`Took` says what a source gives `LoadKey`: a message, or a key, in each of the
cases there are. `LoadKey` then refuses a short key (`judged`). It takes a whole
key and refuses none that fits, except where `Whole` fails: a read that ends
early, a line ending that is counted, and a NUL that is typed
(`loadKey_whole_iff`). A file with a newline at the end and one without hold the
same key, unless the key ends in a carriage return or leaves no room for the
newline (`key_file_newline_iff`).

Key definitions: `Took`, `judged`, `content`, `Complete`, `Whole`, `Loads`.
Key theorems: `loadKey_returns`, `loadKey_whole_iff`, `key_file_newline_iff`.
-/
import ModelCrypt.KeySources

namespace ModelCrypt.Cli

open Lib Prog Fileio

variable {os : Os} {con : Console} {args : Args} {m m' : Machine} {key key' : KeyBytes} {said : Option Diagnostic}

/-! ### What `LoadKey` returns -/

/-- Where a key is taken from. -/
inductive Source
  | file | env | prompt
  deriving DecidableEq, Repr

/-- The source that the arguments name. -/
def Args.source (args : Args) : Option Source :=
  if args.keyFile ≠ [] then if args.keyEnv ≠ [] then none else some .file
  else if args.keyEnv ≠ [] then some .env
  else some .prompt

/-- What the source gives. -/
inductive Took (os : Os) (con : Console) (args : Args) (key : KeyBytes)
    (m : Machine) : Option Diagnostic × KeyBytes → Prop
  | twoSources (hs : args.source = none) : Took os con args key m (some .twoSources, key)
  | closed (hs : args.source = some .file) (h : opened os m args.keyFile = none) :
      Took os con args key m (some (.cannotOpenKeyFile args.keyFile), key)
  | largeFile (hs : args.source = some .file) {f} (h : opened os m args.keyFile = some f)
      (hx : (fileBytes os m f).length > kMaxKeyFileSize) :
      Took os con args key m (some (.keyFileTooLarge args.keyFile), key)
  | file (hs : args.source = some .file) {f} (h : opened os m args.keyFile = some f)
      (hx : (fileBytes os m f).length ≤ kMaxKeyFileSize) {key'}
      (hf : Filled key (fileBytes os m f) (stripped (fileBytes os m f)) key') : Took os con args key m (none, key')
  | notSet (hs : args.source = some .env) (h : con.getenv args.keyEnv = none) :
      Took os con args key m (some (.notSet args.keyEnv), key)
  | largeEnv (hs : args.source = some .env) {v} (h : con.getenv args.keyEnv = some v)
      (hv : v.bytes.length > kMaxKeyFileSize) : Took os con args key m (some (.holdsTooMuch args.keyEnv), key)
  | env (hs : args.source = some .env) {v} (h : con.getenv args.keyEnv = some v) (hv : v.bytes.length ≤ kMaxKeyFileSize)
      {key'} (hf : Filled key v.bytes v.bytes key') : Took os con args key m (none, key')
  | unasked (hs : args.source = some .prompt) (h : ¬ Asked con m.time) {d}
      (hd : d ∈ [Diagnostic.notATerminal, .noTerminalSettings, .cannotDisableEcho]) :
      Took os con args key m (some d, key)
  | prompt (hs : args.source = some .prompt) (h : Asked con m.time) {r} (hr : Prompted con key r) :
      Took os con args key m r.value

/-- A key that is too short is refused. -/
def judged (r : Option Diagnostic × KeyBytes) : Option Diagnostic × KeyBytes :=
  if r.1 ≠ none then r
  else if r.2.size < mcMinKeySize then (some (.keyTooShort r.2.size), r.2)
  else (none, r.2)

theorem judged_snd (r : Option Diagnostic × KeyBytes) : (judged r).2 = r.2 := by
  unfold judged
  split
  · rfl
  · split <;> rfl

theorem judged_none {r : Option Diagnostic × KeyBytes} :
    (judged r).1 = none ↔ r.1 = none ∧ mcMinKeySize ≤ r.2.size := by
  unfold judged
  by_cases hr : r.1 = none
  · rw [if_neg (not_not.mpr hr)]
    by_cases hlt : r.2.size < mcMinKeySize
    · simp only [if_pos hlt, reduceCtorEq, Nat.not_le.mpr hlt, and_false]
    · simp only [if_neg hlt, hr, Nat.le_of_not_lt hlt, and_true]
  · rw [if_pos hr]
    simp only [hr, false_and]

theorem source_file (hs : args.source = some .file) : args.keyFile ≠ [] ∧ args.keyEnv = [] := by
  unfold Args.source at hs
  split_ifs at hs with hf he he
  · exact ⟨hf, not_not.mp he⟩
  · cases hs
  · cases hs

theorem source_env (hs : args.source = some .env) : args.keyFile = [] ∧ args.keyEnv ≠ [] := by
  unfold Args.source at hs
  split_ifs at hs with hf he he
  · cases hs
  · exact ⟨not_not.mp hf, he⟩
  · cases hs

theorem source_prompt (hs : args.source = some .prompt) : args.keyFile = [] ∧ args.keyEnv = [] := by
  unfold Args.source at hs
  split_ifs at hs with hf he he
  · cases hs
  · cases hs
  · exact ⟨not_not.mp hf, not_not.mp he⟩

theorem source_none (hs : args.source = none) : args.keyFile ≠ [] ∧ args.keyEnv ≠ [] := by
  unfold Args.source at hs
  split_ifs at hs with hf he
  exact ⟨hf, he⟩

/-- What `LoadKey` does once its source has returned. -/
theorem judged_steps (r : Option Diagnostic × KeyBytes) (m : Machine) :
    Steps (if r.1 ≠ none then return (r.1, r.2)
      else if r.2.size < mcMinKeySize then return (some (.keyTooShort r.2.size), r.2) else return (none, r.2) : Sys _)
      m 0 (.ok (judged r)) m := by
  unfold judged
  split
  · exact Steps.of_eq fun _ => rfl
  · split <;> exact Steps.of_eq fun _ => rfl

theorem loadKey_file {r} (hs : args.source = some .file)
    (h : Returns (readKeyFile os con args.keyFile key) m (.ok r) m') :
    Returns (loadKey os con args key) m (.ok (judged r.value)) m' := by
  obtain ⟨hf, he⟩ := source_file hs
  obtain ⟨c, h⟩ := h
  refine ⟨c + 0, ?_⟩
  rw [loadKey, if_neg (fun hb => hb.2 he), if_pos hf]
  exact h.bind (Steps.after (fun _ => rfl) (judged_steps r.value m'))

theorem loadKey_env {r} (hs : args.source = some .env)
    (h : Returns (readKeyEnv con args.keyEnv key) m (.ok r) m') :
    Returns (loadKey os con args key) m (.ok (judged r)) m' := by
  obtain ⟨hf, he⟩ := source_env hs
  obtain ⟨c, h⟩ := h
  refine ⟨c + 0, ?_⟩
  rw [loadKey, if_neg (fun hb => hb.1 hf), if_neg (not_not.mpr hf), if_pos he]
  exact h.bind (judged_steps r m')

theorem loadKey_prompt {r} (hs : args.source = some .prompt)
    (h : Returns (readKeyPrompt con key) m (.ok r) m') :
    Returns (loadKey os con args key) m (.ok (judged r.value)) m' := by
  obtain ⟨hf, he⟩ := source_prompt hs
  obtain ⟨c, h⟩ := h
  refine ⟨c + 0, ?_⟩
  rw [loadKey, if_neg (fun hb => hb.1 hf), if_neg (not_not.mpr hf), if_neg (not_not.mpr he)]
  exact h.bind (Steps.after (fun _ => rfl) (judged_steps r.value m'))

/-- **`LoadKey` returns**, and what it returns is what the source gave, unless that is too short. -/
theorem loadKey_returns (os : Os) (con : Console) (args : Args) (hkey : key.block.length = kMaxKeyFileSize)
    (m : Machine) :
    ∃ r m', Returns (loadKey os con args key) m (.ok (judged r)) m' ∧ m'.st = m.st ∧ m'.disk = m.disk ∧
      Took os con args key m r := by
  rcases hs : args.source with _ | _ | _ | _
  · obtain ⟨hf, he⟩ := source_none hs
    refine ⟨_, m, ⟨0, Steps.of_eq fun _ => ?_⟩, rfl, rfl, .twoSources hs⟩
    rw [loadKey, if_pos ⟨hf, he⟩]
    rfl
  · rcases ho : opened os m args.keyFile with _ | f
    · obtain ⟨m', h, hst, hdisk⟩ := readKeyFile_closed con key ho
      exact ⟨_, m', loadKey_file hs h, hst, hdisk, .closed hs ho⟩
    · obtain ⟨r, m', h, hst, hdisk, ⟨hx, rfl⟩ | ⟨hx, key', hf, rfl⟩⟩ := readKeyFile_opened con hkey ho
      · exact ⟨_, m', loadKey_file hs h, hst, hdisk, .largeFile hs ho hx⟩
      · exact ⟨_, m', loadKey_file hs h, hst, hdisk, .file hs ho hx hf⟩
  · rcases hv : con.getenv args.keyEnv with _ | v
    · refine ⟨_, m, loadKey_env hs ⟨0, Steps.of_eq fun _ => ?_⟩, rfl, rfl, .notSet hs hv⟩
      rw [readKeyEnv, hv]
      rfl
    · by_cases hlen : v.bytes.length > kMaxKeyFileSize
      · refine ⟨_, m, loadKey_env hs ⟨0, Steps.of_eq fun _ => ?_⟩, rfl, rfl, .largeEnv hs hv hlen⟩
        rw [readKeyEnv, hv]
        dsimp only
        rw [if_pos hlen]
        rfl
      · have hle : v.bytes.length ≤ kMaxKeyFileSize := Nat.le_of_not_lt hlen
        obtain ⟨key', hf, hassign⟩ := assign_filled con (hkey ▸ hle)
        refine ⟨_, m, loadKey_env hs ⟨0, Steps.of_eq fun _ => ?_⟩, rfl, rfl, .env hs hv hle hf⟩
        rw [readKeyEnv, hv]
        dsimp only
        rw [if_neg hlen, bind_ok (hassign _)]
        rfl
  · by_cases ha : Asked con m.time
    · obtain ⟨r, m', h, hst, hdisk, hr⟩ := readKeyPrompt_asked hkey ha
      exact ⟨_, m', loadKey_prompt hs h, hst, hdisk, .prompt hs ha hr⟩
    · obtain ⟨d, m', h, hst, hdisk, hd⟩ := readKeyPrompt_unasked con key ha
      exact ⟨_, m', loadKey_prompt hs h, hst, hdisk, .unasked hs ha hd⟩

theorem reserved_length (con : Console) : (KeyBytes.reserved con).block.length = kMaxKeyFileSize := byteVec_length _

/-- What a call of `LoadKey` with a new vector returned. -/
theorem loadKey_took (h : Returns (loadKey os con args (KeyBytes.reserved con)) m (.ok (said, key')) m') :
    ∃ r, judged r = (said, key') ∧ Took os con args (KeyBytes.reserved con) m r := by
  obtain ⟨r, m1, hr, -, -, ht⟩ := loadKey_returns os con args (reserved_length con) m
  exact ⟨r, Except.ok.inj (hr.unique h), ht⟩

/-- `LoadKey` returns true, with a key. -/
def Loads (os : Os) (con : Console) (args : Args) (m : Machine) (k : Bytes) : Prop :=
  ∃ key m', Returns (loadKey os con args (KeyBytes.reserved con)) m (.ok (none, key)) m' ∧ key.bytes = k

/-- What is loaded from a file is what arrived, without a line ending. -/
theorem loads_file {f k : Bytes} (hs : args.source = some .file) (h : opened os m args.keyFile = some f) :
    Loads os con args m k ↔ (fileBytes os m f).length ≤ kMaxKeyFileSize ∧
      mcMinKeySize ≤ (stripped (fileBytes os m f)).length ∧ k = stripped (fileBytes os m f) := by
  obtain ⟨r, m', hret, -, -, ⟨hx, rfl⟩ | ⟨hx, key, hf, rfl⟩⟩ := readKeyFile_opened con (reserved_length con) h
  · refine iff_of_false ?_ fun hle => absurd hx (Nat.not_lt.mpr hle.1)
    rintro ⟨key, m1, hload, -⟩
    cases (loadKey_file hs hret).unique hload
  · have hload := loadKey_file hs hret
    constructor
    · rintro ⟨key', m1, hload', rfl⟩
      have heq := Except.ok.inj (hload.unique hload')
      have hsize := (judged_none.mp (congrArg Prod.fst heq)).2
      have hkey : key = key' := (judged_snd _).symm.trans (congrArg Prod.snd heq)
      rw [← hkey, ← hf.bytes, key.bytes_length]
      exact ⟨hx, hsize, rfl⟩
    · rintro ⟨-, hmin, rfl⟩
      rw [← hf.bytes, key.bytes_length] at hmin
      have hj : judged (none, key) = (none, key) := by
        rw [judged, if_neg (not_not.mpr rfl), if_neg (Nat.not_lt.mpr hmin)]
      rw [hj] at hload
      exact ⟨key, m', hload, hf.bytes⟩

/-! ### No key is cut -/

/-- All that the source holds. -/
inductive Content (os : Os) (con : Console) (args : Args) (m : Machine) : Bytes → Prop
  | file (hs : args.source = some .file) {f} (h : opened os m args.keyFile = some f) : Content os con args m f
  | env (hs : args.source = some .env) {v} (h : con.getenv args.keyEnv = some v) : Content os con args m v.bytes
  | prompt (hs : args.source = some .prompt) (h : Asked con m.time) : Content os con args m (firstLine con.typed)

/-- The content is the key and at most one line ending. -/
def Complete (c k : Bytes) : Prop := c = k ∨ c = k ++ [newline] ∨ c = k ++ [carriageReturn, newline]

/-- The messages that a key is too long. -/
def Diagnostic.tooLong : Diagnostic → Bool
  | .keyFileTooLarge _ => true
  | .holdsTooMuch _ => true
  | .keyTooLong => true
  | _ => false

/-- A key that is returned is complete, and none is called too long that is within the limits. -/
structure NotCut (os : Os) (con : Console) (args : Args) (m : Machine) (said : Option Diagnostic)
    (key : KeyBytes) : Prop where
  complete : said = none → ∃ c, Content os con args m c ∧ Complete c key.bytes
  fits : ∀ c k, Content os con args m c → Complete c k → mcMinKeySize ≤ k.length → k.length ≤ kMaxKeyFileSize →
    ∀ d, said = some d → d.tooLong = false

/-- When no key is cut: what arrives of a file is all of it, or all but the line ending; a line ending is not what
makes the content too large; and no NUL is typed after enough bytes for a key. -/
structure Whole (os : Os) (con : Console) (args : Args) (m : Machine) : Prop where
  file : args.source = some .file → ∀ f, opened os m args.keyFile = some f →
    if (fileBytes os m f).length > kMaxKeyFileSize then (stripped f).length > kMaxKeyFileSize
    else (stripped (fileBytes os m f)).length < mcMinKeySize ∨ f = fileBytes os m f ∨
      (fileBytes os m f).getLast? ≠ some newline ∧ Complete f (fileBytes os m f)
  env : args.source = some .env → ∀ v, con.getenv args.keyEnv = some v → v.bytes.length > kMaxKeyFileSize →
    (stripped v.bytes).length > kMaxKeyFileSize
  prompt : args.source = some .prompt → Asked con m.time → ¬ Unread con →
    (Overlong con → (stripped (firstLine con.typed)).length > kMaxKeyFileSize) ∧
      (0 ∈ line con → (typedKey con).length < mcMinKeySize)

section Whole

variable {c k x f : Bytes} {d : Diagnostic}

theorem Content.unique (h : Content os con args m c) (h' : Content os con args m k) : c = k := by
  rcases h with ⟨hs, h⟩ | ⟨hs, h⟩ | ⟨hs, h⟩ <;> rcases h' with ⟨hs', h'⟩ | ⟨hs', h'⟩ | ⟨hs', h'⟩ <;>
    cases hs.symm.trans hs'
  · exact Option.some.inj (h.symm.trans h')
  · exact congrArg _ (Option.some.inj (h.symm.trans h'))
  · rfl

theorem stripped_of_ne (h : x.getLast? ≠ some newline) : stripped x = x := if_neg h

theorem stripped_newline (x : Bytes) :
    stripped (x ++ [newline]) = if x.getLast? = some carriageReturn then x.dropLast else x := by
  rw [stripped, if_pos (by simp), List.dropLast_concat]

theorem complete_stripped (c : Bytes) : Complete c (stripped c) := by
  by_cases hn : c.getLast? = some newline
  swap
  · exact .inl (stripped_of_ne hn).symm
  obtain ⟨y, rfl⟩ := List.getLast?_eq_some_iff.mp hn
  rw [stripped_newline]
  split
  · rename_i hr
    obtain ⟨z, rfl⟩ := List.getLast?_eq_some_iff.mp hr
    rw [List.dropLast_concat]
    exact .inr (.inr (List.append_assoc z [carriageReturn] [newline]))
  · exact .inr (.inl rfl)

/-- No more than a line ending is removed. -/
theorem Complete.length (h : Complete c k) : k.length ≤ c.length ∧ c.length ≤ k.length + 2 := by
  rcases h with rfl | rfl | rfl
  · omega
  · rw [List.length_append, List.length_singleton]
    omega
  · rw [List.length_append, List.length_cons, List.length_singleton]
    omega

/-- As much is removed as can be. -/
theorem Complete.stripped_le (h : Complete c k) : (stripped c).length ≤ k.length := by
  rcases h with rfl | rfl | rfl
  · exact (complete_stripped c).length.1
  · rw [stripped_newline]
    split
    · rw [List.length_dropLast]
      exact Nat.sub_le ..
    · exact le_refl _
  · rw [show k ++ [carriageReturn, newline] = (k ++ [carriageReturn]) ++ [newline] by simp, stripped_newline,
      if_pos (by simp), List.dropLast_concat]

/-- A message other than that the key is too long cuts nothing. -/
theorem notCut_said (hd : d.tooLong = false) : NotCut os con args m (some d) key :=
  ⟨fun h => (by cases h), fun _ _ _ _ _ _ _ h => Option.some.inj h ▸ hd⟩

theorem notCut_tooLong (hc : Content os con args m c) (hl : kMaxKeyFileSize ≤ c.length) (hd : d.tooLong = true) :
    NotCut os con args m (some d) key ↔ (stripped c).length > kMaxKeyFileSize := by
  constructor
  · intro h
    by_contra hle
    have hmin : mcMinKeySize ≤ (stripped c).length := by
      have := (complete_stripped c).length.2
      have : mcMinKeySize + 2 ≤ kMaxKeyFileSize := by decide
      omega
    have := h.fits c _ hc (complete_stripped c) hmin (Nat.le_of_not_lt hle) d rfl
    rw [hd] at this
    cases this
  · intro hlong
    refine ⟨fun h => (by cases h), fun c' k hc' hk _ hmax => ?_⟩
    cases hc.unique hc'
    have := hk.stripped_le
    omega

/-- A key that a source returned is cut, or it is refused as too short. -/
theorem notCut_judged (hc : Content os con args m c) :
    NotCut os con args m (judged (none, key)).1 (judged (none, key)).2 ↔
      key.bytes.length < mcMinKeySize ∨ Complete c key.bytes := by
  rw [key.bytes_length, judged_snd]
  by_cases hshort : key.size < mcMinKeySize
  · rw [judged, if_neg (not_not.mpr rfl), if_pos hshort]
    exact iff_of_true (notCut_said rfl) (.inl hshort)
  · rw [judged_none.mpr ⟨rfl, Nat.le_of_not_lt hshort⟩]
    constructor
    · intro h
      obtain ⟨c', hc', hk⟩ := h.complete rfl
      cases hc.unique hc'
      exact .inr hk
    · intro h
      exact ⟨fun _ => ⟨c, hc, h.resolve_left hshort⟩, fun _ _ _ _ _ _ _ hd => (by cases hd)⟩

/-- What arrives of a file is as good as all of it, or the key that is made of it is cut. -/
theorem complete_arrived (hx : x <+: f) :
    Complete f (stripped x) ↔ f = x ∨ x.getLast? ≠ some newline ∧ Complete f x := by
  constructor
  · intro h
    by_cases hn : x.getLast? = some newline
    · refine .inl (hx.eq_of_length_le ?_).symm
      obtain ⟨y, rfl⟩ := List.getLast?_eq_some_iff.mp hn
      rw [stripped_newline] at h
      split at h
      · rename_i hr
        obtain ⟨z, rfl⟩ := List.getLast?_eq_some_iff.mp hr
        have := h.length.2
        rw [List.dropLast_concat] at this
        simp only [List.length_append, List.length_singleton] at this ⊢
        omega
      · rcases h with rfl | rfl | rfl
        · rw [List.length_append]
          exact Nat.le_add_right ..
        · exact le_refl _
        · exact absurd ((List.prefix_append_right_inj y).mp hx) (by decide)
    · rw [stripped_of_ne hn] at h
      exact .inr ⟨hn, h⟩
  · rintro (rfl | ⟨hn, h⟩)
    · exact complete_stripped f
    · rwa [stripped_of_ne hn]

/-- A newline is only at the end of a line. -/
theorem newline_end {t : Bytes} (hx : x <+: firstLine t) (hn : newline ∈ x) : x = firstLine t := by
  have hnone : newline ∉ t.takeWhile (· ≠ newline) := fun h => by simpa using List.mem_takeWhile_imp h
  rw [firstLine] at hx ⊢
  by_cases hmem : newline ∈ t
  · rw [if_pos hmem] at hx ⊢
    exact (List.prefix_concat_iff.mp hx).resolve_right fun h => hnone (h.mem hn)
  · rw [if_neg hmem, List.append_nil] at hx
    exact absurd (hx.mem hn) hnone

/-- Without a NUL, the whole line is taken. -/
theorem typedKey_line (h0 : 0 ∉ line con) : typedKey con = line con := by
  rw [typedKey, List.takeWhile_eq_self_iff]
  intro b hb
  exact decide_eq_true fun h : b = 0 => h0 (h ▸ hb)

theorem typedKey_no_nul : 0 ∉ typedKey con := fun h => by simpa using List.mem_takeWhile_imp h

/-- With a NUL, only what is before it. -/
theorem typedKey_nul (h0 : 0 ∈ line con) : ∃ rest, line con = typedKey con ++ 0 :: rest := by
  obtain ⟨x, rest, hx, hnone⟩ := List.eq_append_cons_of_mem h0
  refine ⟨rest, ?_⟩
  have hall : ∀ b ∈ x, decide (b ≠ 0) = true := fun b hb => decide_eq_true fun h => hnone (h ▸ hb)
  rw [typedKey, hx, List.takeWhile_append_of_pos hall, List.takeWhile_cons_of_neg (by simp), List.append_nil]

/-- A line that was read and is not too long is all of the line. -/
theorem line_whole (h : ¬ Overlong con) (h0 : 0 ∉ line con) : line con = firstLine con.typed := by
  by_cases hlen : (firstLine con.typed).length ≤ kMaxKeyFileSize
  · exact List.take_of_length_le hlen
  · have hfull : (line con).length = kMaxKeyFileSize := by
      rw [line, List.length_take]
      omega
    rw [Overlong, typedKey_line h0, not_and, not_not] at h
    exact newline_end (List.take_prefix _ _) (List.mem_of_getLast? (h hfull))

/-- A line with a NUL has no newline before it, so that nothing is removed there. -/
theorem stripped_nul (h0 : 0 ∈ line con) : stripped (typedKey con) = typedKey con := by
  obtain ⟨rest, hline⟩ := typedKey_nul h0
  obtain ⟨more, hmore⟩ : line con <+: firstLine con.typed := List.take_prefix _ _
  rw [hline, List.append_assoc, List.cons_append] at hmore
  refine stripped_of_ne fun h => ?_
  have := newline_end ⟨_, hmore⟩ (List.mem_of_getLast? h)
  rw [this, List.append_right_eq_self] at hmore
  cases hmore

/-- A key that was typed with a NUL is cut. -/
theorem complete_typed (h : ¬ Overlong con) :
    Complete (firstLine con.typed) (stripped (typedKey con)) ↔ 0 ∉ line con := by
  constructor
  · intro hc h0
    obtain ⟨rest, hline⟩ := typedKey_nul h0
    obtain ⟨more, hmore⟩ : line con <+: firstLine con.typed := List.take_prefix _ _
    rw [hline, List.append_assoc, List.cons_append] at hmore
    rw [stripped_nul h0, ← hmore] at hc
    rcases hc with hc | hc | hc
    · cases List.append_right_eq_self.mp hc
    · cases List.append_cancel_left hc
    · cases List.append_cancel_left hc
  · intro h0
    rw [typedKey_line h0, line_whole h h0]
    exact complete_stripped _

theorem arrived_large (hx : (fileBytes os m f).length > kMaxKeyFileSize) : kMaxKeyFileSize ≤ f.length := by
  have := (fileBytes_le os m f).1.length_le
  omega

theorem overlong_large (h : Overlong con) : kMaxKeyFileSize ≤ (firstLine con.typed).length := by
  have hpre : typedKey con <+: firstLine con.typed := (List.takeWhile_prefix _).trans (List.take_prefix _ _)
  exact h.1 ▸ hpre.length_le

theorem typed_short (h : ¬ Overlong con) :
    (stripped (typedKey con)).length < mcMinKeySize ∨ Complete (firstLine con.typed) (stripped (typedKey con)) ↔
      (0 ∈ line con → (typedKey con).length < mcMinKeySize) := by
  rw [complete_typed h]
  by_cases h0 : 0 ∈ line con
  · rw [stripped_nul h0]
    tauto
  · tauto

theorem whole_file (hs : args.source = some .file) (h : opened os m args.keyFile = some f) :
    Whole os con args m ↔
      if (fileBytes os m f).length > kMaxKeyFileSize then (stripped f).length > kMaxKeyFileSize
      else (stripped (fileBytes os m f)).length < mcMinKeySize ∨ f = fileBytes os m f ∨
        (fileBytes os m f).getLast? ≠ some newline ∧ Complete f (fileBytes os m f) := by
  refine ⟨fun hw => hw.file hs f h, fun hw => ⟨fun _ f' hf' => ?_, fun hs' => ?_, fun hs' => ?_⟩⟩
  · cases h.symm.trans hf'
    exact hw
  · cases hs.symm.trans hs'
  · cases hs.symm.trans hs'

theorem whole_env {v : CString} (hs : args.source = some .env) (h : con.getenv args.keyEnv = some v) :
    Whole os con args m ↔ (v.bytes.length > kMaxKeyFileSize → (stripped v.bytes).length > kMaxKeyFileSize) := by
  refine ⟨fun hw => hw.env hs v h, fun hw => ⟨fun hs' => ?_, fun _ v' hv' => ?_, fun hs' => ?_⟩⟩
  · cases hs.symm.trans hs'
  · cases h.symm.trans hv'
    exact hw
  · cases hs.symm.trans hs'

theorem whole_prompt (hs : args.source = some .prompt) (h : Asked con m.time) :
    Whole os con args m ↔ (¬ Unread con → (Overlong con → (stripped (firstLine con.typed)).length > kMaxKeyFileSize) ∧
      (0 ∈ line con → (typedKey con).length < mcMinKeySize)) := by
  refine ⟨fun hw => hw.prompt hs h, fun hw => ⟨fun hs' => ?_, fun hs' => ?_, fun _ _ => hw⟩⟩
  · cases hs.symm.trans hs'
  · cases hs.symm.trans hs'

theorem whole_nothing (h : ∀ c, ¬ Content os con args m c) : Whole os con args m :=
  ⟨fun hs f hf => absurd (.file hs hf) (h f), fun hs v hv => absurd (.env hs hv) (h v.bytes),
    fun hs ha => absurd (.prompt hs ha) (h _)⟩

end Whole

/-- What a source gives is cut exactly where `Whole` fails. One case for each way in which a source can answer. -/
theorem Took.notCut {r} (ht : Took os con args (KeyBytes.reserved con) m r) :
    NotCut os con args m (judged r).1 (judged r).2 ↔ Whole os con args m := by
  rcases ht with hs | ⟨hs, h⟩ | ⟨hs, h, hx⟩ | ⟨hs, h, hx, hf⟩ | ⟨hs, h⟩ | ⟨hs, h, hv⟩ | ⟨hs, h, hv, hf⟩ |
    ⟨hs, h, hd⟩ | ⟨hs, h, hr⟩
  · refine iff_of_true (notCut_said rfl) (whole_nothing ?_)
    rintro c (⟨hs', -⟩ | ⟨hs', -⟩ | ⟨hs', -⟩) <;> cases hs.symm.trans hs'
  · refine iff_of_true (notCut_said rfl) (whole_nothing ?_)
    rintro c (⟨hs', h'⟩ | ⟨hs', -⟩ | ⟨hs', -⟩)
    · cases h.symm.trans h'
    · cases hs.symm.trans hs'
    · cases hs.symm.trans hs'
  · rw [whole_file hs h, if_pos hx]
    exact notCut_tooLong (.file hs h) (arrived_large hx) rfl
  · rw [whole_file hs h, if_neg (Nat.not_lt.mpr hx), notCut_judged (.file hs h), hf.bytes,
      complete_arrived (fileBytes_le os m _).1]
  · refine iff_of_true (notCut_said rfl) (whole_nothing ?_)
    rintro c (⟨hs', -⟩ | ⟨hs', h'⟩ | ⟨hs', -⟩)
    · cases hs.symm.trans hs'
    · cases h.symm.trans h'
    · cases hs.symm.trans hs'
  · rw [whole_env hs h, imp_iff_right hv]
    exact notCut_tooLong (.env hs h) (Nat.le_of_lt hv) rfl
  · rw [whole_env hs h, notCut_judged (.env hs h), hf.bytes]
    exact iff_of_true (.inr (.inl rfl)) fun h => absurd hv (Nat.not_le.mpr h)
  · refine iff_of_true (notCut_said ?_) (whole_nothing ?_)
    · simp only [List.mem_cons, List.not_mem_nil, or_false] at hd
      rcases hd with rfl | rfl | rfl <;> rfl
    · rintro c (⟨hs', -⟩ | ⟨hs', -⟩ | ⟨hs', h'⟩)
      · cases hs.symm.trans hs'
      · cases hs.symm.trans hs'
      · exact h h'
  · rw [whole_prompt hs h]
    rcases hr with hu | ⟨hu, ho⟩ | ⟨hu, ho, hf⟩
    · exact iff_of_true (notCut_said rfl) fun h => absurd hu h
    · rw [imp_iff_right hu, imp_iff_right ho, and_iff_left fun h0 => absurd (typedKey_full ho.1 ▸ h0) typedKey_no_nul]
      exact notCut_tooLong (.prompt hs h) (overlong_large ho) rfl
    · rw [imp_iff_right hu, and_iff_right fun h => absurd h ho, notCut_judged (.prompt hs h), hf.bytes]
      exact typed_short ho

/-- **When no key is cut.** A key that `LoadKey` returns is complete, and none is called too long that is within the
limits, exactly if what arrives of a file is all of it but for the line ending, no content is over the limit only
for its line ending, and no NUL is typed after enough bytes for a key. -/
theorem loadKey_whole_iff (h : Returns (loadKey os con args (KeyBytes.reserved con)) m (.ok (said, key)) m') :
    NotCut os con args m said key ↔ Whole os con args m := by
  obtain ⟨r, hr, ht⟩ := loadKey_took h
  have := ht.notCut
  rwa [hr] at this

/-- A console where everything is answered and nothing is typed. -/
def sampleConsole : Console where
  garbage n := ⟨zeros n, zeros_length n⟩
  vector _ _ := true
  getenv _ := none
  isatty _ := true
  tcgetattrOk _ := true
  tcsetattrOk _ := true
  typed := []
  broken := false

/-- Arguments that name a key file. -/
def sampleArgs : Args := ⟨sampleIn, sampleOut, sampleIn, [], [], [], [], [], []⟩

/-- A call that returns. -/
theorem sample_whole_iff : ∃ said key m',
    Returns (loadKey (sampleOs 0) sampleConsole sampleArgs (KeyBytes.reserved sampleConsole))
      (sampleMachine ⟨zeros 32, 0o600⟩) (.ok (said, key)) m' ∧
    (NotCut (sampleOs 0) sampleConsole sampleArgs (sampleMachine ⟨zeros 32, 0o600⟩) said key ↔
      Whole (sampleOs 0) sampleConsole sampleArgs (sampleMachine ⟨zeros 32, 0o600⟩)) := by
  obtain ⟨r, m', h, -⟩ := loadKey_returns (sampleOs 0) sampleConsole sampleArgs (reserved_length sampleConsole)
    (sampleMachine ⟨zeros 32, 0o600⟩)
  exact ⟨_, _, m', h, loadKey_whole_iff h⟩

/-- The second read fails. -/
def brokenOs : Os := { sampleOs 0 with read := fun t => if t = 1 then .count 16 else .error }

/-- Of a key file of 32 bytes, the 16 that were read before an error are the key. -/
theorem brokenOs_cut : ∃ key m', Returns (loadKey brokenOs sampleConsole sampleArgs (KeyBytes.reserved sampleConsole))
    (sampleMachine ⟨zeros 32, 0o600⟩) (.ok (none, key)) m' ∧ key.bytes = zeros 16 ∧
    ¬ NotCut brokenOs sampleConsole sampleArgs (sampleMachine ⟨zeros 32, 0o600⟩) none key := by
  have harrived : fileBytes brokenOs (sampleMachine ⟨zeros 32, 0o600⟩) (zeros 32) = zeros 16 := by decide
  have hload : Loads brokenOs sampleConsole sampleArgs (sampleMachine ⟨zeros 32, 0o600⟩) (zeros 16) := by
    rw [loads_file (f := zeros 32) (by decide) (by decide), harrived]
    decide
  obtain ⟨key, m', h, hkey⟩ := hload
  refine ⟨key, m', h, hkey, fun hcut => ?_⟩
  obtain ⟨c, hc, hcomplete⟩ := hcut.complete rfl
  rw [hkey, hc.unique (.file (f := zeros 32) (by decide) (by decide))] at hcomplete
  exact absurd hcomplete.length.2 (by decide)

/-! ### A newline at the end -/

section Newline

variable {f k : Bytes}

theorem fileBytes_all (hread : ∀ t, ∃ n, os.read t = .count (n + 1)) :
    fileBytes os m f = f.take (kMaxKeyFileSize + 1) :=
  arriving_all hread _ _ _ _ (le_refl _)

/-- What is loaded from a file that can be read. -/
theorem loads_file_read (hs : args.source = some .file) (hread : ∀ t, ∃ n, os.read t = .count (n + 1))
    (h : opened os m args.keyFile = some f) :
    Loads os con args m k ↔ f.length ≤ kMaxKeyFileSize ∧ mcMinKeySize ≤ (stripped f).length ∧ k = stripped f := by
  rw [loads_file hs h, fileBytes_all hread]
  by_cases hlen : f.length ≤ kMaxKeyFileSize
  · rw [List.take_of_length_le (by omega)]
  · have : (f.take (kMaxKeyFileSize + 1)).length = kMaxKeyFileSize + 1 := List.length_take_of_le (by omega)
    rw [this]
    exact iff_of_false (fun hle => absurd hle.1 (by omega)) fun hle => hlen hle.1

variable {K : Bytes} {m1 m2 m3 : Machine}

theorem stripped_newline_eq (hcr : K ≠ []) : stripped (K ++ [newline]) = K ↔ K.getLast? ≠ some carriageReturn := by
  rw [stripped_newline]
  split
  · rename_i hr
    refine iff_of_false (fun h => ?_) (not_not.mpr hr)
    have := congrArg List.length h
    rw [List.length_dropLast] at this
    have := List.length_pos_of_ne_nil hcr
    omega
  · rename_i hr
    exact iff_of_true rfl hr

/-- Of two newlines one is left. -/
theorem stripped_newlines (K : Bytes) : stripped (K ++ [newline, newline]) = K ++ [newline] := by
  rw [show K ++ [newline, newline] = (K ++ [newline]) ++ [newline] by simp, stripped_newline,
    if_neg (by simp [newline, carriageReturn])]

/-- **When a newline at the end of a key file makes no difference.** A file with the key, one with a newline after it
and one with two are loaded as the key, the key, and the key with one newline, exactly if the key does not end in a
carriage return and there is room for the newline. -/
theorem key_file_newline_iff (os : Os) (con : Console) (args : Args) (K : Bytes) (m1 m2 m3 : Machine)
    (hfile : args.keyFile ≠ []) (henv : args.keyEnv = []) (hread : ∀ t, ∃ n, os.read t = .count (n + 1))
    (hmin : mcMinKeySize ≤ K.length) (hmax : K.length ≤ kMaxKeyFileSize) (hend : K.getLast? ≠ some newline)
    (h1 : opened os m1 args.keyFile = some K) (h2 : opened os m2 args.keyFile = some (K ++ [newline]))
    (h3 : opened os m3 args.keyFile = some (K ++ [newline, newline])) :
    (Loads os con args m1 K ∧ Loads os con args m2 K ∧
      (K.length + 2 ≤ kMaxKeyFileSize → Loads os con args m3 (K ++ [newline]))) ↔
      K.getLast? ≠ some carriageReturn ∧ K.length < kMaxKeyFileSize := by
  have hs : args.source = some .file := by rw [Args.source, if_pos hfile, if_neg (not_not.mpr henv)]
  have hne : K ≠ [] := by
    rintro rfl
    exact absurd hmin (by decide)
  rw [loads_file_read hs hread h1, loads_file_read hs hread h2, loads_file_read hs hread h3, stripped_of_ne hend,
    stripped_newlines, ← stripped_newline_eq hne]
  simp only [List.length_append, List.length_cons, List.length_nil]
  constructor
  · rintro ⟨-, ⟨hle, -, heq⟩, -⟩
    exact ⟨heq.symm, hle⟩
  · rintro ⟨heq, hlt⟩
    rw [heq]
    exact ⟨⟨hmax, hmin, trivial⟩, ⟨hlt, hmin, rfl⟩, fun h => ⟨h, by omega, trivial⟩⟩

/-- A file with 13 bytes, and after them no newline, one, and two. -/
theorem sample_newline_iff :
    (Loads (sampleOs 0) sampleConsole sampleArgs (sampleMachine ⟨zeros 13, 0o600⟩) (zeros 13) ∧
      Loads (sampleOs 0) sampleConsole sampleArgs (sampleMachine ⟨zeros 13 ++ [newline], 0o600⟩) (zeros 13) ∧
      ((zeros 13).length + 2 ≤ kMaxKeyFileSize → Loads (sampleOs 0) sampleConsole sampleArgs
        (sampleMachine ⟨zeros 13 ++ [newline, newline], 0o600⟩) (zeros 13 ++ [newline]))) ↔
      (zeros 13).getLast? ≠ some carriageReturn ∧ (zeros 13).length < kMaxKeyFileSize :=
  key_file_newline_iff _ _ _ _ _ _ _ (by decide) rfl (fun _ => ⟨4095, rfl⟩) (by decide) (by decide) (by decide)
    (by decide) (by decide) (by decide)

/-- A key that ends in a carriage return is loaded without it, if a newline follows; and a key as large as the limit
is too large then. -/
theorem key_file_newline_lost :
    Loads (sampleOs 0) sampleConsole sampleArgs (sampleMachine ⟨zeros 12 ++ [carriageReturn], 0o600⟩)
      (zeros 12 ++ [carriageReturn]) ∧
    Loads (sampleOs 0) sampleConsole sampleArgs (sampleMachine ⟨zeros 12 ++ [carriageReturn, newline], 0o600⟩)
      (zeros 12) ∧
    ¬ Loads (sampleOs 0) sampleConsole sampleArgs (sampleMachine ⟨zeros 12 ++ [carriageReturn, newline], 0o600⟩)
      (zeros 12 ++ [carriageReturn]) ∧
    Loads (sampleOs 0) sampleConsole sampleArgs (sampleMachine ⟨zeros kMaxKeyFileSize, 0o600⟩) (zeros kMaxKeyFileSize) ∧
    ∀ k, ¬ Loads (sampleOs 0) sampleConsole sampleArgs
      (sampleMachine ⟨zeros kMaxKeyFileSize ++ [newline], 0o600⟩) k := by
  have hs : sampleArgs.source = some .file := by decide
  have hread : ∀ t, ∃ n, (sampleOs 0).read t = .count (n + 1) := fun _ => ⟨4095, rfl⟩
  have hopen (x : Bytes) : opened (sampleOs 0) (sampleMachine ⟨x, 0o600⟩) sampleArgs.keyFile = some x := rfl
  have hfull : (zeros kMaxKeyFileSize).getLast? ≠ some newline := fun h => by
    have := List.eq_of_mem_replicate (List.mem_of_getLast? h)
    cases this
  refine ⟨?_, ?_, ?_, ?_, fun k => ?_⟩
  · rw [loads_file_read hs hread (hopen _)]
    decide
  · rw [loads_file_read hs hread (hopen _)]
    decide
  · rw [loads_file_read hs hread (hopen _)]
    decide
  · rw [loads_file_read hs hread (hopen _), stripped_of_ne hfull, zeros_length]
    exact ⟨le_refl _, by decide, rfl⟩
  · rw [loads_file_read hs hread (hopen _), List.length_append, zeros_length]
    exact fun h => absurd h.1 (by decide)

end Newline

end ModelCrypt.Cli
