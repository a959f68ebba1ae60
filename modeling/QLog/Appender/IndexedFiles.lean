import Mathlib

/-!
# The indexed files of an appender

A model of `open_new_indexed_file_by_name`. The names of the files of an appender consist of the
configured name, the day by the clock of the computer, an index and an extension. The index of a new file
is one above the highest index that the directory shows for this day; without a file open before, the file
with the highest index is taken up again. A file is identified by a number that no other file ever has, so
that a name that is removed and used again means another file.

The file system and the clock are the parameter `Opening` of a call. `openNewIndexedFileByName_spec` says
that the loop ends and which file it leaves open.
-/

namespace QLog.Appender

/-- What the configuration says about the files. -/
structure FileConfig where
  fileName : List Char
  extName : List Char
  alwaysCreateNewFile : Bool
  maxFileSize : ℕ
  enableRollingLogFile : Bool

/-- The names in the directory of the log and the files they stand for. -/
structure Directory where
  entries : List (List Char × ℕ)
  next : ℕ
  lt_next : ∀ e ∈ entries, e.2 < next

/-- A directory without files. -/
def Directory.empty : Directory := ⟨[], 0, by simp⟩

/-- What a call meets: the day in `time_str_buf`, the names that `clear_all_expired_files` and
`clear_all_limit_files` leave, the names that can be opened, the sizes of the files, and whether
`parse_exist_log_file` accepts them. -/
structure Opening where
  timeStr : List Char
  keeps : List Char → Bool
  opens : List Char → Bool
  size : List Char → ℕ
  parses : List Char → Bool

/-- A call that meets nothing unusual. -/
def Opening.plain : Opening := ⟨['_'], fun _ => true, fun _ => true, fun _ => 0, fun _ => true⟩

/-- `is_file_oversize`. -/
def isFileOversize (cfg : FileConfig) (currentFileSize : ℕ) : Bool :=
  0 < cfg.maxFileSize && cfg.maxFileSize ≤ currentFileSize

/-- `isspace`. -/
def isSpace (c : Char) : Bool := c.toNat == 32 || (9 ≤ c.toNat && c.toNat ≤ 13)

/-- `atoi`. -/
def atoi (s : List Char) : ℤ :=
  let digits := fun s : List Char => (Nat.ofDigitChars 10 (s.takeWhile Char.isDigit) 0 : ℤ)
  match s.dropWhile isSpace with
  | '-' :: s => -digits s
  | '+' :: s => digits s
  | s => digits s

/-- The index of a file name with this stem and the extension. -/
def fileIndex (cfg : FileConfig) (stem name : List Char) : ℤ :=
  let idxStr := name.drop stem.length
  atoi (idxStr.take (idxStr.length - cfg.extName.length))

/-- A turn of the search for the highest index. -/
def maxIndexTurn (cfg : FileConfig) (stem : List Char) (maxIndex : ℕ) (name : List Char) : ℕ :=
  if stem <+: name ∧ cfg.extName <:+ name then
    let idx := fileIndex cfg stem name
    if idx ≠ 0 ∧ (maxIndex : ℤ) < idx then idx.toNat else maxIndex
  else maxIndex

/-- The highest index in the directory. -/
def maxIndex (cfg : FileConfig) (stem : List Char) (dir : Directory) : ℕ :=
  (dir.entries.map Prod.fst).foldl (maxIndexTurn cfg stem) 0

/-- The name with an index. -/
def indexedName (cfg : FileConfig) (stem : List Char) (idx : ℕ) : List Char :=
  stem ++ Nat.toDigits 10 idx ++ cfg.extName

/-- What is left after the removal of old files. -/
def Directory.cleared (dir : Directory) (keeps : List Char → Bool) : Directory where
  entries := dir.entries.filter fun e => keeps e.1
  next := dir.next
  lt_next e he := dir.lt_next e (List.mem_filter.1 he).1

/-- A new file. -/
def Directory.create (dir : Directory) (name : List Char) : Directory where
  entries := dir.entries ++ [(name, dir.next)]
  next := dir.next + 1
  lt_next e he := by
    rcases List.mem_append.1 he with he | he
    · exact (dir.lt_next e he).trans (Nat.lt_succ_self _)
    · rw [List.mem_singleton.1 he]
      exact Nat.lt_succ_self _

/-- The file with a name. -/
def Directory.find (dir : Directory) (name : List Char) : Option ℕ :=
  (dir.entries.find? fun e => e.1 == name).map Prod.snd

/-- The loop over the indices: the file that is open in the end, if any. A file that was there is passed
over if it is oversize or cannot be parsed. -/
def openLoop (cfg : FileConfig) (o : Opening) (stem : List Char) :
    ℕ → ℕ → Directory → Option (Option ℕ × Directory)
  | 0, _, _ => none
  | fuel + 1, idx, dir =>
    let name := indexedName cfg stem idx
    if o.opens name then
      match dir.find name with
      | some f =>
        if isFileOversize cfg (o.size name) || (0 < o.size name && !o.parses name) then
          openLoop cfg o stem fuel (idx + 1) dir
        else some (some f, dir)
      | none =>
        if isFileOversize cfg 0 then openLoop cfg o stem fuel (idx + 1) (dir.create name)
        else some (some dir.next, dir.create name)
    else some (none, dir)

/-- `open_new_indexed_file_by_name`; `prev` tells whether a file was open. -/
def openNewIndexedFileByName (cfg : FileConfig) (o : Opening) (prev : Bool) (dir : Directory) :
    Option (Option ℕ × Directory) :=
  let dir := dir.cleared o.keeps
  let stem := cfg.fileName ++ if cfg.enableRollingLogFile then o.timeStr else ['_']
  let idx := maxIndex cfg stem dir
  let idx := if prev || idx == 0 || cfg.alwaysCreateNewFile then idx + 1 else idx
  openLoop cfg o stem (dir.entries.length + 2) idx dir

/-! ## Indices -/

/-- The digits of a number are read back. -/
theorem atoi_toDigits (n : ℕ) : atoi (Nat.toDigits 10 n) = n := by
  have hdigit : ∀ c ∈ Nat.toDigits 10 n, c.isDigit = true := fun c hc =>
    Nat.isDigit_of_mem_toDigits (by decide) (by decide) hc
  have hvalue : (Nat.ofDigitChars 10 ((Nat.toDigits 10 n).takeWhile Char.isDigit) 0 : ℤ) = n := by
    rw [List.takeWhile_eq_self_iff.2 hdigit, Nat.ofDigitChars_toDigits (by decide) (by decide)]
  cases hs : Nat.toDigits 10 n with
  | nil => exact absurd hs Nat.toDigits_ne_nil
  | cons c cs =>
    have hc := Char.isDigit_iff_toNat.1 (hdigit c (hs ▸ List.mem_cons_self))
    rw [show '0'.toNat = 48 from rfl, show '9'.toNat = 57 from rfl] at hc
    have hspace : isSpace c = false := by
      rw [isSpace, Bool.or_eq_false_iff, Bool.and_eq_false_iff]
      exact ⟨beq_eq_false_iff_ne.2 (by omega), Or.inr (decide_eq_false (by omega))⟩
    have hdrop : (c :: cs).dropWhile isSpace = c :: cs := by
      rw [List.dropWhile_cons, hspace]
      rfl
    rw [hs] at hvalue
    unfold atoi
    rw [hdrop]
    split
    · rename_i heq
      obtain ⟨rfl, -⟩ := List.cons.inj heq
      exact absurd hc.1 (by decide)
    · rename_i heq
      obtain ⟨rfl, -⟩ := List.cons.inj heq
      exact absurd hc.1 (by decide)
    · exact hvalue

theorem fileIndex_indexedName (cfg : FileConfig) (stem : List Char) (idx : ℕ) :
    fileIndex cfg stem (indexedName cfg stem idx) = idx := by
  simp only [fileIndex, indexedName, List.append_assoc, List.drop_left, List.length_append,
    Nat.add_sub_cancel, List.take_left, atoi_toDigits]

theorem le_maxIndexTurn (cfg : FileConfig) (stem : List Char) (n : ℕ) (name : List Char) :
    n ≤ maxIndexTurn cfg stem n name := by
  unfold maxIndexTurn
  split
  · simp only
    split <;> omega
  · exact le_refl n

theorem le_foldl_maxIndexTurn (cfg : FileConfig) (stem : List Char) (names : List (List Char)) (n : ℕ) :
    n ≤ names.foldl (maxIndexTurn cfg stem) n := by
  induction names generalizing n with
  | nil => exact le_refl n
  | cons name names ih => exact (le_maxIndexTurn cfg stem n name).trans (ih _)

/-- The search sees every indexed name. -/
theorem le_foldl_of_mem {cfg : FileConfig} {stem : List Char} {idx : ℕ} {names : List (List Char)}
    (h : indexedName cfg stem idx ∈ names) (n : ℕ) : idx ≤ names.foldl (maxIndexTurn cfg stem) n := by
  induction names generalizing n with
  | nil => cases h
  | cons name names ih =>
    rw [List.foldl_cons]
    rcases List.mem_cons.1 h with rfl | h
    · refine le_trans ?_ (le_foldl_maxIndexTurn cfg stem names _)
      have hstem : stem <+: indexedName cfg stem idx :=
        ⟨Nat.toDigits 10 idx ++ cfg.extName, (List.append_assoc _ _ _).symm⟩
      rw [maxIndexTurn, if_pos ⟨hstem, List.suffix_append _ _⟩]
      simp only [fileIndex_indexedName]
      split <;> omega
    · exact ih h _

/-- No file has an index above the highest. -/
theorem find_of_maxIndex_lt {cfg : FileConfig} {stem : List Char} {dir : Directory} {idx : ℕ}
    (h : maxIndex cfg stem dir < idx) : dir.find (indexedName cfg stem idx) = none := by
  rw [Directory.find, Option.map_eq_none_iff, List.find?_eq_none]
  intro e he heq
  have hmem : indexedName cfg stem idx ∈ dir.entries.map Prod.fst :=
    List.mem_map.2 ⟨e, he, eq_of_beq heq⟩
  exact absurd (le_foldl_of_mem hmem 0) (not_le.2 h)

theorem Directory.find_lt_next {dir : Directory} {name : List Char} {f : ℕ} (h : dir.find name = some f) :
    f < dir.next := by
  obtain ⟨e, he, rfl⟩ := Option.map_eq_some_iff.1 h
  exact dir.lt_next e (List.mem_of_find?_eq_some he)

theorem isFileOversize_zero (cfg : FileConfig) : isFileOversize cfg 0 = false := by
  unfold isFileOversize
  by_cases h : 0 < cfg.maxFileSize
  · rw [decide_eq_false (show ¬cfg.maxFileSize ≤ 0 by omega), Bool.and_false]
  · rw [decide_eq_false h, Bool.false_and]

/-! ## The file that is open afterwards -/

/-- A file that no directory has known, or one that was there. -/
def FreshOr (known : Prop) (dir dir' : Directory) (f : ℕ) : Prop :=
  (dir.next ≤ f ∧ f < dir'.next) ∨ (known ∧ f < dir.next)

/-- From an index on behind which there are no files the loop ends after two turns, and behind the files
that are there it makes a new one. -/
theorem openLoop_spec {cfg : FileConfig} {stem : List Char} {dir : Directory} (o : Opening) {idx : ℕ}
    (hidx : maxIndex cfg stem dir ≤ idx) {fuel : ℕ} (hfuel : 2 ≤ fuel) :
    ∃ file dir', openLoop cfg o stem fuel idx dir = some (file, dir') ∧ dir.next ≤ dir'.next ∧
      ∀ f, file = some f → FreshOr (idx = maxIndex cfg stem dir) dir dir' f := by
  have hcreate : ∀ {i fuel : ℕ}, maxIndex cfg stem dir < i → 0 < fuel →
      ∃ file dir', openLoop cfg o stem fuel i dir = some (file, dir') ∧ dir.next ≤ dir'.next ∧
        ∀ f, file = some f → dir.next ≤ f ∧ f < dir'.next := by
    intro i fuel hi hfuel
    obtain ⟨fuel, rfl⟩ := Nat.exists_eq_succ_of_ne_zero hfuel.ne'
    simp only [openLoop, find_of_maxIndex_lt hi, isFileOversize_zero]
    split
    · refine ⟨_, _, rfl, Nat.le_succ _, ?_⟩
      rintro f ⟨⟩
      exact ⟨le_refl _, Nat.lt_succ_self _⟩
    · exact ⟨_, _, rfl, le_refl _, by rintro f ⟨⟩⟩
  obtain ⟨fuel, rfl⟩ : ∃ n, fuel = n + 2 := ⟨fuel - 2, by omega⟩
  rcases hidx.eq_or_lt with heq | hlt
  swap
  · obtain ⟨file, dir', hrun, hnext, hfile⟩ := hcreate hlt (Nat.succ_pos _)
    exact ⟨file, dir', hrun, hnext, fun f hf => Or.inl (hfile f hf)⟩
  rw [openLoop]
  split
  · split
    · rename_i f hf
      split
      · obtain ⟨file, dir', hrun, hnext, hfile⟩ := @hcreate (idx + 1) (fuel + 1) (by omega)
          (Nat.succ_pos _)
        exact ⟨file, dir', hrun, hnext, fun f hf => Or.inl (hfile f hf)⟩
      · refine ⟨_, _, rfl, le_refl _, ?_⟩
        rintro f ⟨⟩
        exact Or.inr ⟨heq.symm, Directory.find_lt_next hf⟩
    · rw [isFileOversize_zero]
      refine ⟨_, _, rfl, Nat.le_succ _, ?_⟩
      rintro f ⟨⟩
      exact Or.inl ⟨le_refl _, Nat.lt_succ_self _⟩
  · exact ⟨_, _, rfl, le_refl _, by rintro f ⟨⟩⟩

/-- **The call ends**, and with a file open before it is a new file that is open afterwards. -/
theorem openNewIndexedFileByName_spec (cfg : FileConfig) (o : Opening) (prev : Bool) (dir : Directory) :
    ∃ file dir', openNewIndexedFileByName cfg o prev dir = some (file, dir') ∧ dir.next ≤ dir'.next ∧
      ∀ f, file = some f → FreshOr (prev = false) dir dir' f := by
  unfold openNewIndexedFileByName
  simp only
  generalize cfg.fileName ++ (if cfg.enableRollingLogFile = true then o.timeStr else ['_']) = stem
  by_cases hnew : (prev || maxIndex cfg stem (dir.cleared o.keeps) == 0 || cfg.alwaysCreateNewFile) = true
  · rw [if_pos hnew]
    obtain ⟨file, dir', hrun, hnext, hfile⟩ := openLoop_spec o
      (Nat.le_succ (maxIndex cfg stem (dir.cleared o.keeps))) (Nat.le_add_left 2 _)
    refine ⟨file, dir', hrun, hnext, fun f hf => ?_⟩
    rcases hfile f hf with h | ⟨h, -⟩
    · exact Or.inl h
    · exact absurd h (Nat.succ_ne_self _)
  · rw [if_neg hnew]
    obtain ⟨file, dir', hrun, hnext, hfile⟩ := openLoop_spec o
      (le_refl (maxIndex cfg stem (dir.cleared o.keeps))) (Nat.le_add_left 2 _)
    refine ⟨file, dir', hrun, hnext, fun f hf => (hfile f hf).imp_right fun h => ⟨?_, h.2⟩⟩
    cases prev
    · rfl
    · exact absurd rfl hnew

end QLog.Appender
