import QLog.Foundations.Replacing
import QLog.Utility.StringUtils

/-!
# The text of a configuration

`Property::serialize` and `Property::parse` of `property.cpp`. A text that was written is read back as it was
exactly if the keys and the values are clean (`parse_serialize_iff`).
-/

namespace QLog.Property

open Utility

/-- `pair_type`: a key and its value. -/
abbrev Item := List Char × List Char

/-- The switch of `serialize`. -/
def escapeChar (c : Char) : List Char :=
  if c = '\n' then ['\\', 'n']
  else if c = '=' then ['\\', '=']
  else if c = ':' then ['\\', ':']
  else [c]

/-- The line of an item. -/
def lineOf (item : Item) : List Char := item.1 ++ '=' :: item.2.flatMap escapeChar

/-- `Property::serialize`, for the items in the order of the map. -/
def serialize (items : List Item) : List Char := items.flatMap fun item => lineOf item ++ ['\n']

/-- The loop of `find_split`; `before` is what lies in front of the place of the search. -/
def findSplitLoop (splitChar : Char) : List Char → List Char → Option Item
  | before, c :: d :: rest =>
    if c = splitChar ∧ before.getLast? ≠ some '\\' then some (trim before, trim (d :: rest))
    else findSplitLoop splitChar (before ++ [c]) (d :: rest)
  | _, _ => none

/-- `find_split`; the search begins behind the first character. -/
def findSplit (line : List Char) (splitChar : Char) : Option Item :=
  findSplitLoop splitChar (line.take 1) (line.drop 1)

/-- The key and the value of a line, before it is continued. -/
def splitLine (line : List Char) : Option Item :=
  if line = [] ∨ line.head? = some '#' ∨ line.head? = some '!' then none
  else
    ((findSplit line '=').or (findSplit line ':')).bind fun kv =>
      if trim kv.2 = [] then none else some (trim kv.1, trim kv.2)

/-- The three replacements in a value. -/
def unescape (value : List Char) : List Char :=
  replaceAll ['\\', ':'] [':'] (replaceAll ['\\', '='] ['='] (replaceAll ['\\', 'n'] ['\n'] value))

/-- The loop of `parse`. While a value ends in a backslash the next line continues it, and an item that is not
complete at the end is dropped. -/
def parseLoop : Option Item → List (List Char) → List Item
  | _, [] => []
  | pending, line :: lines =>
    let next := (pending.map fun kv => (kv.1, kv.2.dropLast ++ trim line)).or (splitLine (trim line))
    next.elim (parseLoop none lines) fun kv =>
      if kv.2.getLast? = some '\\' then parseLoop (some kv) lines
      else (kv.1, unescape kv.2) :: parseLoop none lines

/-- The lines that `parse` goes through. -/
def lines (context : List Char) : List (List Char) :=
  splitNonempty (replaceAll ['\t'] [] (replaceAll ['\r', '\n'] ['\n'] context)) '\n'

/-- `Property::parse`. -/
def parse (context : List Char) : List Item := parseLoop none (lines context)

/-! ## Clean items -/

/-- The keys that can be written. -/
structure CleanKey (key : List Char) : Prop where
  ne_nil : key ≠ []
  trimmed : trim key = key
  no_newline : '\n' ∉ key
  no_tab : '\t' ∉ key
  /-- The line is no comment. -/
  no_comment : key.head? ≠ some '#' ∧ key.head? ≠ some '!'
  /-- The sign `=` behind the key is not escaped. -/
  no_backslash : key.getLast? ≠ some '\\'
  /-- A sign `=` in the key stands at its beginning, or behind a backslash. -/
  no_split : ∀ pre post, key = pre ++ '=' :: post → pre = [] ∨ pre.getLast? = some '\\'

/-- The values that can be written. -/
structure CleanValue (value : List Char) : Prop where
  ne_nil : value ≠ []
  no_tab : '\t' ∉ value
  head : ∀ c, value.head? = some c → isspace c = true → c = '\n'
  last : ∀ c, value.getLast? = some c → isspace c = true → c = '\n'
  /-- The line is not continued. -/
  no_backslash : value.getLast? ≠ some '\\'
  /-- What looks like an escaped newline would become one. -/
  no_escape : ¬['\\', 'n'] <:+: value

/-- The items that can be written. -/
def Clean (item : Item) : Prop := CleanKey item.1 ∧ CleanValue item.2

/-! ## Escaping a value -/

/-- What `serialize` writes behind the backslash, for the characters that are still escaped when `parse` has
undone the others. -/
def colonMark : Char → Option Char := Function.update (fun _ => none) ':' (some ':')

def equalsMark : Char → Option Char := Function.update colonMark '=' (some '=')

def newlineMark : Char → Option Char := Function.update equalsMark '\n' (some 'n')

theorem newlineMark_apply (c : Char) : newlineMark c = if c = '\n' then some 'n' else equalsMark c :=
  Function.update_apply ..

theorem equalsMark_apply (c : Char) : equalsMark c = if c = '=' then some '=' else colonMark c :=
  Function.update_apply ..

theorem colonMark_apply (c : Char) : colonMark c = if c = ':' then some ':' else none :=
  Function.update_apply ..

theorem flatMap_escapeChar (value : List Char) :
    value.flatMap escapeChar = escapeWith '\\' newlineMark value := by
  unfold escapeWith
  congr 1
  funext c
  rw [escapeChar, newlineMark_apply, equalsMark_apply, colonMark_apply]
  split_ifs <;> rfl

/-- **What is read of a written value.** -/
theorem unescape_flatMap_escapeChar (value : List Char) :
    unescape (value.flatMap escapeChar) = replaceAll ['\\', 'n'] ['\n'] value := by
  have hnewline : Function.update newlineMark '\n' none = equalsMark := by
    rw [newlineMark, Function.update_idem, Function.update_eq_self_iff]
    rfl
  have hequals : Function.update equalsMark '=' none = colonMark := by
    rw [equalsMark, Function.update_idem, Function.update_eq_self_iff]
    rfl
  have hcolon : Function.update colonMark ':' none = fun _ => none := by
    rw [colonMark, Function.update_idem, Function.update_eq_self_iff]
  have hn : ∀ v, replaceAll ['\\', 'n'] ['\n'] (escapeWith '\\' newlineMark v) =
      escapeWith '\\' equalsMark (replaceAll ['\\', 'n'] ['\n'] v) := by
    intro v
    rw [← hnewline]
    refine replaceAll_escapeWith_of_free rfl rfl (by decide) (fun c h => ?_) (fun c h => ?_) rfl
    all_goals
      simp only [newlineMark_apply, equalsMark_apply, colonMark_apply] at h
      split_ifs at h <;> simp_all
  have he : ∀ v, replaceAll ['\\', '='] ['='] (escapeWith '\\' equalsMark v) =
      escapeWith '\\' colonMark v := by
    intro v
    rw [← hequals]
    refine replaceAll_escapeWith_of_marked rfl (by decide) (fun c h => ?_) (fun c h => ?_) (by decide)
    all_goals
      simp only [equalsMark_apply, colonMark_apply] at h
      split_ifs at h <;> simp_all
  have hc : ∀ v, replaceAll ['\\', ':'] [':'] (escapeWith '\\' colonMark v) =
      escapeWith '\\' (fun _ => none) v := by
    intro v
    rw [← hcolon]
    refine replaceAll_escapeWith_of_marked rfl (by decide) (fun c h => ?_) (fun c h => ?_) (by decide)
    all_goals
      simp only [colonMark_apply] at h
      split_ifs at h
      simp_all
  rw [unescape, flatMap_escapeChar, hn, he, hc, escapeWith_none]

/-! ## The lines of a text -/

/-- What is left of a line in front of its end. -/
def dropReturn (line : List Char) : List Char := if line.getLast? = some '\r' then line.dropLast else line

/-- A line as `parse` sees it. -/
def shown (line : List Char) : List Char := (dropReturn line).filter (· ≠ '\t')

theorem dropReturn_cons {c : Char} {line : List Char} (hne : line ≠ []) :
    dropReturn (c :: line) = c :: dropReturn line := by
  have hlast : (c :: line).getLast? = line.getLast? := by
    rw [List.getLast?_cons, List.getLast?_eq_some_getLast hne]
    rfl
  rw [dropReturn, dropReturn, hlast]
  split
  · exact List.dropLast_cons_of_ne_nil hne
  · rfl

/-- The first line of a text, when the ends of the lines are replaced. -/
theorem replaceAll_line {line : List Char} (hline : '\n' ∉ line) (rest : List Char) :
    replaceAll ['\r', '\n'] ['\n'] (line ++ '\n' :: rest) =
      dropReturn line ++ '\n' :: replaceAll ['\r', '\n'] ['\n'] rest := by
  induction line with
  | nil => exact replaceAll_cons (by simp)
  | cons c line ih =>
    obtain ⟨hc, hline⟩ := not_or.1 (List.mem_cons.not.1 hline)
    by_cases hne : line = []
    · subst hne
      by_cases hr : c = '\r'
      · subst hr
        exact replaceAll_pair
      · rw [dropReturn, if_neg (by simpa using hr)]
        exact (replaceAll_cons (by simp [hr])).trans (congrArg _ (ih hline))
    · obtain ⟨d, line, rfl⟩ := List.exists_cons_of_ne_nil hne
      have hd : d ≠ '\n' := fun heq => hline (heq ▸ List.mem_cons_self)
      rw [dropReturn_cons hne, List.cons_append, List.cons_append, List.cons_append,
        replaceAll_cons (by simp [hd])]
      exact congrArg _ (ih hline)

/-- **The first line** of a text, unless nothing is left of it. -/
theorem lines_line {line : List Char} (hline : '\n' ∉ line) (hshown : shown line ≠ []) (rest : List Char) :
    lines (line ++ '\n' :: rest) = shown line :: lines rest := by
  have hfree : ∀ c ∈ shown line, (c == '\n') = false := by
    intro c hc
    have hmem : c ∈ line := by
      have hdrop := (List.mem_filter.1 hc).1
      rw [dropReturn] at hdrop
      split at hdrop
      · exact List.mem_of_mem_dropLast hdrop
      · exact hdrop
    exact beq_false_of_ne fun heq => hline (heq ▸ hmem)
  rw [lines, replaceAll_line hline, replaceAll_singleton_nil, List.filter_append,
    List.filter_cons_of_pos (by decide), splitNonempty_eq_pieces, pieces_append_cons (by decide)]
  rw [show (dropReturn line).filter (· ≠ '\t') = shown line from rfl, pieces_of_forall hshown hfree, lines,
    replaceAll_singleton_nil, splitNonempty_eq_pieces]
  rfl

/-- What is written for a character: a backslash and a mark, or the character. -/
theorem escapeChar_cases (c : Char) :
    (∃ m, escapeChar c = ['\\', m] ∧ (m = 'n' ∨ m = '=' ∨ m = ':')) ∨ escapeChar c = [c] ∧ c ≠ '\n' := by
  rw [escapeChar]
  split_ifs with hn he hc
  · exact Or.inl ⟨'n', rfl, Or.inl rfl⟩
  · exact Or.inl ⟨'=', rfl, Or.inr (Or.inl rfl)⟩
  · exact Or.inl ⟨':', rfl, Or.inr (Or.inr rfl)⟩
  · exact Or.inr ⟨rfl, hn⟩

/-- What stands in a written value. -/
theorem mem_flatMap_escapeChar {value : List Char} {c : Char} (h : c ∈ value.flatMap escapeChar) :
    (c = '\\' ∨ c = 'n' ∨ c = '=' ∨ c = ':') ∨ c ∈ value ∧ c ≠ '\n' := by
  obtain ⟨x, hx, hc⟩ := List.mem_flatMap.1 h
  rcases escapeChar_cases x with ⟨m, hm, hmark⟩ | ⟨hm, hn⟩
  · rw [hm] at hc
    rcases List.mem_cons.1 hc with rfl | hc
    · exact Or.inl (Or.inl rfl)
    · obtain rfl := List.mem_singleton.1 hc
      exact Or.inl (Or.inr hmark)
  · rw [hm] at hc
    obtain rfl := List.mem_singleton.1 hc
    exact Or.inr ⟨hx, hn⟩

theorem not_mem_flatMap_escapeChar (value : List Char) : '\n' ∉ value.flatMap escapeChar := by
  intro h
  rcases mem_flatMap_escapeChar h with hmark | ⟨-, hn⟩
  · exact absurd hmark (by decide)
  · exact hn rfl

theorem mem_shown_lineOf (item : Item) : '=' ∈ shown (lineOf item) := by
  refine List.mem_filter.2 ⟨?_, by decide⟩
  rw [dropReturn]
  split
  · rename_i hlast
    cases htext : item.2.flatMap escapeChar with
    | nil =>
      rw [lineOf, htext] at hlast
      simp at hlast
    | cons c text =>
      rw [lineOf, htext, List.dropLast_append_cons, List.dropLast_cons_of_ne_nil (List.cons_ne_nil _ _)]
      simp
  · simp [lineOf]

/-- **A written text has one line for each item.** -/
theorem lines_serialize {items : List Item} (h : ∀ item ∈ items, '\n' ∉ item.1) :
    lines (serialize items) = items.map fun item => shown (lineOf item) := by
  induction items with
  | nil => rfl
  | cons item items ih =>
    obtain ⟨hitem, hitems⟩ := List.forall_mem_cons.1 h
    have hline : '\n' ∉ lineOf item := by
      simp only [lineOf, List.mem_append, List.mem_cons, not_or]
      exact ⟨hitem, by decide, not_mem_flatMap_escapeChar item.2⟩
    have hne : shown (lineOf item) ≠ [] := List.ne_nil_of_mem (mem_shown_lineOf item)
    rw [serialize, List.flatMap_cons, List.append_assoc, List.singleton_append, lines_line hline hne]
    exact congrArg _ (ih hitems)

/-- Of a line `parse` looks at what is left without tabs and white space around it. -/
theorem trim_shown (line : List Char) : trim (shown line) = trim (line.filter (· ≠ '\t')) := by
  rw [shown, dropReturn]
  split
  · rename_i hlast
    obtain ⟨front, rfl⟩ := List.getLast?_eq_some_iff.1 hlast
    rw [List.dropLast_concat, List.filter_append, List.filter_cons_of_pos (by decide), List.filter_nil,
      trim_append_space (by decide)]
  · rfl

/-! ## The split of a line -/

section Split

variable {c : Char} {before rest line : List Char} {kv : Item}

theorem findSplitLoop_eq_some (h : findSplitLoop c before rest = some kv) :
    ∃ mid post, rest = mid ++ c :: post ∧ post ≠ [] ∧ (before ++ mid).getLast? ≠ some '\\' ∧
      kv = (trim (before ++ mid), trim post) ∧
      ∀ p q, mid = p ++ c :: q → (before ++ p).getLast? = some '\\' := by
  induction rest generalizing before with
  | nil => cases h
  | cons x rest ih =>
    cases rest with
    | nil => cases h
    | cons d rest =>
      rw [findSplitLoop] at h
      split at h
      · rename_i hx
        refine ⟨[], d :: rest, by rw [hx.1]; rfl, List.cons_ne_nil _ _, ?_, ?_, ?_⟩
        · rw [List.append_nil]
          exact hx.2
        · rw [List.append_nil]
          exact (Option.some.inj h).symm
        · intro p q hp
          simp at hp
      · rename_i hx
        obtain ⟨mid, post, hrest, hpost, hlast, hkv, hno⟩ := ih h
        rw [List.append_assoc, List.singleton_append] at hlast hkv
        refine ⟨x :: mid, post, by rw [hrest]; rfl, hpost, hlast, hkv, fun p q hp => ?_⟩
        cases p with
        | nil =>
          rw [List.append_nil]
          by_contra hbefore
          exact hx ⟨(List.cons.inj hp).1, hbefore⟩
        | cons y p =>
          obtain ⟨rfl, hmid⟩ := List.cons.inj hp
          have hback := hno p q hmid
          rwa [List.append_assoc, List.singleton_append] at hback

theorem findSplitLoop_eq_none (h : findSplitLoop c before rest = none) (p q : List Char)
    (hrest : rest = p ++ c :: q) : q = [] ∨ (before ++ p).getLast? = some '\\' := by
  induction rest generalizing before p with
  | nil => simp at hrest
  | cons x rest ih =>
    cases rest with
    | nil =>
      cases p with
      | nil => exact Or.inl (List.cons.inj hrest).2.symm
      | cons y p => simp at hrest
    | cons d rest =>
      rw [findSplitLoop] at h
      split at h
      · cases h
      · rename_i hx
        cases p with
        | nil =>
          rw [List.append_nil]
          by_contra hor
          exact hx ⟨(List.cons.inj hrest).1, (not_or.1 hor).2⟩
        | cons y p =>
          obtain ⟨rfl, htail⟩ := List.cons.inj hrest
          have hback := ih h p htail
          rwa [List.append_assoc, List.singleton_append] at hback

theorem findSplitLoop_append {mid post : List Char} (hpost : post ≠ [])
    (hlast : (before ++ mid).getLast? ≠ some '\\')
    (hno : ∀ p q, mid = p ++ c :: q → (before ++ p).getLast? = some '\\') :
    findSplitLoop c before (mid ++ c :: post) = some (trim (before ++ mid), trim post) := by
  obtain ⟨d, post, rfl⟩ := List.exists_cons_of_ne_nil hpost
  induction mid generalizing before with
  | nil =>
    rw [List.append_nil] at hlast
    rw [List.nil_append, findSplitLoop, if_pos ⟨rfl, hlast⟩, List.append_nil]
  | cons x mid ih =>
    have hx : ¬(x = c ∧ before.getLast? ≠ some '\\') := by
      rintro ⟨rfl, hbefore⟩
      have hback := hno [] mid rfl
      rw [List.append_nil] at hback
      exact hbefore hback
    have hstep : findSplitLoop c before (x :: mid ++ c :: d :: post) =
        findSplitLoop c (before ++ [x]) (mid ++ c :: d :: post) := by
      cases mid with
      | nil => rw [List.cons_append, List.nil_append, findSplitLoop, if_neg hx]
      | cons y mid => rw [List.cons_append, List.cons_append, findSplitLoop, if_neg hx]
    rw [hstep, ih]
    · rw [List.append_assoc, List.singleton_append]
    · rwa [List.append_assoc, List.singleton_append]
    · intro p q hp
      rw [List.append_assoc, List.singleton_append]
      exact hno (x :: p) q (by rw [hp]; rfl)

/-- **Where a line is split.** -/
theorem findSplit_eq_some (h : findSplit line c = some kv) :
    ∃ pre post, line = pre ++ c :: post ∧ pre ≠ [] ∧ pre.getLast? ≠ some '\\' ∧
      kv = (trim pre, trim post) ∧ ∀ p q, pre = p ++ c :: q → p = [] ∨ p.getLast? = some '\\' := by
  cases line with
  | nil => cases h
  | cons x line =>
    obtain ⟨mid, post, hrest, -, hlast, hkv, hno⟩ := findSplitLoop_eq_some h
    refine ⟨x :: mid, post, ?_, List.cons_ne_nil _ _, hlast, hkv, fun p q hp => ?_⟩
    · exact congrArg (x :: ·) hrest
    · cases p with
      | nil => exact Or.inl rfl
      | cons y p =>
        obtain ⟨rfl, hmid⟩ := List.cons.inj hp
        exact Or.inr (hno p q hmid)

/-- Where a line could be split if it was not. -/
theorem findSplit_eq_none (h : findSplit line c = none) {p q : List Char} (hline : line = p ++ c :: q) :
    p = [] ∨ q = [] ∨ p.getLast? = some '\\' := by
  cases p with
  | nil => exact Or.inl rfl
  | cons x p =>
    subst hline
    exact Or.inr (findSplitLoop_eq_none h p q rfl)

theorem findSplit_append {key post : List Char} (hkey : key ≠ []) (hpost : post ≠ [])
    (hlast : key.getLast? ≠ some '\\')
    (hno : ∀ p q, key = p ++ c :: q → p = [] ∨ p.getLast? = some '\\') :
    findSplit (key ++ c :: post) c = some (trim key, trim post) := by
  obtain ⟨x, key, rfl⟩ := List.exists_cons_of_ne_nil hkey
  have hloop : findSplitLoop c [x] (key ++ c :: post) = some (trim ([x] ++ key), trim post) := by
    refine findSplitLoop_append hpost hlast fun p q hp => ?_
    exact (hno (x :: p) q (by rw [hp]; rfl)).resolve_left (List.cons_ne_nil _ _)
  exact hloop

end Split

/-! ## One line for each item -/

section Lines

variable {pending : Option Item} {ls : List (List Char)} {item : Item} {items : List Item}

/-- A line that is an item by itself. -/
def Single (line : List Char) (item : Item) : Prop :=
  ∃ value, splitLine (trim line) = some (item.1, value) ∧ value.getLast? ≠ some '\\' ∧ unescape value = item.2

theorem parseLoop_none_cons (line : List Char) : parseLoop none (line :: ls) =
    (splitLine (trim line)).elim (parseLoop none ls) fun kv =>
      if kv.2.getLast? = some '\\' then parseLoop (some kv) ls
      else (kv.1, unescape kv.2) :: parseLoop none ls := rfl

theorem parseLoop_some_cons (kv : Item) (line : List Char) : parseLoop (some kv) (line :: ls) =
    if (kv.2.dropLast ++ trim line).getLast? = some '\\' then
      parseLoop (some (kv.1, kv.2.dropLast ++ trim line)) ls
    else (kv.1, unescape (kv.2.dropLast ++ trim line)) :: parseLoop none ls := rfl

/-- There are no more items than lines. -/
theorem length_parseLoop_le : (parseLoop pending ls).length ≤ ls.length := by
  induction ls generalizing pending with
  | nil => cases pending <;> exact le_rfl
  | cons line ls ih =>
    cases pending with
    | none =>
      rw [parseLoop_none_cons]
      cases splitLine (trim line) with
      | none => exact ih.trans (Nat.le_succ _)
      | some kv =>
        change (if kv.2.getLast? = some '\\' then parseLoop (some kv) ls
          else (kv.1, unescape kv.2) :: parseLoop none ls).length ≤ _
        split
        · exact ih.trans (Nat.le_succ _)
        · exact Nat.succ_le_succ ih
    | some kv =>
      rw [parseLoop_some_cons]
      split
      · exact ih.trans (Nat.le_succ _)
      · exact Nat.succ_le_succ ih

/-- The key of an item stands in one of the lines. -/
theorem exists_line_of_mem (h : item ∈ parseLoop pending ls) : (∃ value, pending = some (item.1, value)) ∨
    ∃ line ∈ ls, ∃ value, splitLine (trim line) = some (item.1, value) := by
  induction ls generalizing pending with
  | nil => cases pending <;> cases h
  | cons line ls ih =>
    have hlater : ∀ {p : Option Item}, item ∈ parseLoop p ls → (∃ value, p = some (item.1, value)) ∨
        ∃ line' ∈ line :: ls, ∃ value, splitLine (trim line') = some (item.1, value) := by
      intro p hp
      refine (ih hp).imp_right fun hline => ?_
      obtain ⟨line', hmem, hvalue⟩ := hline
      exact ⟨line', List.mem_cons_of_mem _ hmem, hvalue⟩
    cases pending with
    | none =>
      rw [parseLoop_none_cons] at h
      cases hline : splitLine (trim line) with
      | none =>
        rw [hline] at h
        exact hlater h
      | some kv =>
        have hhere : ∀ value, kv.1 = item.1 → kv.2 = value → ∃ line' ∈ line :: ls, ∃ value,
            splitLine (trim line') = some (item.1, value) := fun value hkey hvalue =>
          ⟨line, List.mem_cons_self, value, by rw [hline, ← hkey, ← hvalue]⟩
        rw [hline, Option.elim_some] at h
        split at h
        · rcases hlater h with hpending | hline'
          · obtain ⟨value, hvalue⟩ := hpending
            obtain rfl := Option.some.inj hvalue
            exact Or.inr (hhere _ rfl rfl)
          · exact Or.inr hline'
        · rcases List.mem_cons.1 h with rfl | h
          · exact Or.inr (hhere _ rfl rfl)
          · refine (hlater h).imp_left fun hnone => ?_
            obtain ⟨value, hvalue⟩ := hnone
            cases hvalue
    | some kv =>
      rw [parseLoop_some_cons] at h
      split at h
      · refine (hlater h).imp_left fun hpending => ?_
        obtain ⟨value, hvalue⟩ := hpending
        exact ⟨kv.2, by rw [← (Prod.mk.inj (Option.some.inj hvalue)).1]⟩
      · rcases List.mem_cons.1 h with rfl | h
        · exact Or.inl ⟨kv.2, rfl⟩
        · refine (hlater h).imp_left fun hnone => ?_
          obtain ⟨value, hvalue⟩ := hnone
          cases hvalue

/-- **As many items as lines** are read only if every line is an item by itself. -/
theorem parseLoop_eq_iff (hlength : items.length = ls.length) :
    parseLoop none ls = items ↔ List.Forall₂ Single ls items := by
  induction ls generalizing items with
  | nil =>
    obtain rfl := List.length_eq_zero_iff.1 hlength
    exact iff_of_true rfl List.Forall₂.nil
  | cons line ls ih =>
    obtain ⟨item, items, rfl⟩ := List.exists_cons_of_length_eq_add_one hlength
    have hlength' : items.length = ls.length := Nat.succ.inj hlength
    -- a line that completes no item leaves too few lines for the items
    have hfew : ∀ p, parseLoop p ls ≠ item :: items := by
      intro p heq
      have hle : (parseLoop p ls).length ≤ ls.length := length_parseLoop_le
      rw [heq, List.length_cons] at hle
      omega
    rw [parseLoop_none_cons, List.forall₂_cons]
    cases hline : splitLine (trim line) with
    | none =>
      refine iff_of_false (hfew none) fun h => ?_
      obtain ⟨⟨value, hvalue, -⟩, -⟩ := h
      rw [hline] at hvalue
      cases hvalue
    | some kv =>
      rw [Option.elim_some]
      split
      · rename_i hback
        refine iff_of_false (hfew _) fun h => ?_
        obtain ⟨⟨value, hvalue, hnot, -⟩, -⟩ := h
        rw [hline] at hvalue
        obtain rfl := Option.some.inj hvalue
        exact hnot hback
      · rename_i hback
        rw [List.cons.injEq, ih hlength']
        refine and_congr_left fun _ => ⟨?_, ?_⟩
        · rintro rfl
          exact ⟨kv.2, hline, hback, rfl⟩
        · rintro ⟨value, hvalue, -, hunescape⟩
          rw [hline] at hvalue
          obtain rfl := Option.some.inj hvalue
          rw [hunescape]

end Lines

/-! ## Clean items are those that are read back -/

section Clean

variable {line value : List Char} {kv item : Item}

/-- **What a line says.** -/
theorem splitLine_eq_some (h : splitLine line = some kv) : line.head? ≠ some '#' ∧ line.head? ≠ some '!' ∧
    ∃ c pre post, line = pre ++ c :: post ∧ (c = '=' ∨ c = ':') ∧ pre ≠ [] ∧ pre.getLast? ≠ some '\\' ∧
      kv = (trim pre, trim post) ∧ trim post ≠ [] ∧
      ∀ p q, pre = p ++ '=' :: q → p = [] ∨ p.getLast? = some '\\' := by
  rw [splitLine] at h
  split at h
  · cases h
  rename_i hfirst
  obtain ⟨-, hhash, hbang⟩ := not_or.1 hfirst |>.imp_right not_or.1
  obtain ⟨kv', hsplit, hkv⟩ := Option.bind_eq_some_iff.1 h
  split at hkv
  · cases hkv
  rename_i hvalue
  obtain rfl := Option.some.inj hkv
  refine ⟨hhash, hbang, ?_⟩
  cases hequals : findSplit line '=' with
  | some kv'' =>
    rw [hequals, Option.some_or] at hsplit
    obtain rfl := Option.some.inj hsplit
    obtain ⟨pre, post, hline, hne, hlast, rfl, hno⟩ := findSplit_eq_some hequals
    rw [trim_trim] at hvalue
    exact ⟨'=', pre, post, hline, Or.inl rfl, hne, hlast, by rw [trim_trim, trim_trim], hvalue, hno⟩
  | none =>
    rw [hequals, Option.none_or] at hsplit
    obtain ⟨pre, post, hline, hne, hlast, rfl, -⟩ := findSplit_eq_some hsplit
    rw [trim_trim] at hvalue
    refine ⟨':', pre, post, hline, Or.inr rfl, hne, hlast, by rw [trim_trim, trim_trim], hvalue, ?_⟩
    intro p q hp
    have hwhole : line = p ++ '=' :: (q ++ ':' :: post) := by
      rw [hline, hp, List.append_assoc, List.cons_append]
    exact (findSplit_eq_none hequals hwhole).imp_right fun h => h.resolve_left (by simp)

theorem head?_unescape {c : Char} (h : (unescape value).head? = some c) (hc : isspace c = true) :
    c = '\n' ∨ value.head? = some c := by
  rcases head?_replaceAll h with rfl | h
  · cases hc
  rcases head?_replaceAll h with rfl | h
  · cases hc
  exact head?_replaceAll h

theorem getLast?_unescape {c : Char} (h : (unescape value).getLast? = some c) (h₁ : c ≠ ':') (h₂ : c ≠ '=') :
    c = '\n' ∨ value.getLast? = some c :=
  getLast?_replaceAll ((getLast?_replaceAll ((getLast?_replaceAll h).resolve_left h₁)).resolve_left h₂)

theorem not_mem_unescape (h : '\t' ∉ value) : '\t' ∉ unescape value := by
  intro hmem
  have h₁ := (mem_of_mem_replaceAll hmem).resolve_left (by decide)
  have h₂ := (mem_of_mem_replaceAll h₁).resolve_left (by decide)
  exact h ((mem_of_mem_replaceAll h₂).resolve_left (by decide))

theorem unescape_eq_nil_iff : unescape value = [] ↔ value = [] := by
  rw [unescape, replaceAll_eq_nil_iff, replaceAll_eq_nil_iff, replaceAll_eq_nil_iff]

/-- A written value begins like the value, unless with a backslash. -/
theorem head?_flatMap_escapeChar {c : Char} (h : (value.flatMap escapeChar).head? = some c) :
    c = '\\' ∨ (value.head? = some c ∧ c ≠ '\n') := by
  cases value with
  | nil => cases h
  | cons x value =>
    rw [List.flatMap_cons] at h
    rcases escapeChar_cases x with ⟨m, hm, -⟩ | ⟨hm, hn⟩
    · rw [hm] at h
      exact Or.inl (Option.some.inj h).symm
    · rw [hm] at h
      obtain rfl := Option.some.inj h
      exact Or.inr ⟨rfl, hn⟩

/-- A written value ends like the value, unless with a mark. -/
theorem getLast?_flatMap_escapeChar {c : Char} (h : (value.flatMap escapeChar).getLast? = some c) :
    (c = 'n' ∨ c = '=' ∨ c = ':') ∨ (value.getLast? = some c ∧ c ≠ '\n') := by
  rcases List.eq_nil_or_concat value with rfl | ⟨front, x, rfl⟩
  · cases h
  · rw [List.concat_eq_append, List.flatMap_append, List.flatMap_singleton] at h
    rw [List.concat_eq_append, List.getLast?_concat]
    rcases escapeChar_cases x with ⟨m, hm, hmark⟩ | ⟨hm, hn⟩
    · rw [hm, List.getLast?_append] at h
      obtain rfl := Option.some.inj h
      exact Or.inl hmark
    · rw [hm, List.getLast?_concat] at h
      exact Or.inr ⟨h, fun heq => hn ((Option.some.inj h).trans heq)⟩

theorem flatMap_escapeChar_ne_nil (h : value ≠ []) : value.flatMap escapeChar ≠ [] := by
  obtain ⟨x, value, rfl⟩ := List.exists_cons_of_ne_nil h
  rw [List.flatMap_cons]
  rcases escapeChar_cases x with ⟨m, hm, -⟩ | ⟨hm, -⟩
  · rw [hm]
    exact List.cons_ne_nil _ _
  · rw [hm]
    exact List.cons_ne_nil _ _

theorem trim_flatMap_escapeChar (hhead : ∀ c, value.head? = some c → isspace c = true → c = '\n')
    (hlast : ∀ c, value.getLast? = some c → isspace c = true → c = '\n') :
    trim (value.flatMap escapeChar) = value.flatMap escapeChar := by
  refine trim_eq_self (fun c hc => ?_) fun c hc => ?_
  · rcases head?_flatMap_escapeChar hc with rfl | ⟨hc, hn⟩
    · rfl
    · exact Bool.not_eq_true _ ▸ fun hspace => hn (hhead c hc hspace)
  · rcases getLast?_flatMap_escapeChar hc with (rfl | rfl | rfl) | ⟨hc, hn⟩
    · rfl
    · rfl
    · rfl
    · exact Bool.not_eq_true _ ▸ fun hspace => hn (hlast c hc hspace)

/-- What `parse` sees of the line of an item. -/
theorem trim_shown_lineOf (hne : item.1 ≠ []) (htrim : trim item.1 = item.1) (htab : '\t' ∉ item.1)
    (hvalue : item.2 ≠ []) (hvtab : '\t' ∉ item.2)
    (hlast : ∀ c, item.2.getLast? = some c → isspace c = true → c = '\n') :
    trim (shown (lineOf item)) = lineOf item := by
  have htext : '\t' ∉ item.2.flatMap escapeChar := by
    intro hmem
    rcases mem_flatMap_escapeChar hmem with hmark | ⟨hin, -⟩
    · exact absurd hmark (by decide)
    · exact hvtab hin
  have hfree : ∀ c ∈ lineOf item, decide (c ≠ '\t') = true := by
    intro c hc
    refine decide_eq_true fun heq => ?_
    subst heq
    rcases List.mem_append.1 hc with hc | hc
    · exact htab hc
    · exact htext ((List.mem_cons.1 hc).resolve_left (by decide))
  rw [trim_shown, List.filter_eq_self.2 hfree]
  obtain ⟨x, key, hkey⟩ := List.exists_cons_of_ne_nil hne
  refine trim_eq_self (fun c hc => ?_) fun c hc => ?_
  · rw [lineOf, hkey, List.cons_append] at hc
    refine not_isspace_of_head?_trim (show (trim item.1).head? = some c from ?_)
    rw [htrim, hkey]
    exact hc
  · have htext' := List.getLast?_eq_some_getLast (flatMap_escapeChar_ne_nil hvalue)
    rw [lineOf, List.append_cons, List.getLast?_append, htext', Option.some_or, ← htext'] at hc
    rcases getLast?_flatMap_escapeChar hc with (rfl | rfl | rfl) | ⟨hc, hn⟩
    · rfl
    · rfl
    · rfl
    · exact Bool.not_eq_true _ ▸ fun hspace => hn (hlast c hc hspace)

/-- The line of an item begins with its key. -/
theorem head?_lineOf (hne : item.1 ≠ []) : (lineOf item).head? = item.1.head? := by
  obtain ⟨x, key, hkey⟩ := List.exists_cons_of_ne_nil hne
  rw [lineOf, hkey]
  rfl

/-- **A clean item is read back from its line.** -/
theorem single_of_clean (h : Clean item) : Single (shown (lineOf item)) item := by
  obtain ⟨hkey, hvalue⟩ := h
  have htext := flatMap_escapeChar_ne_nil hvalue.ne_nil
  have htrim := trim_flatMap_escapeChar hvalue.head hvalue.last
  refine ⟨item.2.flatMap escapeChar, ?_, fun hlast => ?_, ?_⟩
  · have hfirst : ¬(lineOf item = [] ∨ (lineOf item).head? = some '#' ∨ (lineOf item).head? = some '!') := by
      rw [head?_lineOf hkey.ne_nil]
      rintro (hnil | hcomment | hcomment)
      · simp [lineOf] at hnil
      · exact hkey.no_comment.1 hcomment
      · exact hkey.no_comment.2 hcomment
    have hsplit : findSplit (lineOf item) '=' = some (trim item.1, trim (item.2.flatMap escapeChar)) :=
      findSplit_append hkey.ne_nil htext hkey.no_backslash hkey.no_split
    rw [trim_shown_lineOf hkey.ne_nil hkey.trimmed hkey.no_tab hvalue.ne_nil hvalue.no_tab hvalue.last,
      splitLine, if_neg hfirst, hsplit, Option.some_or, Option.bind_some, htrim, htrim, if_neg htext,
      hkey.trimmed, hkey.trimmed]
  · rcases getLast?_flatMap_escapeChar hlast with (h | h | h) | ⟨h, -⟩
    · simp at h
    · simp at h
    · simp at h
    · exact hvalue.no_backslash h
  · rw [unescape_flatMap_escapeChar, replaceAll_eq_self_iff]
    exact hvalue.no_escape

/-- **The parts of a line**: the key, white space, the sign and the value. -/
theorem exists_parts {key text : List Char} (h : splitLine (trim line) = some (key, text)) :
    ∃ c back post, trim line = key ++ back ++ c :: post ∧ (∀ d ∈ back, isspace d = true) ∧
      (c = '=' ∨ c = ':') ∧ (key ++ back).getLast? ≠ some '\\' ∧ key ≠ [] ∧ trim key = key ∧
      text = trim post ∧ text ≠ [] ∧
      (key.head? ≠ some '#' ∧ key.head? ≠ some '!') ∧
      ∀ p q, key = p ++ '=' :: q → p = [] ∨ p.getLast? = some '\\' := by
  obtain ⟨hhash, hbang, c, pre, post, hline, hc, hpre, hlast, hkv, hpost, hno⟩ := splitLine_eq_some h
  obtain ⟨hkey, htext⟩ := Prod.mk.inj hkv
  obtain ⟨x, rest, hx⟩ := List.exists_cons_of_ne_nil hpre
  have hhead : (trim line).head? = some x := by
    rw [hline, hx]
    rfl
  have hspace : isspace x = false := not_isspace_of_head?_trim hhead
  -- only the end of what stands in front of the sign is trimmed
  obtain ⟨back, heq, hback⟩ := exists_trim_append (fun d hd => by
    rw [hx] at hd
    exact Option.some.inj hd ▸ hspace : ∀ d, pre.head? = some d → isspace d = false)
  rw [← hkey] at heq
  have hne : key ≠ [] := by
    rintro rfl
    have hmem : x ∈ back := by
      rw [List.nil_append] at heq
      rw [← heq, hx]
      exact List.mem_cons_self
    rw [hback x hmem] at hspace
    cases hspace
  have hkeyhead : key.head? = some x := by
    obtain ⟨y, key, rfl⟩ := List.exists_cons_of_ne_nil hne
    rw [hx] at heq
    exact congrArg some (List.cons.inj heq).1.symm
  refine ⟨c, back, post, by rw [← heq, hline], hback, hc, heq ▸ hlast, hne, by rw [hkey, trim_trim], htext,
    htext ▸ hpost, ?_, fun p q hp => ?_⟩
  · rw [hkeyhead, ← hhead]
    exact ⟨hhash, hbang⟩
  · exact hno p (q ++ back) (by rw [heq, hp, List.append_assoc, List.cons_append])

/-- A value that is read has no tab and no white space around it, and no backslash at its end. -/
theorem value_of_unescape {post text : List Char} (htab : '\t' ∉ post) (htext : text = trim post)
    (hne : text ≠ []) (hback : text.getLast? ≠ some '\\') :
    unescape text ≠ [] ∧ '\t' ∉ unescape text ∧
      (∀ c, (unescape text).head? = some c → isspace c = true → c = '\n') ∧
      (∀ c, (unescape text).getLast? = some c → isspace c = true → c = '\n') ∧
      (unescape text).getLast? ≠ some '\\' := by
  refine ⟨unescape_eq_nil_iff.not.2 hne, not_mem_unescape fun h => htab ?_, fun c hc hspace => ?_,
    fun c hc hspace => ?_, fun hlast => ?_⟩
  · exact (isInfix_trim post).subset (htext ▸ h)
  · refine (head?_unescape hc hspace).resolve_right fun hhead => ?_
    rw [not_isspace_of_head?_trim (htext ▸ hhead)] at hspace
    cases hspace
  · refine (getLast?_unescape hc ?_ ?_).resolve_right fun hlast => ?_
    · rintro rfl
      cases hspace
    · rintro rfl
      cases hspace
    · rw [not_isspace_of_getLast?_trim (htext ▸ hlast)] at hspace
      cases hspace
  · exact hback ((getLast?_unescape hlast (by decide) (by decide)).resolve_left (by decide))

/-- **An item that is read back from its line is clean.** -/
theorem clean_of_single (hnewline : '\n' ∉ item.1) (h : Single (shown (lineOf item)) item) : Clean item := by
  obtain ⟨text, hsplit, hback, hunescape⟩ := h
  obtain ⟨c, back, post, hline, hspace, hc, hlast, hne, htrim, htext, htext', hcomment, hno⟩ :=
    exists_parts hsplit
  have htab : '\t' ∉ item.1 ++ back ++ c :: post := by
    intro hmem
    rw [← hline] at hmem
    have hfilter := (isInfix_trim _).subset hmem
    rw [shown] at hfilter
    simpa using (List.mem_filter.1 hfilter).2
  have hktab : '\t' ∉ item.1 := fun h => htab (List.mem_append_left _ (List.mem_append_left _ h))
  obtain ⟨hvne, hvtab, hvhead, hvlast, hvback⟩ := value_of_unescape
    (fun h => htab (List.mem_append_right _ (List.mem_cons_of_mem _ h))) htext htext' hback
  rw [hunescape] at hvne hvtab hvhead hvlast hvback
  -- so the line is seen as it was written, and is split where the value begins
  rw [trim_shown_lineOf hne htrim hktab hvne hvtab hvlast, lineOf, List.append_assoc] at hline
  have hsign := List.append_cancel_left hline
  cases back with
  | cons d back =>
    obtain ⟨rfl, -⟩ := List.cons.inj hsign
    cases hspace '=' List.mem_cons_self
  | nil =>
    rw [List.append_nil] at hlast
    obtain ⟨-, hpost⟩ := List.cons.inj hsign
    rw [← hpost, trim_flatMap_escapeChar hvhead hvlast] at htext
    rw [htext, unescape_flatMap_escapeChar, replaceAll_eq_self_iff] at hunescape
    exact ⟨⟨hne, htrim, hnewline, hktab, hcomment, hlast, hno⟩,
      ⟨hvne, hvtab, hvhead, hvlast, hvback, hunescape⟩⟩

end Clean

/-- No key that is read contains the end of a line. -/
theorem not_mem_key_of_mem_parse {context : List Char} {item : Item} (h : item ∈ parse context) :
    '\n' ∉ item.1 := by
  rcases exists_line_of_mem h with ⟨value, hvalue⟩ | ⟨line, hmem, value, hsplit⟩
  · cases hvalue
  · obtain ⟨c, back, post, hline, -⟩ := exists_parts hsplit
    intro hkey
    rw [lines, splitNonempty_eq_pieces] at hmem
    have hin : '\n' ∈ line :=
      (isInfix_trim line).subset (hline ▸ List.mem_append_left _ (List.mem_append_left _ hkey))
    simpa using (mem_pieces hmem).2 _ hin

/-- A text without line ends in its keys is read line by line. -/
theorem parse_serialize_eq_iff_single {items : List Item} (h : ∀ item ∈ items, '\n' ∉ item.1) :
    parse (serialize items) = items ↔ ∀ item ∈ items, Single (shown (lineOf item)) item := by
  rw [parse, lines_serialize h, parseLoop_eq_iff (by simp), List.forall₂_map_left_iff, List.forall₂_same]

theorem parse_serialize_of_clean {items : List Item} (h : ∀ item ∈ items, Clean item) :
    parse (serialize items) = items :=
  (parse_serialize_eq_iff_single fun item hmem => (h item hmem).1.no_newline).2
    fun item hmem => single_of_clean (h item hmem)

/-- **The text of a configuration is read back** exactly if the items are clean. -/
theorem parse_serialize_iff (items : List Item) :
    parse (serialize items) = items ↔ ∀ item ∈ items, Clean item := by
  refine ⟨fun h => ?_, parse_serialize_of_clean⟩
  have hnewline : ∀ item ∈ items, '\n' ∉ item.1 := fun item hmem => not_mem_key_of_mem_parse (h.symm ▸ hmem)
  exact fun item hmem =>
    clean_of_single (hnewline item hmem) ((parse_serialize_eq_iff_single hnewline).1 h item hmem)

end QLog.Property
