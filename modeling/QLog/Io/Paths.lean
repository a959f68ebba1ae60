import QLog.Appender.IndexedFiles
import QLog.Utility.StringUtils

/-!
# Paths

`get_directory_from_path`, `get_file_name_from_path` and `combine_path` of `file_manager.cpp`. Both
splitters take the last slash and the last backslash, neither of them if it is the first character, and of
the two the one further in front. So a path in which both occur is split in front of its file name, and a
path whose only separator is in front is not split at all.

What a path means is `absolute` and `components`; `SameFile` compares two paths. `combinePath` keeps the
components of both its arguments (`components_combinePath`).
-/

namespace QLog.Io

open Utility (splitNonempty splitNonempty_eq_pieces)

/-- `find_last_of` a character, `none` for `npos`. -/
def findLastOf (c : Char) : List Char → Option ℕ
  | [] => none
  | a :: path =>
    match findLastOf c path with
    | some i => some (i + 1)
    | none => if a = c then some 0 else none

/-- `std::min` of two positions; `npos` is above all others. -/
def minPos : Option ℕ → Option ℕ → Option ℕ
  | none, j => j
  | some i, none => some i
  | some i, some j => some (min i j)

/-- The `last_split_pos` of both splitters. -/
def lastSplitPos (path : List Char) : Option ℕ :=
  let lastPos1 := findLastOf '/' path
  let lastPos2 := findLastOf '\\' path
  let lastPos1 := if lastPos1 = some 0 then none else lastPos1
  let lastPos2 := if lastPos2 = some 0 then none else lastPos2
  minPos lastPos1 lastPos2

/-- `std::replace` of backslashes by slashes. -/
def slash (c : Char) : Char := if c = '\\' then '/' else c

/-- `get_directory_from_path`. -/
def getDirectoryFromPath (path : List Char) : List Char :=
  match lastSplitPos path with
  | none => ['.', '/']
  | some pos => (path.take pos).map slash

/-- `get_file_name_from_path`. -/
def getFileNameFromPath (path : List Char) : List Char :=
  match lastSplitPos path with
  | none => path
  | some pos => if pos = path.length - 1 then [] else path.drop (pos + 1)

/-- A turn of the loops of `combine_path`, with `result` and `current_parts`. -/
def appendPart (s : List Char × ℕ) (part : List Char) : List Char × ℕ :=
  (if s.2 ≠ 0 then s.1 ++ ['/'] ++ part else s.1 ++ part, s.2 + 1)

/-- `combine_path`. -/
def combinePath (path1 path2 : List Char) : List Char :=
  let split1 := splitNonempty (path1.map slash) '/'
  let split2 := splitNonempty (path2.map slash) '/'
  let result := (split2.foldl appendPart (split1.foldl appendPart ([], 0))).1
  if path1.head? = some '/' then '/' :: result else result

/-! ## What a path means -/

/-- A separator of a path. -/
def isSeparator (c : Char) : Bool := c == '/' || c == '\\'

/-- A path is absolute if a separator stands in front. -/
def absolute (path : List Char) : Bool := path.head?.any isSeparator

/-- The names on the way. -/
def components (path : List Char) : List (List Char) := pieces isSeparator path

/-- Two paths to the same file: of the same kind, and with the same components. In front of a relative
path `.` is neutral. -/
structure SameFile (path path' : List Char) : Prop where
  absolute_eq : absolute path = absolute path'
  components_eq :
    if absolute path then components path = components path'
    else (components path).dropWhile (· == ['.']) = (components path').dropWhile (· == ['.'])

/-! ## Combined paths -/

theorem slash_of_not {c : Char} (h : isSeparator c = false) : slash c = c := by
  refine if_neg ?_
  rintro rfl
  cases h

/-- Replaced backslashes do not change the names. -/
theorem pieces_slash {p : Char → Bool} (hp : ∀ c, p (slash c) = isSeparator c) (path : List Char) :
    pieces p (path.map slash) = components path := by
  rw [pieces_map, show p ∘ slash = isSeparator from funext hp]
  refine (List.map_congr_left fun piece hpiece => ?_).trans (List.map_id _)
  exact (List.map_congr_left fun c hc => slash_of_not ((mem_pieces hpiece).2 c hc)).trans (List.map_id _)

theorem slash_beq (c : Char) : (slash c == '/') = isSeparator c := by
  unfold slash isSeparator
  split
  · rename_i h
    rw [h]
    rfl
  · rename_i h
    rw [beq_eq_false_iff_ne.2 h, Bool.or_false]

theorem isSeparator_slash (c : Char) : isSeparator (slash c) = isSeparator c := by
  by_cases h : isSeparator c = true
  · rw [← slash_beq] at h
    rw [eq_of_beq h, ← slash_beq c, h]
    rfl
  · rw [slash_of_not (Bool.not_eq_true _ ▸ h)]

theorem splitNonempty_slash (path : List Char) : splitNonempty (path.map slash) '/' = components path := by
  rw [splitNonempty_eq_pieces, pieces_slash slash_beq]

theorem components_map_slash (path : List Char) : components (path.map slash) = components path :=
  pieces_slash isSeparator_slash path

theorem foldl_appendPart (parts : List (List Char)) (first : List Char) (k : ℕ) :
    parts.foldl appendPart (first, k + 1) = (['/'].intercalate (first :: parts), k + 1 + parts.length) := by
  induction parts generalizing first k with
  | nil => rw [List.intercalate_singleton]; rfl
  | cons part parts ih =>
    rw [List.foldl_cons, appendPart, if_pos (Nat.succ_ne_zero k), ih, List.length_cons]
    congr 1
    · cases parts with
      | nil => simp
      | cons part' parts => simp [List.intercalate_cons_cons]
    · omega

/-- The loops of `combine_path` put slashes between the parts. -/
theorem foldl_appendPart_nil (parts : List (List Char)) :
    (parts.foldl appendPart ([], 0)).1 = ['/'].intercalate parts := by
  cases parts with
  | nil => rfl
  | cons part parts =>
    rw [List.foldl_cons, appendPart, if_neg (by simp), List.nil_append, foldl_appendPart]

theorem combinePath_eq (path1 path2 : List Char) : combinePath path1 path2 =
    (if path1.head? = some '/' then ['/'] else []) ++
      ['/'].intercalate (components path1 ++ components path2) := by
  simp only [combinePath, splitNonempty_slash, ← List.foldl_append, foldl_appendPart_nil]
  split <;> rfl

/-- **A combined path has the components of both paths.** -/
theorem components_combinePath (path1 path2 : List Char) :
    components (combinePath path1 path2) = components path1 ++ components path2 := by
  have hparts : ∀ part ∈ components path1 ++ components path2,
      part ≠ [] ∧ ∀ c ∈ part, isSeparator c = false := by
    intro part hpart
    exact (List.mem_append.1 hpart).elim mem_pieces mem_pieces
  have hjoin := pieces_intercalate (show isSeparator '/' = true from rfl) hparts
  rw [combinePath_eq]
  split
  · exact (pieces_cons rfl _).trans hjoin
  · exact hjoin

/-- **A combined path is absolute if a slash stands in front of the first one.** -/
theorem absolute_combinePath (path1 path2 : List Char) :
    absolute (combinePath path1 path2) = (path1.head? == some '/') := by
  rw [combinePath_eq]
  split
  · rename_i h
    rw [h]
    rfl
  · rename_i h
    rw [beq_eq_false_iff_ne.2 h, List.nil_append]
    cases hparts : components path1 ++ components path2 with
    | nil => rfl
    | cons part parts =>
      have hmem : part ∈ components path1 ++ components path2 := hparts ▸ List.mem_cons_self
      obtain ⟨hne, hpart⟩ := (List.mem_append.1 hmem).elim mem_pieces mem_pieces
      cases part with
      | nil => exact absurd rfl hne
      | cons c cs =>
        have hc := hpart c List.mem_cons_self
        cases parts with
        | nil => simpa [absolute] using hc
        | cons part' parts => simpa [absolute, List.intercalate_cons_cons] using hc

/-! ## Split paths -/

theorem findLastOf_of_not_mem {c : Char} {path : List Char} (h : c ∉ path) : findLastOf c path = none := by
  induction path with
  | nil => rfl
  | cons a path ih =>
    rw [findLastOf, ih fun hc => h (List.mem_cons_of_mem _ hc)]
    exact if_neg fun ha : a = c => h (ha ▸ List.mem_cons_self)

theorem findLastOf_append_cons {c : Char} (u : List Char) {v : List Char} (h : c ∉ v) :
    findLastOf c (u ++ c :: v) = some u.length := by
  induction u with
  | nil =>
    rw [List.nil_append, findLastOf, findLastOf_of_not_mem h]
    exact if_pos rfl
  | cons a u ih =>
    rw [List.cons_append, findLastOf, ih]
    rfl

/-- The last place of a character. -/
theorem exists_last_of_mem {c : Char} {path : List Char} (h : c ∈ path) :
    ∃ u v, path = u ++ c :: v ∧ c ∉ v := by
  induction path with
  | nil => cases h
  | cons a path ih =>
    by_cases hc : c ∈ path
    · obtain ⟨u, v, rfl, hv⟩ := ih hc
      exact ⟨a :: u, v, rfl, hv⟩
    · rcases List.mem_cons.1 h with rfl | h
      · exact ⟨[], path, rfl, hc⟩
      · exact absurd h hc

/-- Of two characters the one that is not further in front lies behind the other one. -/
theorem mem_of_append_cons_eq {c d : Char} (hcd : c ≠ d) {u v u' v' : List Char}
    (h : u ++ c :: v = u' ++ d :: v') (hle : u.length ≤ u'.length) : d ∈ v := by
  rcases List.append_eq_append_iff.1 h with ⟨w, rfl, hw⟩ | ⟨w, rfl, hw⟩
  · cases w with
    | nil => exact absurd (List.cons.inj hw).1 hcd
    | cons a w =>
      rw [(List.cons.inj hw).2]
      exact List.mem_append_right _ List.mem_cons_self
  · cases w with
    | nil => exact absurd (List.cons.inj hw).1.symm hcd
    | cons a w =>
      rw [List.length_append, List.length_cons] at hle
      omega

/-- A separator in front does not count. -/
theorem lastSplitPos_cons (a : Char) (path : List Char) : lastSplitPos (a :: path) =
    minPos ((findLastOf '/' path).map (· + 1)) ((findLastOf '\\' path).map (· + 1)) := by
  have hpos : ∀ c, (if findLastOf c (a :: path) = some 0 then none else findLastOf c (a :: path)) =
      (findLastOf c path).map (· + 1) := by
    intro c
    rw [findLastOf]
    cases findLastOf c path with
    | none => by_cases ha : a = c <;> simp [ha]
    | some i => rfl
  simp only [lastSplitPos, hpos]

/-- **Where a path is split** whose first character is followed by a separator: what is behind contains
none unless both separators do. -/
theorem exists_split {a : Char} {path : List Char} (h : ∃ c ∈ path, isSeparator c = true) :
    ∃ u c v, path = u ++ c :: v ∧ isSeparator c = true ∧ lastSplitPos (a :: path) = some (u.length + 1) ∧
      ((∀ x ∈ v, isSeparator x = false) ↔ ¬('/' ∈ path ∧ '\\' ∈ path)) := by
  have hnone : ∀ {v : List Char}, '/' ∉ v → '\\' ∉ v → ∀ x ∈ v, isSeparator x = false := by
    intro v h1 h2 x hx
    rw [isSeparator, Bool.or_eq_false_iff, beq_eq_false_iff_ne, beq_eq_false_iff_ne]
    exact ⟨fun he => h1 (he ▸ hx), fun he => h2 (he ▸ hx)⟩
  rw [lastSplitPos_cons]
  by_cases h1 : '/' ∈ path <;> by_cases h2 : '\\' ∈ path
  · obtain ⟨u, v, hpath, hv⟩ := exists_last_of_mem h1
    obtain ⟨u', v', hpath', hv'⟩ := exists_last_of_mem h2
    have hpos : findLastOf '/' path = some u.length := hpath ▸ findLastOf_append_cons u hv
    have hpos' : findLastOf '\\' path = some u'.length := hpath' ▸ findLastOf_append_cons u' hv'
    have heq := hpath.symm.trans hpath'
    rw [hpos, hpos']
    rcases le_total u.length u'.length with hle | hle
    · have hmem := mem_of_append_cons_eq (by decide) heq hle
      refine ⟨u, '/', v, hpath, rfl, congrArg some (Nat.min_eq_left (Nat.succ_le_succ hle)), ?_⟩
      exact iff_of_false (fun hall => by cases hall _ hmem) fun hn => hn ⟨h1, h2⟩
    · have hmem := mem_of_append_cons_eq (by decide) heq.symm hle
      refine ⟨u', '\\', v', hpath', rfl, congrArg some (Nat.min_eq_right (Nat.succ_le_succ hle)), ?_⟩
      exact iff_of_false (fun hall => by cases hall _ hmem) fun hn => hn ⟨h1, h2⟩
  · obtain ⟨u, v, hpath, hv⟩ := exists_last_of_mem h1
    rw [findLastOf_of_not_mem h2, show findLastOf '/' path = some u.length from
      hpath ▸ findLastOf_append_cons u hv]
    refine ⟨u, '/', v, hpath, rfl, rfl, iff_of_true (hnone hv fun hx => h2 ?_) fun hn => h2 hn.2⟩
    rw [hpath]
    exact List.mem_append_right _ (List.mem_cons_of_mem _ hx)
  · obtain ⟨u, v, hpath, hv⟩ := exists_last_of_mem h2
    rw [findLastOf_of_not_mem h1, show findLastOf '\\' path = some u.length from
      hpath ▸ findLastOf_append_cons u hv]
    refine ⟨u, '\\', v, hpath, rfl, rfl, iff_of_true (hnone (fun hx => h1 ?_) hv) fun hn => h1 hn.1⟩
    rw [hpath]
    exact List.mem_append_right _ (List.mem_cons_of_mem _ hx)
  · obtain ⟨c, hc, hsep⟩ := h
    exact absurd (hnone h1 h2 c hc) (by rw [hsep]; decide)

theorem lastSplitPos_of_forall {a : Char} {path : List Char} (h : ∀ c ∈ path, isSeparator c = false) :
    lastSplitPos (a :: path) = none := by
  rw [lastSplitPos_cons, findLastOf_of_not_mem fun hc => (by cases h _ hc),
    findLastOf_of_not_mem fun hc => (by cases h _ hc)]
  rfl

/-- The path put together again. -/
def recombined (path : List Char) : List Char :=
  combinePath (getDirectoryFromPath path) (getFileNameFromPath path)

/-- A path that is split is put together again, with its components. -/
theorem recombined_of_split {a c : Char} {u v : List Char} (hsep : isSeparator c = true)
    (hpos : lastSplitPos (a :: (u ++ c :: v)) = some (u.length + 1)) :
    getFileNameFromPath (a :: (u ++ c :: v)) = v ∧
      SameFile (recombined (a :: (u ++ c :: v))) (a :: (u ++ c :: v)) := by
  have hfile : getFileNameFromPath (a :: (u ++ c :: v)) = v := by
    have hdrop : (a :: (u ++ c :: v)).drop (u.length + 1 + 1) = v := by simp [List.drop_append]
    rw [getFileNameFromPath, hpos]
    change (if u.length + 1 = (u ++ c :: v).length then [] else (a :: (u ++ c :: v)).drop _) = v
    split
    · rename_i hend
      rw [List.length_append, List.length_cons] at hend
      have hv : v.length = 0 := by omega
      exact (List.length_eq_zero_iff.1 hv).symm
    · exact hdrop
  have hdir : getDirectoryFromPath (a :: (u ++ c :: v)) = (a :: u).map slash := by
    rw [getDirectoryFromPath, hpos]
    simp
  have habs : absolute (recombined (a :: (u ++ c :: v))) = isSeparator a := by
    rw [recombined, absolute_combinePath, hdir, ← slash_beq a]
    rfl
  have hcomp : components (recombined (a :: (u ++ c :: v))) = components (a :: (u ++ c :: v)) := by
    rw [recombined, components_combinePath, hdir, hfile, components_map_slash, ← List.cons_append]
    exact (pieces_append_cons hsep (a :: u) v).symm
  refine ⟨hfile, habs, ?_⟩
  rw [hcomp]
  split <;> rfl

/-- A path without separators behind its first character is not split. It is put together again unless the
first character is one. -/
theorem recombined_of_forall {a : Char} {path : List Char} (h : ∀ c ∈ path, isSeparator c = false) :
    getFileNameFromPath (a :: path) = a :: path ∧
      (SameFile (recombined (a :: path)) (a :: path) ↔ isSeparator a = false) := by
  have hpos := lastSplitPos_of_forall (a := a) h
  have hfile : getFileNameFromPath (a :: path) = a :: path := by rw [getFileNameFromPath, hpos]
  have hdir : getDirectoryFromPath (a :: path) = ['.', '/'] := by rw [getDirectoryFromPath, hpos]
  have habs : absolute (recombined (a :: path)) = false := by
    rw [recombined, absolute_combinePath, hdir]
    rfl
  refine ⟨hfile, fun hsame => hsame.absolute_eq.symm.trans habs, fun ha => ⟨habs.trans ha.symm, ?_⟩⟩
  rw [habs, if_neg Bool.false_ne_true, recombined, components_combinePath, hdir, hfile]
  rfl

/-- Which paths are put together again. -/
theorem sameFile_recombined_iff (path : List Char) : SameFile (recombined path) path ↔
    (absolute path = true → ∃ c ∈ path.tail, isSeparator c = true) := by
  cases path with
  | nil => exact iff_of_true ⟨by decide, by decide⟩ fun h => by cases h
  | cons a path =>
    by_cases h : ∃ c ∈ path, isSeparator c = true
    · obtain ⟨u, c, v, rfl, hsep, hpos, -⟩ := exists_split (a := a) h
      exact iff_of_true (recombined_of_split hsep hpos).2 fun _ => h
    · have hall : ∀ c ∈ path, isSeparator c = false := by
        intro c hc
        exact Bool.eq_false_of_not_eq_true fun hsep => h ⟨c, hc, hsep⟩
      rw [(recombined_of_forall hall).2]
      exact ⟨fun ha habs => absurd (habs.symm.trans ha) (by decide),
        fun hw => Bool.eq_false_of_not_eq_true fun ha => h (hw ha)⟩

/-- **Splitting and joining paths.** For every path, the file name contains no separator and directory and
file name give the same file again exactly if slash and backslash do not both occur behind the first
character and a separator in front is not the only one. -/
theorem path_split_join_iff (path : List Char) :
    ((∀ c ∈ getFileNameFromPath path, isSeparator c = false) ∧
        SameFile (combinePath (getDirectoryFromPath path) (getFileNameFromPath path)) path) ↔
      ¬('/' ∈ path.tail ∧ '\\' ∈ path.tail) ∧
        (absolute path = true → ∃ c ∈ path.tail, isSeparator c = true) := by
  rw [← recombined, sameFile_recombined_iff]
  refine and_congr_left fun hw => ?_
  cases path with
  | nil => exact iff_of_true (fun c hc => (List.not_mem_nil hc).elim) fun h => (List.not_mem_nil h.1).elim
  | cons a path =>
    by_cases h : ∃ c ∈ path, isSeparator c = true
    · obtain ⟨u, c, v, hpath, hsep, hpos, hiff⟩ := exists_split (a := a) h
      rw [List.tail_cons, ← hiff]
      subst hpath
      rw [(recombined_of_split hsep hpos).1]
    · have hall : ∀ c ∈ path, isSeparator c = false := by
        intro c hc
        exact Bool.eq_false_of_not_eq_true fun hsep => h ⟨c, hc, hsep⟩
      rw [(recombined_of_forall hall).1]
      refine iff_of_true (List.forall_mem_cons.2 ⟨?_, hall⟩) fun hn => ?_
      · exact Bool.eq_false_of_not_eq_true fun ha => h (hw ha)
      · cases hall _ hn.1

/-- The file name of `a/b\c` contains a separator, and `/a` becomes a relative path with one in its file
name. -/
theorem path_split_join_fails :
    getFileNameFromPath ['a', '/', 'b', '\\', 'c'] = ['b', '\\', 'c'] ∧
      ¬(∀ c ∈ getFileNameFromPath ['a', '/', 'b', '\\', 'c'], isSeparator c = false) ∧
      getFileNameFromPath ['/', 'a'] = ['/', 'a'] ∧
      ¬(∀ c ∈ getFileNameFromPath ['/', 'a'], isSeparator c = false) ∧
      combinePath (getDirectoryFromPath ['/', 'a']) (getFileNameFromPath ['/', 'a']) = ['.', '/', 'a'] ∧
      ¬SameFile (combinePath (getDirectoryFromPath ['/', 'a']) (getFileNameFromPath ['/', 'a']))
        ['/', 'a'] := by
  refine ⟨by decide, fun h => ?_, by decide, fun h => ?_, by decide, fun h => ?_⟩
  · cases h '\\' (List.mem_cons_of_mem _ List.mem_cons_self)
  · cases h '/' List.mem_cons_self
  · exact absurd h.absolute_eq (by decide)

/-! ## The search for indexed files -/

/-- **No index is found under a file name with a separator**: no entry of a directory begins with it. So
such an appender takes the first index again whenever it opens its files anew. -/
theorem maxIndex_of_separator {cfg : Appender.FileConfig} {dir : Appender.Directory} {c : Char}
    (hc : c ∈ cfg.fileName) (hdir : ∀ e ∈ dir.entries, c ∉ e.1) (timeStr : List Char) :
    Appender.maxIndex cfg (cfg.fileName ++ timeStr) dir = 0 := by
  have hturn : ∀ names : List (List Char), (∀ name ∈ names, c ∉ name) →
      names.foldl (Appender.maxIndexTurn cfg (cfg.fileName ++ timeStr)) 0 = 0 := by
    intro names
    induction names with
    | nil => exact fun _ => rfl
    | cons name names ih =>
      intro hnames
      obtain ⟨hname, hrest⟩ := List.forall_mem_cons.1 hnames
      have hstem : ¬(cfg.fileName ++ timeStr <+: name ∧ cfg.extName <:+ name) := by
        rintro ⟨hstart, -⟩
        exact hname (hstart.subset (List.mem_append_left _ hc))
      rw [List.foldl_cons, Appender.maxIndexTurn, if_neg hstem]
      exact ih hrest
  refine hturn _ fun name hname => ?_
  obtain ⟨e, he, rfl⟩ := List.mem_map.1 hname
  exact hdir e he

end QLog.Io
