import QLog.Appender.Rolling

/-!
# Old files

A model of `clear_all_expired_files` and `clear_all_limit_files`, which `open_new_indexed_file_by_name` calls
before it looks for an index. A file whose name is that of a file of the appender is removed when the time
for which files are kept is over; and when the files that are left come to the capacity, the oldest ones are
removed until they are below it again. `std::sort` is free in the order of files of one age, so the sorting
is a parameter with its contract, `Sorting`.

The state of the appender, `RollingState`, is joined by what the file system knows of a file: its size and
the time of its last modification. `retention_safe` says what the two functions are for: over whole runs the
files stay below the capacity but for one file and one write of the cache, no other file of the directory is
touched, and what is removed is expired or stands in the way.
-/

namespace QLog.Appender

/-- What the configuration says about the files and how long they are kept. -/
structure RetentionConfig extends FileConfig where
  expireTimeMs : ℕ
  capacityLimit : ℕ

/-- An element of `sort_list`. -/
structure Cell where
  lastModified : ℕ
  name : List Char
  size : ℕ

/-- What `std::sort` promises about the list of cells. -/
structure Sorting where
  sort : List Cell → List Cell
  perm : ∀ cells, (sort cells).Perm cells
  sorted : ∀ cells, (sort cells).Pairwise fun c c' => c.lastModified ≤ c'.lastModified

/-- What a call of `open_new_indexed_file_by_name` meets: the date and the time, the names that can be
removed, those whose size can be read, the sorting, the names that can be opened and those of the files that
can be parsed. -/
structure Visit where
  date : List Char
  now : ℕ
  removable : List Char → Bool
  sizeKnown : List Char → Bool
  sorting : Sorting
  opens : List Char → Bool
  parses : List Char → Bool

/-- The names that begin with `file_prefix` and end with the extension. -/
def FileConfig.isLogName (cfg : FileConfig) (name : List Char) : Bool :=
  (cfg.fileName ++ ['_']) <+: name && cfg.extName <:+ name

/-- `remove_file_or_dir`. -/
def Directory.remove (dir : Directory) (v : Visit) (name : List Char) : Directory :=
  if v.removable name then dir.cleared (· != name) else dir

/-- The files with their sizes and the times of their last modification, 0 if it is not known. -/
structure Disk where
  dir : Directory
  size : ℕ → ℕ
  lastModified : ℕ → ℕ

section Clear

variable (cfg : RetentionConfig) (v : Visit)

/-- Whether a file has been kept long enough. -/
def Disk.expired (disk : Disk) (f : ℕ) : Bool :=
  disk.lastModified f != 0 && (disk.lastModified f + cfg.expireTimeMs) % 2 ^ 64 ≤ v.now

/-- A turn of the loop in `clear_all_expired_files`. -/
def Disk.expiredTurn (disk : Disk) (dir : Directory) (e : List Char × ℕ) : Directory :=
  if cfg.isLogName e.1 && disk.expired cfg v e.2 then dir.remove v e.1 else dir

/-- `clear_all_expired_files`. -/
def Disk.clearAllExpiredFiles (disk : Disk) : Disk :=
  if cfg.expireTimeMs = 0 then disk
  else { disk with dir := disk.dir.entries.foldl (disk.expiredTurn cfg v) disk.dir }

/-- `sort_list` before it is sorted. -/
def Disk.sortList (disk : Disk) : List Cell :=
  (disk.dir.entries.filter fun e => cfg.isLogName e.1 && v.sizeKnown e.1).map fun e =>
    ⟨disk.lastModified e.2, e.1, disk.size e.2⟩

/-- `file_sum_size`. -/
def fileSumSize (cells : List Cell) : ℕ := cells.foldl (fun sum c => (sum + c.size) % 2 ^ 64) 0

/-- The loop that removes the oldest files. -/
def limitLoop : List Cell → ℕ → Directory → Directory
  | [], _, dir => dir
  | c :: cells, sum, dir =>
    let dir := dir.remove v c.name
    let sum := (sum + 2 ^ 64 - c.size) % 2 ^ 64
    if sum < cfg.capacityLimit then dir else limitLoop cells sum dir

/-- `clear_all_limit_files`. -/
def Disk.clearAllLimitFiles (disk : Disk) : Disk :=
  if cfg.capacityLimit = 0 then disk
  else
    let cells := disk.sortList cfg v
    if cfg.capacityLimit ≤ fileSumSize cells then
      { disk with dir := limitLoop cfg v (v.sorting.sort cells) (fileSumSize cells) disk.dir }
    else disk

/-- What the two functions leave. -/
def Disk.clear (disk : Disk) : Disk := (disk.clearAllExpiredFiles cfg v).clearAllLimitFiles cfg v

/-- What the search for an index meets then. -/
def Visit.opening (disk : Disk) : Opening where
  timeStr := '_' :: (v.date ++ ['_'])
  keeps name := (disk.clear cfg v).dir.entries.any (·.1 == name)
  opens := v.opens
  size name := (((disk.clear cfg v).dir.find name).map disk.size).getD 0
  parses := v.parses

end Clear

/-- The appender and the files; `pending` counts the bytes that have gone into the open file since the last
record arrived. -/
structure RetentionState where
  rolling : RollingState
  size : ℕ → ℕ
  lastModified : ℕ → ℕ
  pending : ℕ

def RetentionState.disk (s : RetentionState) : Disk := ⟨s.rolling.dir, s.size, s.lastModified⟩

/-- `current_file_size_`. -/
def RetentionState.currentFileSize (s : RetentionState) : ℕ := (s.rolling.file.map s.size).getD 0

/-- What happens to the appender: a record arrives, the cache is written to the open file, or this fails. -/
inductive RetentionEvent
  | record (timestamp : UInt64) (v : Visit)
  | write (n now : ℕ)
  | writeError (v : Visit)

/-- The appender after a call that may have opened a file; a new file is modified now. -/
def RetentionState.refreshed (s : RetentionState) (now : ℕ) (r : RollingState) : RetentionState :=
  { s with
    rolling := r
    lastModified := fun f => if s.rolling.dir.next ≤ f then now else s.lastModified f
    pending := 0 }

/-- `write_file`: the open file grows. -/
def RetentionState.write (s : RetentionState) (n now : ℕ) : RetentionState :=
  match s.rolling.file with
  | some f =>
    { s with
      size := Function.update s.size f (s.size f + n)
      lastModified := Function.update s.lastModified f now
      pending := s.pending + n }
  | none => s

/-- One event. -/
def retentionStep (cfg : RetentionConfig) (z : ZoneOffset) (s : RetentionState) :
    RetentionEvent → Option RetentionState
  | .record timestamp v =>
    (rollingStep cfg.toFileConfig z s.rolling
      (.record timestamp s.currentFileSize (v.opening cfg s.disk))).map (s.refreshed v.now)
  | .writeError v =>
    (rollingStep cfg.toFileConfig z s.rolling (.writeError (v.opening cfg s.disk))).map
      (s.refreshed v.now)
  | .write n now => some (s.write n now)

/-! ## What is removed -/

/-- Some names are removed. -/
def Directory.Clears (dir dir' : Directory) : Prop := ∃ keeps, dir' = dir.cleared keeps

namespace Directory

variable {dir dir' dir'' : Directory} {v : Visit} {name : List Char}

@[simp] theorem mem_cleared {keeps : List Char → Bool} {e : List Char × ℕ} :
    e ∈ (dir.cleared keeps).entries ↔ e ∈ dir.entries ∧ keeps e.1 = true := by
  simp [cleared]

@[simp] theorem cleared_next (keeps : List Char → Bool) : (dir.cleared keeps).next = dir.next := rfl

theorem cleared_congr {keeps keeps' : List Char → Bool} (h : ∀ e ∈ dir.entries, keeps e.1 = keeps' e.1) :
    dir.cleared keeps = dir.cleared keeps' := by
  unfold cleared
  congr 1
  exact List.filter_congr h

theorem Clears.refl (dir : Directory) : dir.Clears dir := ⟨fun _ => true, by simp [cleared]⟩

theorem Clears.trans (h : dir.Clears dir') (h' : dir'.Clears dir'') : dir.Clears dir'' := by
  obtain ⟨keeps, rfl⟩ := h
  obtain ⟨keeps', rfl⟩ := h'
  exact ⟨fun n => keeps' n && keeps n, by simp [cleared, List.filter_filter]⟩

theorem clears_remove (dir : Directory) (v : Visit) (name : List Char) : dir.Clears (dir.remove v name) := by
  unfold remove
  split
  · exact ⟨_, rfl⟩
  · exact Clears.refl dir

theorem mem_remove {e : List Char × ℕ} : e ∈ (dir.remove v name).entries ↔
    e ∈ dir.entries ∧ ¬(v.removable name = true ∧ e.1 = name) := by
  unfold remove
  split <;> simp_all

theorem Clears.mem (h : dir.Clears dir') {e : List Char × ℕ} (he : e ∈ dir'.entries) : e ∈ dir.entries := by
  obtain ⟨keeps, rfl⟩ := h
  exact (mem_cleared.1 he).1

theorem Clears.sublist (h : dir.Clears dir') : dir'.entries.Sublist dir.entries := by
  obtain ⟨keeps, rfl⟩ := h
  exact List.filter_sublist

/-- The names that are left say which ones were removed. -/
theorem Clears.cleared_any (h : dir.Clears dir') :
    (dir.cleared fun name => dir'.entries.any (·.1 == name)) = dir' := by
  obtain ⟨keeps, rfl⟩ := h
  refine cleared_congr fun e he => ?_
  rw [Bool.eq_iff_iff, List.any_eq_true]
  constructor
  · rintro ⟨e', he', heq⟩
    rw [← eq_of_beq heq]
    exact (mem_cleared.1 he').2
  · exact fun hk => ⟨e, mem_cleared.2 ⟨he, hk⟩, beq_self_eq_true _⟩

end Directory

section Clear

variable {cfg : RetentionConfig} {v : Visit} {disk : Disk}

theorem clears_foldl_expiredTurn (es : List (List Char × ℕ)) (dir : Directory) :
    dir.Clears (es.foldl (disk.expiredTurn cfg v) dir) := by
  induction es generalizing dir with
  | nil => exact Directory.Clears.refl dir
  | cons e es ih =>
    refine Directory.Clears.trans ?_ (ih _)
    unfold Disk.expiredTurn
    split
    · exact Directory.clears_remove _ _ _
    · exact Directory.Clears.refl dir

/-- A file that is missing after the loop has the name of one that has been kept long enough. -/
theorem exists_expired_of_not_mem {es : List (List Char × ℕ)} {dir : Directory} {e : List Char × ℕ}
    (he : e ∈ dir.entries) (hnot : e ∉ (es.foldl (disk.expiredTurn cfg v) dir).entries) :
    ∃ e' ∈ es, e'.1 = e.1 ∧ cfg.isLogName e'.1 = true ∧ disk.expired cfg v e'.2 = true := by
  induction es generalizing dir with
  | nil => exact absurd he hnot
  | cons a es ih =>
    by_cases hmem : e ∈ (disk.expiredTurn cfg v dir a).entries
    · obtain ⟨e', he', h⟩ := ih hmem hnot
      exact ⟨e', List.mem_cons_of_mem _ he', h⟩
    · unfold Disk.expiredTurn at hmem
      split at hmem
      · rename_i hcond
        rw [Directory.mem_remove] at hmem
        have hname : a.1 = e.1 := by
          by_contra hne
          exact hmem ⟨he, fun h => hne h.2.symm⟩
        rw [Bool.and_eq_true] at hcond
        exact ⟨a, List.mem_cons_self, hname, hcond⟩
      · exact absurd he hmem

/-- The sizes of the cells. -/
def total (cells : List Cell) : ℕ := (cells.map Cell.size).sum

@[simp] theorem total_nil : total [] = 0 := rfl

@[simp] theorem total_cons (c : Cell) (cells : List Cell) : total (c :: cells) = c.size + total cells :=
  List.sum_cons

@[simp] theorem total_append (cs cs' : List Cell) : total (cs ++ cs') = total cs + total cs' := by
  simp [total]

theorem total_perm {cs cs' : List Cell} (h : cs.Perm cs') : total cs = total cs' :=
  (h.map Cell.size).sum_eq

theorem total_le_of_sublist {cs cs' : List Cell} (h : cs.Sublist cs') : total cs ≤ total cs' :=
  (h.map Cell.size).sum_le_sum fun _ _ => Nat.zero_le _

theorem fileSumSize_eq {cells : List Cell} (h : total cells < 2 ^ 64) : fileSumSize cells = total cells := by
  suffices ∀ n, n + total cells < 2 ^ 64 →
      cells.foldl (fun sum c => (sum + c.size) % 2 ^ 64) n = n + total cells by
    simpa [fileSumSize] using this 0 (by simpa using h)
  clear h
  induction cells with
  | nil => simp
  | cons c cells ih =>
    intro n hn
    rw [total_cons] at hn ⊢
    rw [List.foldl_cons, Nat.mod_eq_of_lt (by omega), ih _ (by omega)]
    omega

/-- The names of the cells are removed. -/
def removeAll (v : Visit) (cells : List Cell) (dir : Directory) : Directory :=
  cells.foldl (fun dir c => dir.remove v c.name) dir

theorem clears_removeAll (cells : List Cell) (dir : Directory) : dir.Clears (removeAll v cells dir) := by
  induction cells generalizing dir with
  | nil => exact Directory.Clears.refl dir
  | cons c cells ih => exact (Directory.clears_remove dir v c.name).trans (ih _)

theorem mem_removeAll {cells : List Cell} {dir : Directory} {e : List Char × ℕ} :
    e ∈ (removeAll v cells dir).entries ↔
      e ∈ dir.entries ∧ ∀ c ∈ cells, ¬(v.removable c.name = true ∧ e.1 = c.name) := by
  induction cells generalizing dir with
  | nil => simp [removeAll]
  | cons c cells ih =>
    rw [removeAll, List.foldl_cons, ← removeAll, ih, Directory.mem_remove]
    simp only [List.forall_mem_cons, and_assoc]

/-- **The loop takes the shortest list of oldest files** that brings the rest below the capacity. -/
theorem limitLoop_spec (hcap : 0 < cfg.capacityLimit) {cells : List Cell} (hlt : total cells < 2 ^ 64)
    (hle : cfg.capacityLimit ≤ total cells) (dir : Directory) :
    ∃ k, limitLoop cfg v cells (total cells) dir = removeAll v (cells.take k) dir ∧
      total (cells.drop k) < cfg.capacityLimit ∧ ∀ j < k, cfg.capacityLimit ≤ total (cells.drop j) := by
  induction cells generalizing dir with
  | nil => exact absurd (hcap.trans_le hle) (lt_irrefl 0)
  | cons c cells ih =>
    rw [total_cons] at hlt
    have hsum : (total (c :: cells) + 2 ^ 64 - c.size) % 2 ^ 64 = total cells := by
      rw [total_cons, show c.size + total cells + 2 ^ 64 - c.size = total cells + 2 ^ 64 by omega,
        Nat.add_mod_right, Nat.mod_eq_of_lt (by omega)]
    simp only [limitLoop, hsum]
    split
    · rename_i hbelow
      refine ⟨1, rfl, hbelow, fun j hj => ?_⟩
      obtain rfl : j = 0 := by omega
      exact hle
    · rename_i habove
      obtain ⟨k, hloop, hbelow, hmin⟩ := ih (by omega) (not_lt.1 habove) (dir.remove v c.name)
      refine ⟨k + 1, hloop, hbelow, fun j hj => ?_⟩
      cases j with
      | zero => exact hle
      | succ j => exact hmin j (by omega)

/-! ## The disk -/

/-- The bytes in the files of the appender. -/
def Disk.used (cfg : RetentionConfig) (disk : Disk) : ℕ :=
  ((disk.dir.entries.filter fun e => cfg.isLogName e.1).map fun e => disk.size e.2).sum

/-- The other files of the directory. -/
def Directory.others (cfg : RetentionConfig) (dir : Directory) : List (List Char × ℕ) :=
  dir.entries.filter fun e => !cfg.isLogName e.1

/-- The files that are no older than this one come to the capacity. -/
def Disk.Displaced (cfg : RetentionConfig) (disk : Disk) (f : ℕ) : Prop :=
  cfg.capacityLimit ≤ ((disk.dir.entries.filter fun e =>
    cfg.isLogName e.1 && decide (disk.lastModified f ≤ disk.lastModified e.2)).map fun e => disk.size e.2).sum

/-- The files of the appender can be measured and removed. -/
def Visit.Admits (cfg : RetentionConfig) (v : Visit) : Prop :=
  ∀ name, cfg.isLogName name = true → v.removable name = true ∧ v.sizeKnown name = true

/-- Names and files are distinct, and what is not there has no size. -/
structure Disk.Sound (disk : Disk) : Prop where
  names : (disk.dir.entries.map Prod.fst).Nodup
  files : (disk.dir.entries.map Prod.snd).Nodup
  fresh : ∀ f, disk.dir.next ≤ f → disk.size f = 0

theorem mem_sortList {c : Cell} : c ∈ disk.sortList cfg v ↔ ∃ e ∈ disk.dir.entries,
    cfg.isLogName e.1 = true ∧ v.sizeKnown e.1 = true ∧
      (⟨disk.lastModified e.2, e.1, disk.size e.2⟩ : Cell) = c := by
  simp [Disk.sortList, and_assoc]

theorem Visit.Admits.filter_eq (h : v.Admits cfg) (es : List (List Char × ℕ)) :
    (es.filter fun e => cfg.isLogName e.1 && v.sizeKnown e.1) = es.filter fun e => cfg.isLogName e.1 := by
  refine List.filter_congr fun e _ => ?_
  cases hlog : cfg.isLogName e.1 with
  | true => simp [(h e.1 hlog).2]
  | false => rfl

theorem total_sortList (h : v.Admits cfg) : total (disk.sortList cfg v) = disk.used cfg := by
  simp [total, Disk.sortList, Disk.used, h.filter_eq, Function.comp_def]

/-- What `clear_all_limit_files` does. -/
theorem clearAllLimitFiles_spec (hcap : 0 < cfg.capacityLimit) (h : v.Admits cfg)
    (hused : disk.used cfg < 2 ^ 64) :
    ∃ k, (disk.clearAllLimitFiles cfg v =
        { disk with dir := removeAll v ((v.sorting.sort (disk.sortList cfg v)).take k) disk.dir }) ∧
      total ((v.sorting.sort (disk.sortList cfg v)).drop k) < cfg.capacityLimit ∧
      ∀ j < k, cfg.capacityLimit ≤ total ((v.sorting.sort (disk.sortList cfg v)).drop j) := by
  have hperm := total_perm (v.sorting.perm (disk.sortList cfg v))
  have htotal : total (disk.sortList cfg v) = disk.used cfg := total_sortList h
  unfold Disk.clearAllLimitFiles
  simp only [fileSumSize_eq (htotal ▸ hused)]
  rw [if_neg hcap.ne']
  split
  · rename_i hle
    obtain ⟨k, hloop, hbelow, hmin⟩ := limitLoop_spec (v := v) hcap (by rw [hperm, htotal]; exact hused)
      (by rwa [hperm]) disk.dir
    rw [hperm] at hloop
    exact ⟨k, by rw [hloop], hbelow, hmin⟩
  · rename_i hgt
    refine ⟨0, rfl, ?_, fun j hj => absurd hj (Nat.not_lt_zero j)⟩
    rw [List.drop_zero, hperm]
    exact not_le.1 hgt

/-- **The oldest files make room**: what is left of the files of the appender is below the capacity. -/
theorem used_clearAllLimitFiles (hcap : 0 < cfg.capacityLimit) (h : v.Admits cfg)
    (hused : disk.used cfg < 2 ^ 64) : (disk.clearAllLimitFiles cfg v).used cfg < cfg.capacityLimit := by
  obtain ⟨k, hclear, hbelow, -⟩ := clearAllLimitFiles_spec hcap h hused
  generalize hS : v.sorting.sort (disk.sortList cfg v) = S at *
  have hperm : S.Perm (disk.sortList cfg v) := hS ▸ v.sorting.perm _
  -- a cell stays if its name is not among the removed ones
  let stays : Cell → Bool := fun c => decide (∀ c' ∈ S.take k, c.name ≠ c'.name)
  have hremoved : ∀ c ∈ S.take k, v.removable c.name = true := by
    intro c hc
    obtain ⟨e, -, hlog, -, rfl⟩ := mem_sortList.1 (hperm.subset (List.mem_of_mem_take hc))
    exact (h e.1 hlog).1
  have hleft : (removeAll v (S.take k) disk.dir).entries.filter (fun e => cfg.isLogName e.1) =
      (disk.dir.entries.filter fun e => cfg.isLogName e.1).filter fun e =>
        stays ⟨disk.lastModified e.2, e.1, disk.size e.2⟩ := by
    obtain ⟨keeps, hkeeps⟩ := clears_removeAll (v := v) (S.take k) disk.dir
    have hmem : ∀ e, e ∈ (removeAll v (S.take k) disk.dir).entries ↔
        e ∈ disk.dir.entries ∧ ∀ c ∈ S.take k, ¬(v.removable c.name = true ∧ e.1 = c.name) :=
      fun _ => mem_removeAll
    rw [hkeeps] at hmem ⊢
    simp only [Directory.mem_cleared] at hmem
    rw [Directory.cleared, List.filter_filter, List.filter_filter]
    refine List.filter_congr fun e he => ?_
    rw [Bool.and_comm]
    congr 1
    rw [Bool.eq_iff_iff]
    refine (and_iff_right he).symm.trans ((hmem e).trans ((and_iff_right he).trans ?_))
    rw [decide_eq_true_iff]
    exact forall₂_congr fun c hc => by simp [hremoved c hc]
  calc (disk.clearAllLimitFiles cfg v).used cfg
      = total ((disk.sortList cfg v).filter stays) := by
        rw [hclear, Disk.used, hleft, Disk.sortList, h.filter_eq, List.filter_map, total, List.map_map]
        rfl
    _ = total (S.filter stays) := total_perm (hperm.symm.filter stays)
    _ = total ((S.drop k).filter stays) := by
        conv_lhs => rw [← List.take_append_drop k S]
        rw [List.filter_append, total_append, List.filter_eq_nil_iff.2, total_nil, Nat.zero_add]
        exact fun c hc => by simpa [stays] using ⟨c, hc, rfl⟩
    _ ≤ total (S.drop k) := total_le_of_sublist List.filter_sublist
    _ < cfg.capacityLimit := hbelow

theorem clears_clearAllExpiredFiles (cfg : RetentionConfig) (v : Visit) (disk : Disk) :
    disk.dir.Clears (disk.clearAllExpiredFiles cfg v).dir := by
  unfold Disk.clearAllExpiredFiles
  split
  · exact Directory.Clears.refl _
  · exact clears_foldl_expiredTurn _ _

theorem clears_limitLoop (cells : List Cell) (sum : ℕ) (dir : Directory) :
    dir.Clears (limitLoop cfg v cells sum dir) := by
  induction cells generalizing sum dir with
  | nil => exact Directory.Clears.refl dir
  | cons c cells ih =>
    simp only [limitLoop]
    split
    · exact Directory.clears_remove dir v c.name
    · exact (Directory.clears_remove dir v c.name).trans (ih _ _)

theorem clears_clearAllLimitFiles (cfg : RetentionConfig) (v : Visit) (disk : Disk) :
    disk.dir.Clears (disk.clearAllLimitFiles cfg v).dir := by
  unfold Disk.clearAllLimitFiles
  simp only
  split
  · exact Directory.Clears.refl _
  · split
    · exact clears_limitLoop _ _ _
    · exact Directory.Clears.refl _

theorem clears_clear (cfg : RetentionConfig) (v : Visit) (disk : Disk) :
    disk.dir.Clears (disk.clear cfg v).dir :=
  (clears_clearAllExpiredFiles cfg v disk).trans (clears_clearAllLimitFiles cfg v _)

@[simp] theorem clearAllExpiredFiles_size : (disk.clearAllExpiredFiles cfg v).size = disk.size := by
  unfold Disk.clearAllExpiredFiles
  split <;> rfl

@[simp] theorem clearAllExpiredFiles_lastModified :
    (disk.clearAllExpiredFiles cfg v).lastModified = disk.lastModified := by
  unfold Disk.clearAllExpiredFiles
  split <;> rfl

@[simp] theorem clearAllLimitFiles_size : (disk.clearAllLimitFiles cfg v).size = disk.size := by
  unfold Disk.clearAllLimitFiles
  simp only
  split_ifs <;> rfl

@[simp] theorem clear_size : (disk.clear cfg v).size = disk.size := by simp [Disk.clear]

theorem used_le_of_clears {disk' : Disk} (h : disk.dir.Clears disk'.dir) (hsize : disk'.size = disk.size) :
    disk'.used cfg ≤ disk.used cfg := by
  unfold Disk.used
  rw [hsize]
  exact ((h.sublist.filter _).map _).sum_le_sum fun _ _ => Nat.zero_le _

theorem used_clear (hcap : 0 < cfg.capacityLimit) (h : v.Admits cfg) (hused : disk.used cfg < 2 ^ 64) :
    (disk.clear cfg v).used cfg < cfg.capacityLimit :=
  used_clearAllLimitFiles hcap h
    ((used_le_of_clears (clears_clearAllExpiredFiles cfg v disk) clearAllExpiredFiles_size).trans_lt hused)

/-- The cells from one on in the sorted list are no older, so a file that is removed stands in the way. -/
theorem displaced_of_removed {S : List Cell} (hperm : S.Perm (disk.sortList cfg v))
    (hsorted : S.Pairwise fun c c' => c.lastModified ≤ c'.lastModified) {k : ℕ}
    (hmin : ∀ j < k, cfg.capacityLimit ≤ total (S.drop j)) {c : Cell} (hc : c ∈ S.take k) :
    cfg.capacityLimit ≤
      total ((disk.sortList cfg v).filter fun c' => decide (c.lastModified ≤ c'.lastModified)) := by
  obtain ⟨j, hj, rfl⟩ := List.mem_iff_getElem.1 hc
  have hjk : j < k := (hj.trans_le (List.length_take_le k S))
  have hjS : j < S.length := hj.trans_le (by simp)
  rw [List.getElem_take]
  have hdrop : S.drop j = S[j] :: S.drop (j + 1) := List.drop_eq_getElem_cons hjS
  have hnewer : ∀ c' ∈ S.drop j, S[j].lastModified ≤ c'.lastModified := by
    have h := hsorted.sublist (List.drop_sublist j S)
    rw [hdrop, List.pairwise_cons] at h
    intro c' hc'
    rw [hdrop] at hc'
    rcases List.mem_cons.1 hc' with rfl | hc'
    · exact le_refl _
    · exact h.1 c' hc'
  calc cfg.capacityLimit ≤ total (S.drop j) := hmin j hjk
    _ = total ((S.drop j).filter fun c' => decide (S[j].lastModified ≤ c'.lastModified)) := by
        rw [List.filter_eq_self.2 fun c' hc' => decide_eq_true (hnewer c' hc')]
    _ ≤ total (S.filter fun c' => decide (S[j].lastModified ≤ c'.lastModified)) :=
        total_le_of_sublist ((List.drop_sublist j S).filter _)
    _ = _ := total_perm (hperm.filter _)

/-- **What is missing** has the name of a file that is expired or stands in the way. -/
theorem exists_removed_of_not_mem (h : v.Admits cfg) (hused : disk.used cfg < 2 ^ 64)
    {e : List Char × ℕ} (he : e ∈ disk.dir.entries) (hnot : e ∉ (disk.clear cfg v).dir.entries) :
    ∃ e' ∈ disk.dir.entries, e'.1 = e.1 ∧ cfg.isLogName e'.1 = true ∧
      ((cfg.expireTimeMs ≠ 0 ∧ disk.expired cfg v e'.2 = true) ∨
        (cfg.capacityLimit ≠ 0 ∧ disk.Displaced cfg e'.2)) := by
  by_cases hmem : e ∈ (disk.clearAllExpiredFiles cfg v).dir.entries
  · have hclears := clears_clearAllExpiredFiles cfg v disk
    have hle : (disk.clearAllExpiredFiles cfg v).used cfg ≤ disk.used cfg :=
      used_le_of_clears hclears clearAllExpiredFiles_size
    have hsize : (disk.clearAllExpiredFiles cfg v).size = disk.size := clearAllExpiredFiles_size
    have hlast : (disk.clearAllExpiredFiles cfg v).lastModified = disk.lastModified :=
      clearAllExpiredFiles_lastModified
    rw [Disk.clear] at hnot
    generalize disk.clearAllExpiredFiles cfg v = disk₁ at *
    by_cases hcap : cfg.capacityLimit = 0
    · rw [Disk.clearAllLimitFiles, if_pos hcap] at hnot
      exact absurd hmem hnot
    · obtain ⟨k, hclear, -, hmin⟩ :=
        clearAllLimitFiles_spec (Nat.pos_of_ne_zero hcap) h (hle.trans_lt hused)
      rw [hclear, mem_removeAll] at hnot
      simp only [hmem, true_and, not_forall, not_not] at hnot
      obtain ⟨c, hc, -, hname⟩ := hnot
      have hperm := v.sorting.perm (disk₁.sortList cfg v)
      have hroom := displaced_of_removed hperm (v.sorting.sorted _) hmin hc
      obtain ⟨e', he', hlog, -, rfl⟩ := mem_sortList.1 (hperm.subset (List.mem_of_mem_take hc))
      refine ⟨e', hclears.mem he', hname.symm, hlog, Or.inr ⟨hcap, hroom.trans ?_⟩⟩
      rw [Disk.sortList, h.filter_eq, List.filter_map, total, List.map_map, List.filter_filter, hlast, hsize]
      refine (((hclears.sublist.filter _).map _).sum_le_sum fun _ _ => Nat.zero_le _).trans_eq ?_
      simp only [Function.comp_def, Bool.and_comm]
  · unfold Disk.clearAllExpiredFiles at hmem
    split at hmem
    · exact absurd he hmem
    · rename_i hexpire
      obtain ⟨e', he', hname, hlog, hexp⟩ := exists_expired_of_not_mem he hmem
      exact ⟨e', he', hname, hlog, Or.inl ⟨hexpire, hexp⟩⟩

theorem others_clear (h : v.Admits cfg) (hused : disk.used cfg < 2 ^ 64) :
    (disk.clear cfg v).dir.others cfg = disk.dir.others cfg := by
  have hmissing := fun e => exists_removed_of_not_mem (e := e) h hused
  obtain ⟨keeps, hkeeps⟩ := clears_clear cfg v disk
  rw [hkeeps] at hmissing ⊢
  unfold Directory.others Directory.cleared
  rw [List.filter_filter]
  refine List.filter_congr fun e he => ?_
  cases hlog : cfg.isLogName e.1 with
  | true => rfl
  | false =>
    rw [Bool.not_false, Bool.true_and]
    by_contra hk
    obtain ⟨e', -, hname, hlog', -⟩ := hmissing e he fun hmem => hk (Directory.mem_cleared.1 hmem).2
    rw [hname, hlog] at hlog'
    cases hlog'

end Clear

/-! ## The file that is opened -/

section Open

variable {cfg : RetentionConfig} {v : Visit} {disk : Disk}

/-- The loop takes up a file that is not oversize, or makes a new one, or gives up. -/
theorem openLoop_cases {c : FileConfig} {o : Opening} {stem : List Char} {fuel idx : ℕ} {dir dir' : Directory}
    {file : Option ℕ} (h : openLoop c o stem fuel idx dir = some (file, dir')) :
    (dir' = dir ∧ ∀ f, file = some f → ∃ i, dir.find (indexedName c stem i) = some f ∧
      isFileOversize c (o.size (indexedName c stem i)) = false) ∨
    ∃ i, dir.find (indexedName c stem i) = none ∧ file = some dir.next ∧
      dir' = dir.create (indexedName c stem i) := by
  induction fuel generalizing idx with
  | zero => cases h
  | succ fuel ih =>
    simp only [openLoop, isFileOversize_zero] at h
    split at h
    · split at h
      · rename_i f hf
        split at h
        · exact ih h
        · rename_i hsize
          obtain ⟨rfl, rfl⟩ := Prod.mk.inj (Option.some.inj h)
          refine Or.inl ⟨rfl, fun f' hf' => ⟨idx, hf.trans hf', ?_⟩⟩
          simp only [Bool.or_eq_true, not_or, Bool.not_eq_true] at hsize
          exact hsize.1
      · rename_i hf
        obtain ⟨rfl, rfl⟩ := Prod.mk.inj (Option.some.inj h)
        exact Or.inr ⟨idx, hf, rfl, rfl⟩
    · obtain ⟨rfl, rfl⟩ := Prod.mk.inj (Option.some.inj h)
      exact Or.inl ⟨rfl, fun f hf => by cases hf⟩

theorem isLogName_indexedName (c : FileConfig) (s : List Char) (i : ℕ) :
    c.isLogName (indexedName c (c.fileName ++ '_' :: s) i) = true := by
  unfold FileConfig.isLogName indexedName
  rw [Bool.and_eq_true, decide_eq_true_iff, decide_eq_true_iff]
  exact ⟨⟨s ++ Nat.toDigits 10 i ++ c.extName, by simp⟩, List.suffix_append _ _⟩

/-- What the call leaves, in terms of the files that are not removed. -/
theorem opening_cases {prev : Bool} {dir' : Directory} {file : Option ℕ}
    (h : openNewIndexedFileByName cfg.toFileConfig (v.opening cfg disk) prev disk.dir = some (file, dir')) :
    (dir' = (disk.clear cfg v).dir ∧ ∀ f, file = some f → ∃ name, cfg.isLogName name = true ∧
      (disk.clear cfg v).dir.find name = some f ∧ isFileOversize cfg.toFileConfig (disk.size f) = false) ∨
    ∃ name, cfg.isLogName name = true ∧ (disk.clear cfg v).dir.find name = none ∧
      file = some disk.dir.next ∧ dir' = (disk.clear cfg v).dir.create name := by
  have hclears := clears_clear cfg v disk
  have hnext : (disk.clear cfg v).dir.next = disk.dir.next := by
    obtain ⟨keeps, hkeeps⟩ := hclears
    rw [hkeeps, Directory.cleared_next]
  have hstem : ∃ s, (cfg.fileName ++
      if cfg.enableRollingLogFile then (v.opening cfg disk).timeStr else ['_']) =
        cfg.fileName ++ '_' :: s := by
    split
    · exact ⟨_, rfl⟩
    · exact ⟨[], rfl⟩
  obtain ⟨s, hs⟩ := hstem
  unfold openNewIndexedFileByName at h
  simp only [hs] at h
  rw [show disk.dir.cleared (v.opening cfg disk).keeps = (disk.clear cfg v).dir from hclears.cleared_any] at h
  rcases openLoop_cases h with ⟨rfl, hfile⟩ | ⟨i, hfind, hfile, rfl⟩
  · refine Or.inl ⟨rfl, fun f hf => ?_⟩
    obtain ⟨i, hfind, hsize⟩ := hfile f hf
    refine ⟨_, isLogName_indexedName _ s i, hfind, ?_⟩
    simpa [Visit.opening, hfind] using hsize
  · exact Or.inr ⟨_, isLogName_indexedName _ s i, hfind, hnext ▸ hfile, rfl⟩

theorem Directory.find_some {dir : Directory} {name : List Char} {f : ℕ} (h : dir.find name = some f) :
    (name, f) ∈ dir.entries := by
  obtain ⟨e, he, rfl⟩ := Option.map_eq_some_iff.1 h
  have hname := List.find?_some he
  rw [← eq_of_beq hname]
  exact List.mem_of_find?_eq_some he

theorem Directory.find_none {dir : Directory} {name : List Char} (h : dir.find name = none) :
    name ∉ dir.entries.map Prod.fst := by
  rw [Directory.find, Option.map_eq_none_iff, List.find?_eq_none] at h
  intro hmem
  obtain ⟨e, he, rfl⟩ := List.mem_map.1 hmem
  exact h e he (beq_self_eq_true _)

theorem Disk.Sound.of_clears {disk' : Disk} (h : disk.Sound) (hclears : disk.dir.Clears disk'.dir)
    (hsize : disk'.size = disk.size) : disk'.Sound := by
  refine ⟨h.names.sublist (hclears.sublist.map _), h.files.sublist (hclears.sublist.map _), ?_⟩
  obtain ⟨keeps, hkeeps⟩ := hclears
  rw [hkeeps, Directory.cleared_next, hsize]
  exact h.fresh

theorem Disk.Sound.create {name : List Char} (h : disk.Sound) (hname : disk.dir.find name = none) :
    (⟨disk.dir.create name, disk.size, disk.lastModified⟩ : Disk).Sound := by
  refine ⟨?_, ?_, fun f hf => h.fresh f (Nat.le_of_succ_le hf)⟩
  · rw [Directory.create, List.map_append, List.nodup_append]
    refine ⟨h.names, by simp, ?_⟩
    rintro a ha b hb rfl
    obtain rfl : a = name := by simpa using hb
    exact Directory.find_none hname ha
  · rw [Directory.create, List.map_append, List.nodup_append]
    refine ⟨h.files, by simp, ?_⟩
    rintro a ha b hb rfl
    obtain rfl : a = disk.dir.next := by simpa using hb
    obtain ⟨e, he, heq⟩ := List.mem_map.1 ha
    exact absurd (disk.dir.lt_next e he) (by rw [heq]; exact lt_irrefl _)

/-- A new file is empty. -/
theorem Disk.Sound.used_create (h : disk.Sound) (name : List Char) (m : ℕ → ℕ) :
    (⟨disk.dir.create name, disk.size, m⟩ : Disk).used cfg = disk.used cfg := by
  have hzero := h.fresh disk.dir.next (le_refl _)
  unfold Disk.used Directory.create
  simp only [List.filter_append, List.map_append, List.sum_append]
  by_cases hlog : cfg.isLogName name = true <;> simp [hlog, hzero]

/-- The file that is taken up or made has its name, is not oversize, and the rest is below the capacity. -/
theorem open_spec (hcap : 0 < cfg.capacityLimit) (hadm : v.Admits cfg) (hsound : disk.Sound)
    (hused : disk.used cfg < 2 ^ 64) {prev : Bool} {dir' : Directory} {file : Option ℕ}
    (h : openNewIndexedFileByName cfg.toFileConfig (v.opening cfg disk) prev disk.dir = some (file, dir'))
    (m : ℕ → ℕ) :
    (⟨dir', disk.size, m⟩ : Disk).Sound ∧ (⟨dir', disk.size, m⟩ : Disk).used cfg < cfg.capacityLimit ∧
      dir'.others cfg = disk.dir.others cfg ∧
      (∀ e ∈ disk.dir.entries, e ∉ dir'.entries → e ∉ (disk.clear cfg v).dir.entries) ∧
      ∀ f, file = some f → (∃ name, cfg.isLogName name = true ∧ (name, f) ∈ dir'.entries) ∧
        isFileOversize cfg.toFileConfig (disk.size f) = false := by
  have hclears := clears_clear cfg v disk
  have hsize : (disk.clear cfg v).size = disk.size := clear_size
  have hsound' := hsound.of_clears hclears hsize
  have hbelow := used_clear hcap hadm hused
  have hothers := others_clear hadm hused
  rcases opening_cases h with ⟨rfl, hfile⟩ | ⟨name, hlog, hfind, hfile, rfl⟩
  · refine ⟨⟨hsound'.names, hsound'.files, hsize ▸ hsound'.fresh⟩, ?_, hothers,
      fun e _ h => h, fun f hf => ?_⟩
    · rwa [Disk.used, hsize] at hbelow
    · obtain ⟨name, hlog, hfind, hsize'⟩ := hfile f hf
      exact ⟨⟨name, hlog, Directory.find_some hfind⟩, hsize'⟩
  · have hcreate := hsound'.create hfind
    have hnext : (disk.clear cfg v).dir.next = disk.dir.next := by
      obtain ⟨keeps, hkeeps⟩ := hclears
      rw [hkeeps, Directory.cleared_next]
    refine ⟨⟨hcreate.names, hcreate.files, hsize ▸ hcreate.fresh⟩, ?_, ?_, ?_, ?_⟩
    · rw [← hsound'.used_create name m, hsize] at hbelow
      exact hbelow
    · rw [← hothers]
      simp [Directory.others, Directory.create, hlog]
    · exact fun e _ hnot hmem => hnot (List.mem_append_left _ hmem)
    · intro f hf
      obtain rfl := Option.some.inj (hfile.symm.trans hf)
      refine ⟨⟨name, hlog, List.mem_append_right _ ?_⟩, ?_⟩
      · rw [hnext]
        exact List.mem_singleton_self _
      · rw [hsound.fresh _ (le_refl _), isFileOversize_zero]

end Open

/-! ## Runs -/

section Runs

variable {cfg : RetentionConfig} {z : ZoneOffset} {m : ℕ} {s s' : RetentionState}

/-- What the event meets if it may open a file. -/
def RetentionEvent.visit : RetentionEvent → Option Visit
  | .record _ v => some v
  | .writeError v => some v
  | .write _ _ => none

/-- The files of the appender can be measured and removed, and no more than `m` bytes go into the open file
between two records. -/
def RetentionStepOk (cfg : RetentionConfig) (m : ℕ) (s : RetentionState) : RetentionEvent → Prop
  | .record _ v => v.Admits cfg
  | .writeError v => v.Admits cfg
  | .write n _ => s.pending + n ≤ m

/-- An appender that has not opened a file. -/
def RetentionState.start (disk : Disk) (expire : ℕ) : RetentionState :=
  ⟨.start disk.dir expire, disk.size, disk.lastModified, 0⟩

/-- **What a step can do**: it writes, or keeps the open file, which is not oversize, or opens one. -/
theorem retentionStep_cases {a : RetentionEvent} (h : retentionStep cfg z s a = some s') :
    (∃ n now, a = .write n now ∧ s' = s.write n now) ∨
    ∃ v r, a.visit = some v ∧ s' = s.refreshed v.now r ∧
      ((r.file = s.rolling.file ∧ r.dir = s.rolling.dir ∧
        ∀ f, s.rolling.file = some f → isFileOversize cfg.toFileConfig (s.size f) = false) ∨
      ∃ prev, openNewIndexedFileByName cfg.toFileConfig (v.opening cfg s.disk) prev s.disk.dir =
        some (r.file, r.dir)) := by
  cases a with
  | write n now => exact Or.inl ⟨n, now, rfl, (Option.some.inj h).symm⟩
  | record ts v =>
    obtain ⟨r, hr, rfl⟩ := Option.map_eq_some_iff.1 h
    obtain ⟨r', hr', rfl⟩ := Option.map_eq_some_iff.1 hr
    obtain ⟨r₁, hr₁, -, -, hstays, hopens⟩ := refreshFileHandle_spec cfg.toFileConfig z s.rolling ts.toNat
      s.currentFileSize (v.opening cfg s.disk)
    obtain rfl := Option.some.inj (hr'.symm.trans hr₁)
    refine Or.inr ⟨v, _, rfl, rfl, ?_⟩
    rw [receive_file, receive_dir]
    cases hneed : needCreateNewFile cfg.toFileConfig s.rolling ts.toNat s.currentFileSize with
    | true => exact Or.inr ⟨_, (hopens hneed).1⟩
    | false =>
      obtain rfl := hstays hneed
      refine Or.inl ⟨rfl, rfl, fun f hf => ?_⟩
      simp only [needCreateNewFile, Bool.or_eq_false_iff, RetentionState.currentFileSize, hf, Option.map_some,
        Option.getD_some] at hneed
      exact hneed.1.2
  | writeError v =>
    obtain ⟨r, hr, rfl⟩ := Option.map_eq_some_iff.1 h
    refine Or.inr ⟨v, r, rfl, rfl, ?_⟩
    simp only [rollingStep] at hr
    split at hr
    · obtain ⟨⟨file, dir⟩, hopen, rfl⟩ := Option.map_eq_some_iff.1 hr
      exact Or.inr ⟨true, hopen⟩
    · rename_i hnone
      obtain rfl := Option.some.inj hr
      refine Or.inl ⟨rfl, rfl, fun f hf => ?_⟩
      rw [hf] at hnone
      exact absurd rfl hnone

/-- What holds in every state: the open file has the name of one and is not oversize but for what was
written since the last record, and the files of the appender are below the capacity but for the open one,
if there was one at all. -/
structure Retained (cfg : RetentionConfig) (m : ℕ) (disk₀ : Disk) (s : RetentionState) : Prop where
  sound : s.disk.Sound
  listed : ∀ f, s.rolling.file = some f →
    ∃ name, cfg.isLogName name = true ∧ (name, f) ∈ s.rolling.dir.entries
  size_lt : ∀ f, s.rolling.file = some f → s.size f < cfg.maxFileSize + s.pending
  pending_le : s.pending ≤ m
  used_lt : s.disk.used cfg < cfg.capacityLimit + s.currentFileSize ∨
    (s.rolling.file = none ∧ s.disk.used cfg = disk₀.used cfg)
  others : s.rolling.dir.others cfg = disk₀.dir.others cfg

theorem currentFileSize_of_some {f : ℕ} (h : s.rolling.file = some f) : s.currentFileSize = s.size f := by
  simp [RetentionState.currentFileSize, h]

/-- The bytes in the files of the appender, in every state. -/
theorem Retained.used_cases {disk₀ : Disk} (h : Retained cfg m disk₀ s) :
    s.disk.used cfg < cfg.capacityLimit + cfg.maxFileSize + m ∨
      (s.rolling.file = none ∧ s.disk.used cfg = disk₀.used cfg) := by
  refine h.used_lt.imp_left fun hlt => hlt.trans_le ?_
  cases hfile : s.rolling.file with
  | none =>
    simp only [RetentionState.currentFileSize, hfile, Option.map_none, Option.getD_none]
    omega
  | some f =>
    rw [currentFileSize_of_some hfile]
    have h1 := h.size_lt f hfile
    have h2 := h.pending_le
    omega

theorem lt_of_isFileOversize {c : FileConfig} (hmax : 0 < c.maxFileSize) {n : ℕ}
    (h : isFileOversize c n = false) : n < c.maxFileSize := by
  simpa [isFileOversize, hmax] using h

/-- A sum in which one element grows. -/
theorem sum_map_update {es : List (List Char × ℕ)} (hnodup : (es.map Prod.snd).Nodup) (size : ℕ → ℕ) {f : ℕ}
    (hf : f ∈ es.map Prod.snd) (n : ℕ) :
    (es.map fun e => Function.update size f (size f + n) e.2).sum = (es.map fun e => size e.2).sum + n := by
  induction es with
  | nil => cases hf
  | cons e es ih =>
    rw [List.map_cons, List.nodup_cons] at hnodup
    rw [List.map_cons, List.map_cons, List.sum_cons, List.sum_cons]
    by_cases heq : e.2 = f
    · have hrest : (es.map fun e => Function.update size f (size f + n) e.2) = es.map fun e => size e.2 := by
        refine List.map_congr_left fun e' he' => Function.update_of_ne ?_ _ _
        rintro rfl
        exact hnodup.1 (heq ▸ List.mem_map_of_mem he')
      rw [hrest, heq, Function.update_self]
      omega
    · rw [Function.update_of_ne heq, ih hnodup.2 ((List.mem_cons.1 hf).resolve_left fun h => heq h.symm)]
      omega

/-- The open file grows. -/
theorem Retained.write {disk₀ : Disk} (h : Retained cfg m disk₀ s) {n : ℕ} (hn : s.pending + n ≤ m)
    (now : ℕ) : Retained cfg m disk₀ (s.write n now) := by
  unfold RetentionState.write
  cases hfile : s.rolling.file with
  | none => exact h
  | some f =>
    obtain ⟨name, hlog, hmem⟩ := h.listed f hfile
    have hlt : f < s.rolling.dir.next := s.rolling.dir.lt_next _ hmem
    have hused : Disk.used cfg ⟨s.rolling.dir, Function.update s.size f (s.size f + n),
        Function.update s.lastModified f now⟩ = s.disk.used cfg + n := by
      refine sum_map_update ?_ s.size ?_ n
      · exact h.sound.files.sublist (List.filter_sublist.map _)
      · exact List.mem_map.2 ⟨_, List.mem_filter.2 ⟨hmem, hlog⟩, rfl⟩
    have hsize := h.size_lt f hfile
    refine ⟨⟨h.sound.names, h.sound.files, fun f' hf' => ?_⟩, h.listed, fun f' hf' => ?_, hn, ?_, h.others⟩
    · rw [show RetentionState.disk _ = ⟨s.rolling.dir, Function.update s.size f (s.size f + n), _⟩
        from rfl] at hf' ⊢
      exact (Function.update_of_ne (hlt.trans_le hf').ne' _ _).trans (h.sound.fresh f' hf')
    · obtain rfl := Option.some.inj (hfile.symm.trans hf')
      simp only [Function.update_self]
      omega
    · left
      refine hused.trans_lt ?_
      rcases h.used_lt with hlt' | ⟨hnone, -⟩
      · rw [currentFileSize_of_some hfile] at hlt'
        simp only [RetentionState.currentFileSize, hfile, Option.map_some, Option.getD_some,
          Function.update_self]
        omega
      · rw [hfile] at hnone
        cases hnone

/-- A call of `open_new_indexed_file_by_name`, or none. -/
theorem Retained.refreshed {disk₀ : Disk} (h : Retained cfg m disk₀ s) (hmax : 0 < cfg.maxFileSize)
    (hcap : 0 < cfg.capacityLimit) (hused : s.disk.used cfg < 2 ^ 64) {v : Visit} (hadm : v.Admits cfg)
    {r : RollingState}
    (hr : (r.file = s.rolling.file ∧ r.dir = s.rolling.dir ∧
        ∀ f, s.rolling.file = some f → isFileOversize cfg.toFileConfig (s.size f) = false) ∨
      ∃ prev, openNewIndexedFileByName cfg.toFileConfig (v.opening cfg s.disk) prev s.disk.dir =
        some (r.file, r.dir)) :
    Retained cfg m disk₀ (s.refreshed v.now r) := by
  rcases hr with ⟨hfile, hdir, hsize⟩ | ⟨prev, hopen⟩
  · have hcurrent : (s.refreshed v.now r).currentFileSize = s.currentFileSize := by
      simp [RetentionState.currentFileSize, RetentionState.refreshed, hfile]
    have hdisk : (s.refreshed v.now r).disk =
        ⟨s.rolling.dir, s.size, (s.refreshed v.now r).lastModified⟩ := by
      simp [RetentionState.disk, RetentionState.refreshed, hdir]
    have hfile' : (s.refreshed v.now r).rolling.file = s.rolling.file := hfile
    refine ⟨?_, ?_, fun f hf => ?_, Nat.zero_le m, ?_, ?_⟩
    · rw [hdisk]
      exact ⟨h.sound.names, h.sound.files, h.sound.fresh⟩
    · exact fun f hf => hdir ▸ h.listed f (hfile ▸ hf)
    · exact lt_of_isFileOversize hmax (hsize f (hfile ▸ hf))
    · rw [hdisk, hcurrent, hfile']
      exact h.used_lt
    · rw [show (s.refreshed v.now r).rolling.dir = s.rolling.dir from hdir]
      exact h.others
  · obtain ⟨hsound, hbelow, hothers, -, hopened⟩ := open_spec hcap hadm h.sound hused hopen
      (s.refreshed v.now r).lastModified
    exact ⟨hsound, fun f hf => (hopened f hf).1, fun f hf => lt_of_isFileOversize hmax (hopened f hf).2,
      Nat.zero_le m, Or.inl (hbelow.trans_le (Nat.le_add_right _ _)), hothers.trans h.others⟩

theorem Retained.start {disk : Disk} (h : disk.Sound) (expire : ℕ) :
    Retained cfg m disk (.start disk expire) := by
  refine ⟨h, ?_, ?_, Nat.zero_le m, Or.inr ⟨rfl, rfl⟩, rfl⟩
  · rintro f ⟨⟩
  · rintro f ⟨⟩

theorem Retained.used_lt_two_pow {disk₀ : Disk} (h : Retained cfg m disk₀ s)
    (hfit : cfg.capacityLimit + cfg.maxFileSize + m ≤ 2 ^ 64) (hused : disk₀.used cfg < 2 ^ 64) :
    s.disk.used cfg < 2 ^ 64 := by
  rcases h.used_cases with hlt | ⟨-, heq⟩
  · exact hlt.trans_le hfit
  · rwa [heq]

/-- One event keeps the bounds. -/
theorem Retained.step {disk₀ : Disk} (h : Retained cfg m disk₀ s) (hmax : 0 < cfg.maxFileSize)
    (hcap : 0 < cfg.capacityLimit) (hused : s.disk.used cfg < 2 ^ 64) {a : RetentionEvent}
    (hok : RetentionStepOk cfg m s a) (hstep : retentionStep cfg z s a = some s') :
    Retained cfg m disk₀ s' := by
  rcases retentionStep_cases hstep with ⟨n, now, rfl, rfl⟩ | ⟨v, r, hv, rfl, hr⟩
  · exact h.write hok now
  · refine h.refreshed hmax hcap hused ?_ hr
    cases a with
    | record ts v' => exact Option.some.inj hv ▸ hok
    | writeError v' => exact Option.some.inj hv ▸ hok
    | write n now => cases hv

/-- What a step removes is expired or stands in the way. -/
theorem Retained.removed {disk₀ : Disk} (h : Retained cfg m disk₀ s) (hcap : 0 < cfg.capacityLimit)
    (hused : s.disk.used cfg < 2 ^ 64) {a : RetentionEvent} (hok : RetentionStepOk cfg m s a)
    (hstep : retentionStep cfg z s a = some s') {e : List Char × ℕ} (he : e ∈ s.rolling.dir.entries)
    (hnot : e ∉ s'.rolling.dir.entries) :
    ∃ v, a.visit = some v ∧ cfg.isLogName e.1 = true ∧
      ((cfg.expireTimeMs ≠ 0 ∧ s.disk.expired cfg v e.2 = true) ∨ s.disk.Displaced cfg e.2) := by
  rcases retentionStep_cases hstep with ⟨n, now, -, rfl⟩ | ⟨v, r, hv, rfl, hr⟩
  · refine absurd ?_ hnot
    unfold RetentionState.write
    split <;> exact he
  have hadm : v.Admits cfg := by
    cases a with
    | record ts v' => exact Option.some.inj hv ▸ hok
    | writeError v' => exact Option.some.inj hv ▸ hok
    | write n now => cases hv
  rcases hr with ⟨-, hdir, -⟩ | ⟨prev, hopen⟩
  · exact absurd (show e ∈ r.dir.entries from hdir ▸ he) hnot
  · obtain ⟨-, -, -, hmissing, -⟩ := open_spec hcap hadm h.sound hused hopen s.lastModified
    obtain ⟨e', he', hname, hlog, hwhy⟩ := exists_removed_of_not_mem hadm hused he (hmissing e he hnot)
    obtain rfl : e' = e := List.inj_on_of_nodup_map h.sound.names he' he hname
    exact ⟨v, hv, hlog, hwhy.imp_right And.right⟩

/-- **Old files make room.** In every run of an appender with a limit for the capacity and one for a file,
from any directory: the files of the appender are below the capacity but for one file and what is written
between two records, once a file has been opened; the other files of the directory stay as they are; and a
file that a step removes is one of the appender that is expired, or the files no older than it come to the
capacity. -/
theorem retention_safe (cfg : RetentionConfig) (z : ZoneOffset) (hmax : 0 < cfg.maxFileSize)
    (hcap : 0 < cfg.capacityLimit) (hfit : cfg.capacityLimit + cfg.maxFileSize + m ≤ 2 ^ 64) {disk : Disk}
    (hsound : disk.Sound) (hused : disk.used cfg < 2 ^ 64) {expire : ℕ}
    (h : Runs (retentionStep cfg z) (RetentionStepOk cfg m) (.start disk expire) s) :
    (s.disk.used cfg < cfg.capacityLimit + cfg.maxFileSize + m ∨
      (s.rolling.file = none ∧ s.disk.used cfg = disk.used cfg)) ∧
    s.rolling.dir.others cfg = disk.dir.others cfg ∧
    ∀ a s', RetentionStepOk cfg m s a → retentionStep cfg z s a = some s' →
      ∀ e ∈ s.rolling.dir.entries, e ∉ s'.rolling.dir.entries →
        ∃ v, a.visit = some v ∧ cfg.isLogName e.1 = true ∧
          ((cfg.expireTimeMs ≠ 0 ∧ s.disk.expired cfg v e.2 = true) ∨ s.disk.Displaced cfg e.2) := by
  have hI : Retained cfg m disk s := by
    refine h.invariant (Retained.start hsound expire) fun u w a hu hok hstep => ?_
    exact hu.step hmax hcap (hu.used_lt_two_pow hfit hused) hok hstep
  have hlt := hI.used_lt_two_pow hfit hused
  exact ⟨hI.used_cases, hI.others, fun a s' hok hstep e he hnot => hI.removed hcap hlt hok hstep he hnot⟩

/-- Sorting by insertion. -/
def Sorting.insertion : Sorting where
  sort := List.insertionSort fun c c' => c.lastModified ≤ c'.lastModified
  perm := List.perm_insertionSort _
  sorted cells :=
    have : Std.Total fun c c' : Cell => c.lastModified ≤ c'.lastModified := ⟨fun _ _ => le_total _ _⟩
    have : IsTrans Cell fun c c' => c.lastModified ≤ c'.lastModified := ⟨fun _ _ _ => le_trans⟩
    List.pairwise_insertionSort _ cells

/-- A call that meets nothing unusual. -/
def Visit.plain : Visit :=
  ⟨[], 100, fun _ => true, fun _ => true, .insertion, fun _ => true, fun _ => true⟩

/-- Files of 10 bytes, 20 together. -/
def tightConfig : RetentionConfig := ⟨⟨['l'], ['.', 'q'], false, 10, false⟩, 0, 20⟩

/-- A directory with one large file of the appender. -/
def largeFile : Disk where
  dir := ⟨[(['l', '_', '7', '.', 'q'], 0)], 1, by simp⟩
  size f := if f = 0 then 25 else 0
  lastModified _ := 5

/-- The large file makes room for a new one, which gets 8 bytes. -/
theorem retention_safe_largeFile : ∃ s : RetentionState, s.rolling.file = some 1 ∧
    s.rolling.dir.entries = [(['l', '_', '1', '.', 'q'], 1)] ∧ s.disk.used tightConfig < 20 + 10 + 8 := by
  have hrun : (run (retentionStep tightConfig .utc) (.start largeFile 0)
      [.record 100 .plain, .write 8 101]).map (fun s => (s.rolling.file, s.rolling.dir.entries)) =
        some (some 1, [(['l', '_', '1', '.', 'q'], 1)]) := by decide +kernel
  obtain ⟨s, hs, heq⟩ := Option.map_eq_some_iff.1 hrun
  obtain ⟨hfile, hdir⟩ := Prod.mk.inj heq
  have hruns : Runs (retentionStep tightConfig .utc) (RetentionStepOk tightConfig 8)
      (.start largeFile 0) s := by
    rw [run_cons, Option.bind_eq_some_iff] at hs
    obtain ⟨s₁, h₁, h₂⟩ := hs
    obtain ⟨s₂, hwrite, hnil⟩ := Option.bind_eq_some_iff.1 h₂
    obtain rfl := Option.some.inj hnil
    have hadm : RetentionStepOk tightConfig 8 (.start largeFile 0) (.record 100 .plain) :=
      fun _ _ => ⟨rfl, rfl⟩
    have hpending : s₁.pending = 0 := by
      rcases retentionStep_cases h₁ with ⟨n, now, h, -⟩ | ⟨v, r, -, rfl, -⟩
      · cases h
      · rfl
    refine ((Runs.refl _).tail hadm h₁).tail ?_ hwrite
    rw [RetentionStepOk, hpending]
  have hsound : largeFile.Sound := by
    refine ⟨by decide, by decide, fun f hf => if_neg ?_⟩
    rintro rfl
    exact absurd hf (by decide)
  refine ⟨s, hfile, hdir, ?_⟩
  rcases (retention_safe tightConfig .utc (by decide) (by decide) (by decide) hsound (by decide) hruns).1 with
    h | ⟨h, -⟩
  · exact h
  · rw [hfile] at h
    cases h

end Runs

end QLog.Appender
