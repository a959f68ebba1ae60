import QLog.Appender.ReadCache

/-!
# Runs of calls on the read cache

The calls are made in any order, and a physical read may deliver less than it is asked for. `Cached` is the
invariant: the whole cache is the part of the file that ends at the place of the descriptor, and the cursor
in the cache is where the reader believes to be. A seek inside the cache keeps it because the bytes in front
of the cursor are still those of the file.

Only `seek_read_file_absolute` breaks it. It casts its argument to `int32_t`: a position from 2 ^ 32 on
whose low half is not negative moves the descriptor to that low half, while the reader notes the position
itself. (From 2 ^ 31 to 2 ^ 32 the cast gives a negative position, and the seek fails.)
-/

namespace QLog.Appender.Reader

open Bytes

variable {r : Reader} {pos size given : ℕ}

/-- A file just opened: `open_file` leaves the descriptor at the end. -/
def opened (file : List UInt8) : Reader := ⟨file, file.length, 0, [], 0, false⟩

/-- What `read_with_cache` asks the file for. -/
def missing (r : Reader) (size : ℕ) : ℕ :=
  if r.left < size then
    min (max size cacheReadDefaultSize - r.left) (r.file.length - (r.readFilePos + r.left))
  else 0

/-- The cache is filled by a physical read that delivers at most `given` bytes. -/
def fillShort (r : Reader) (size given : ℕ) : Reader :=
  if r.left < size then
    let got := sub r.file r.filePos (min (r.missing size) given)
    { r with
      cacheRead := r.cacheRead.drop r.cursor ++ got, cursor := 0, filePos := r.filePos + got.length }
  else r

/-- `read_with_cache` over such a read. -/
def readShort (r : Reader) (size given : ℕ) : List UInt8 × Reader :=
  let r := r.fillShort size given
  let data := sub r.cacheRead r.cursor size
  (data, { r with
    cursor := r.cursor + data.length
    readFilePos := r.readFilePos + data.length
    eof := r.eof || decide (data.length < size) })

/-- A call on the reader. -/
inductive Call
  | seekAbsolute (pos : ℕ)
  | seekOffset (offset : ℤ)
  | read (size given : ℕ)
deriving DecidableEq

/-- The state behind a call. A failed seek leaves everything as it is. -/
def call (r : Reader) : Call → Reader
  | .seekAbsolute pos => (r.seekReadFileAbsolute pos).getD r
  | .seekOffset offset => r.seekReadFileOffset offset
  | .read size given => (r.readShort size given).2

/-- The state behind the calls. -/
def run (r : Reader) (calls : List Call) : Reader := calls.foldl call r

/-- The whole cache is a part of the file, and the descriptor is at its end. -/
structure Cached (r : Reader) : Prop where
  cursor_le : r.cursor ≤ r.cacheRead.length
  cursor_le_pos : r.cursor ≤ r.readFilePos
  cached : r.cacheRead = sub r.file (r.readFilePos - r.cursor) r.cacheRead.length
  filePos : r.filePos = r.readFilePos + r.left

/-- The physical position is the believed one plus what is left in the cache, and a read returns the bytes
of the file at the believed position: all that are asked for and there, unless the physical read is short. -/
structure Faithful (r : Reader) : Prop where
  filePos : r.filePos = r.readFilePos + r.left
  data : ∀ size given, (r.readShort size given).1 =
    sub r.file r.readFilePos (r.readShort size given).1.length
  length : ∀ size given, r.missing size ≤ given →
    (r.readShort size given).1.length = min size (r.file.length - r.readFilePos)

/-- The cast of the position is harmless. -/
def Call.Narrow : Call → Prop
  | .seekAbsolute pos => pos < 2 ^ 32 ∨ 2 ^ 31 ≤ pos % 2 ^ 32
  | _ => True

/-- A physical read that is not short is the one of `read_with_cache`. -/
theorem readShort_eq (h : r.missing size ≤ given) : r.readShort size given = r.readWithCache size := by
  have hfill : r.fillShort size given = r.fill size := by
    unfold fillShort fill
    rw [min_eq_left h]
    unfold missing left
    simp only
    split
    · rfl
    · rfl
  rw [readShort, readWithCache, hfill]

@[simp] theorem file_fillShort : (r.fillShort size given).file = r.file := by
  unfold fillShort
  split <;> rfl

@[simp] theorem readFilePos_fillShort : (r.fillShort size given).readFilePos = r.readFilePos := by
  unfold fillShort
  split <;> rfl

namespace Cached

theorem at_readFilePos (h : r.Cached) : r.At r.readFilePos := by
  obtain ⟨hcur, hpos, hcached, hfile⟩ := h
  have hdrop : r.cacheRead.drop r.cursor = sub r.file r.readFilePos r.left := by
    have hpart := congrArg (List.drop r.cursor) hcached
    rwa [drop_sub, Nat.sub_add_cancel hpos] at hpart
  refine ⟨hcur, hdrop, hfile, le_rfl, ?_⟩
  have hlen := congrArg List.length hdrop
  rw [List.length_drop, length_sub] at hlen
  unfold left at *
  omega

/-- A physical read appends to the cache what the file has behind it. -/
theorem fillShort (h : r.Cached) (size given : ℕ) : (r.fillShort size given).Cached := by
  have hat := h.at_readFilePos
  unfold Reader.fillShort
  split
  · set got := sub r.file r.filePos (min (r.missing size) given) with hgot
    have hcache : r.cacheRead.drop r.cursor ++ got =
        sub r.file r.readFilePos (r.left + got.length) := by
      rw [sub_add, ← hat.cached, ← hat.filePos, hgot, length_sub]
      congr 1
      rw [sub_min]
    have hlen : (r.cacheRead.drop r.cursor ++ got).length = r.left + got.length := by
      rw [List.length_append, List.length_drop]
      rfl
    refine ⟨Nat.zero_le _, Nat.zero_le _, ?_, ?_⟩
    · simp only [Nat.sub_zero]
      rw [hlen]
      exact hcache
    · simp only [left, Nat.sub_zero]
      rw [hlen, h.filePos]
      omega
  · exact h

/-- The bytes returned are those of the file at the believed position. -/
theorem data_readShort (h : r.Cached) (size given : ℕ) : (r.readShort size given).1 =
    sub r.file r.readFilePos (r.readShort size given).1.length := by
  have hat := (h.fillShort size given).at_readFilePos
  have hdata : (r.readShort size given).1 =
      sub r.file r.readFilePos (min size (r.fillShort size given).left) := by
    rw [readShort]
    simp only
    rw [sub, hat.cached, take_sub, file_fillShort, readFilePos_fillShort]
  rw [hdata, length_sub, sub_min]

theorem readShort (h : r.Cached) (size given : ℕ) : (r.readShort size given).2.Cached := by
  obtain ⟨hcur, hpos, hcached, hfile⟩ := h.fillShort size given
  unfold Reader.readShort
  simp only
  generalize r.fillShort size given = q at *
  have hlen : (sub q.cacheRead q.cursor size).length = min size (q.cacheRead.length - q.cursor) :=
    length_sub _ _ _
  refine ⟨?_, ?_, ?_, ?_⟩
  · change q.cursor + _ ≤ q.cacheRead.length
    omega
  · change q.cursor + _ ≤ q.readFilePos + _
    omega
  · change q.cacheRead = sub q.file (q.readFilePos + _ - (q.cursor + _)) q.cacheRead.length
    rw [Nat.add_sub_add_right]
    exact hcached
  · change q.filePos = q.readFilePos + _ + (q.cacheRead.length - (q.cursor + _))
    unfold left at hfile
    omega

/-- Inside the cache the descriptor stays where it is. -/
theorem seekReadFileOffset (h : r.Cached) (offset : ℤ) : (r.seekReadFileOffset offset).Cached := by
  obtain ⟨hcur, hpos, hcached, hfile⟩ := h
  unfold Reader.seekReadFileOffset
  split
  · rename_i hin
    obtain ⟨hlow, hhigh⟩ := hin
    have hplace : (r.readFilePos + offset).toNat - (r.cursor + offset).toNat =
        r.readFilePos - r.cursor := by omega
    refine ⟨?_, ?_, ?_, ?_⟩
    · change (r.cursor + offset).toNat ≤ r.cacheRead.length
      omega
    · change (r.cursor + offset).toNat ≤ (r.readFilePos + offset).toNat
      omega
    · change r.cacheRead = sub r.file (_ - _) r.cacheRead.length
      rw [hplace]
      exact hcached
    · change r.filePos = (r.readFilePos + offset).toNat +
        (r.cacheRead.length - (r.cursor + offset).toNat)
      unfold left at hfile
      omega
  · exact ⟨hcur, hpos, hcached, hfile⟩

theorem faithful (h : r.Cached) : r.Faithful := by
  refine ⟨h.filePos, h.data_readShort, fun size given hgiven => ?_⟩
  rw [readShort_eq hgiven, (h.at_readFilePos.readWithCache size).1, length_sub]
  omega

end Cached

/-- A seek that succeeds on a position of less than 32 bits leads to it. -/
theorem seekReadFileAbsolute_cached {r' : Reader} (h : r.seekReadFileAbsolute pos = some r')
    (hpos : pos < 2 ^ 32) : r'.Cached := by
  unfold seekReadFileAbsolute at h
  split at h
  · obtain rfl := Option.some.inj h
    refine ⟨le_rfl, Nat.zero_le _, by simp [sub], ?_⟩
    simp only [left, List.length_nil, Nat.sub_zero, Nat.add_zero]
    exact Nat.mod_eq_of_lt hpos
  · cases h

/-- One call keeps the invariant. -/
theorem Cached.call (h : r.Cached) {c : Call} (hc : c.Narrow) : (r.call c).Cached := by
  cases c with
  | seekAbsolute pos =>
    change ((r.seekReadFileAbsolute pos).getD r).Cached
    cases hseek : r.seekReadFileAbsolute pos with
    | none => exact h
    | some r' =>
      refine seekReadFileAbsolute_cached hseek (hc.resolve_right fun hhigh => ?_)
      rw [seekReadFileAbsolute, if_neg (not_lt.2 hhigh)] at hseek
      cases hseek
  | seekOffset offset => exact h.seekReadFileOffset offset
  | read size given => exact h.readShort size given

/-- A seek that the cast changes puts the descriptor where the reader does not believe to be. -/
theorem not_faithful_call {c : Call} (hc : ¬c.Narrow) : ¬(r.call c).Faithful := by
  intro hf
  cases c with
  | seekAbsolute pos =>
    obtain ⟨hpos, hlow⟩ := not_or.1 hc
    have hfile := hf.filePos
    rw [Reader.call, seekReadFileAbsolute, if_pos (not_le.1 hlow), Option.getD_some] at hfile
    simp only [left, List.length_nil, Nat.sub_zero, Nat.add_zero] at hfile
    omega
  | seekOffset offset => exact hc trivial
  | read size given => exact hc trivial

theorem run_append (calls : List Call) (c : Call) : r.run (calls ++ [c]) = (r.run calls).call c := by
  rw [run, List.foldl_append]
  rfl

theorem Cached.run (h : r.Cached) {calls : List Call} (hcalls : ∀ c ∈ calls, c.Narrow) :
    (r.run calls).Cached := by
  induction calls generalizing r with
  | nil => exact h
  | cons c calls ih =>
    exact ih (h.call (hcalls c List.mem_cons_self)) fun d hd => hcalls d (List.mem_cons_of_mem c hd)

/-- From a state with the invariant, the states of a run are all faithful exactly when no seek of it is to a
position that the cast changes without failing. -/
theorem Cached.faithful_iff (h : r.Cached) (calls : List Call) :
    (∀ before, before <+: calls → (r.run before).Faithful) ↔ ∀ c ∈ calls, c.Narrow := by
  refine ⟨fun hf c hc => ?_, fun hcalls before hbefore => ?_⟩
  · obtain ⟨before, behind, rfl⟩ := List.append_of_mem hc
    by_contra hwide
    refine not_faithful_call (r := r.run before) hwide ?_
    rw [← run_append]
    exact hf (before ++ [c]) ⟨behind, by rw [List.append_assoc, List.singleton_append]⟩
  · exact (h.run fun c hc => hcalls c (hbefore.subset hc)).faithful

/-- **Reads return slices of the file**: after a file is opened and its reader sought to a first place, the
states of a run of calls are all faithful exactly when every seek of the run is to a position that the cast
to `int32_t` keeps, or makes negative. -/
theorem run_faithful_iff (file : List UInt8) {pos : ℕ} (hpos : pos < 2 ^ 31) (calls : List Call) :
    (∀ before, before <+: calls →
      ((opened file).run (.seekAbsolute pos :: before)).Faithful) ↔ ∀ c ∈ calls, c.Narrow := by
  have hsmall : pos % 2 ^ 32 = pos := Nat.mod_eq_of_lt (by omega)
  have hseek : (opened file).seekReadFileAbsolute pos =
      some ((opened file).call (.seekAbsolute pos)) := by
    rw [Reader.call, seekReadFileAbsolute, if_pos (by rwa [hsmall]), Option.getD_some]
  exact (seekReadFileAbsolute_cached hseek (by omega)).faithful_iff calls

/-- The cursor goes back over the third byte of a file, which is read again. -/
theorem run_faithful_back : ∃ r : Reader,
    r = (opened [5, 6, 7, 8]).run [.seekAbsolute 0, .read 3 9, .seekOffset (-1), .read 1 9] ∧
      r.readFilePos = 3 ∧ r.Faithful :=
  ⟨_, rfl, by decide,
    (run_faithful_iff [5, 6, 7, 8] (show 0 < 2 ^ 31 by norm_num) _).2 (by simp [Call.Narrow])
      [.read 3 9, .seekOffset (-1), .read 1 9] (List.prefix_refl _)⟩

/-- At 4 GiB the first byte of the file is returned instead. -/
theorem not_faithful_wide : ∃ r : Reader,
    r = (opened (List.replicate (2 ^ 32) 0 ++ [1])).run [.seekAbsolute (2 ^ 32)] ∧
      r.readFilePos = 2 ^ 32 ∧ sub r.file r.readFilePos 1 = [1] ∧ (r.readWithCache 1).1 = [0] ∧
      ¬r.Faithful := by
  set file : List UInt8 := List.replicate (2 ^ 32) 0 ++ [1] with hfile
  have hseek : (opened file).seekReadFileAbsolute (2 ^ 32) = some ⟨file, 0, 2 ^ 32, [], 0, false⟩ := rfl
  have hlen : file.length = 2 ^ 32 + 1 := by
    rw [hfile, List.length_append, List.length_replicate, List.length_singleton]
  have hwide : ¬(Call.seekAbsolute (2 ^ 32)).Narrow := by
    simp [Call.Narrow]
  refine ⟨_, rfl, rfl, ?_, ?_, not_faithful_call (r := opened file) hwide⟩
  · have hbehind := sub_append_right (List.replicate (2 ^ 32) 0) [1] 1
    rwa [List.length_replicate] at hbehind
  · have hdata := ((seekReadFileAbsolute_at hseek).1.readWithCache 1).1
    have hfirst : file = 0 :: (List.replicate (2 ^ 32 - 1) 0 ++ [1]) := by
      rw [hfile, ← List.cons_append, ← List.replicate_succ, Nat.sub_add_cancel Nat.one_le_two_pow]
    change _ = sub file 0 (min 1 (file.length - 2 ^ 32)) at hdata
    refine hdata.trans ?_
    rw [hlen, Nat.add_sub_cancel_left, hfirst]
    rfl

end QLog.Appender.Reader
