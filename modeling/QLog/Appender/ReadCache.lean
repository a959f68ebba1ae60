import QLog.Foundations.Bytes

/-!
# The read cache of the file appenders

A model of `seek_read_file_absolute`, `seek_read_file_offset` and `read_with_cache`. The reader has the
position that it believes to be at, `readFilePos`, and the position of the file descriptor; the bytes in
between are those left in the cache.

`Reader.At r p` says that the next byte to be returned is the one at place `p` of the file. The two
positions are the same below 2 ^ 31: `seek_read_file_absolute` casts its argument to `int32_t`.
-/

namespace QLog.Appender

open Bytes

/-- `CACHE_READ_DEFAULT_SIZE`. -/
def cacheReadDefaultSize : ℕ := 32 * 1024

/-- The file and the read cache. -/
structure Reader where
  file : List UInt8
  filePos : ℕ
  readFilePos : ℕ
  cacheRead : List UInt8
  cursor : ℕ
  eof : Bool
deriving DecidableEq

namespace Reader

variable {r : Reader} {p n : ℕ}

/-- Nothing has been read from the file. -/
def start (file : List UInt8) : Reader := ⟨file, 0, 0, [], 0, false⟩

/-- `seek_read_file_absolute`: the position is cast to `int32_t`, and no file has a negative one. -/
def seekReadFileAbsolute (r : Reader) (pos : ℕ) : Option Reader :=
  if pos % 2 ^ 32 < 2 ^ 31 then
    some { r with
      filePos := pos % 2 ^ 32, readFilePos := pos, cacheRead := [], cursor := 0, eof := false }
  else none

/-- `seek_read_file_offset`; nothing happens outside the cache. -/
def seekReadFileOffset (r : Reader) (offset : ℤ) : Reader :=
  if 0 ≤ r.cursor + offset ∧ r.cursor + offset ≤ r.cacheRead.length then
    { r with
      cursor := (r.cursor + offset).toNat, readFilePos := (r.readFilePos + offset).toNat }
  else r

/-- The cache is filled when it has fewer than `size` bytes. -/
def fill (r : Reader) (size : ℕ) : Reader :=
  let left := r.cacheRead.length - r.cursor
  if left < size then
    let fillSize := min (max size cacheReadDefaultSize - left) (r.file.length - (r.readFilePos + left))
    let got := sub r.file r.filePos fillSize
    { r with
      cacheRead := r.cacheRead.drop r.cursor ++ got, cursor := 0, filePos := r.filePos + got.length }
  else r

/-- `appender_file_base::read_with_cache`. -/
def readWithCache (r : Reader) (size : ℕ) : List UInt8 × Reader :=
  let r := r.fill size
  let data := sub r.cacheRead r.cursor size
  (data, { r with
    cursor := r.cursor + data.length
    readFilePos := r.readFilePos + data.length
    eof := r.eof || decide (data.length < size) })

/-- The bytes in the cache that are not returned yet. -/
def left (r : Reader) : ℕ := r.cacheRead.length - r.cursor

/-- The next byte to be returned is the one at place `p` of the file. -/
structure At (r : Reader) (p : ℕ) : Prop where
  cursor_le : r.cursor ≤ r.cacheRead.length
  cached : r.cacheRead.drop r.cursor = sub r.file p r.left
  filePos : r.filePos = p + r.left
  le : p ≤ r.readFilePos
  inside : r.left ≤ r.file.length - r.readFilePos

theorem seekReadFileAbsolute_at {r' : Reader} {pos : ℕ} (h : r.seekReadFileAbsolute pos = some r') :
    r'.At (pos % 2 ^ 32) ∧ r'.file = r.file ∧ r'.readFilePos = pos ∧ r'.eof = false := by
  unfold seekReadFileAbsolute at h
  split at h
  · obtain rfl := Option.some.inj h
    exact ⟨⟨le_rfl, by simp [left, sub], by simp [left], Nat.mod_le _ _, by simp [left]⟩,
      rfl, rfl, rfl⟩
  · cases h

/-- Filling the cache leaves the next byte where it is; the bytes asked for are there as far as the file
has them. -/
theorem At.fill (h : r.At p) (size : ℕ) :
    (r.fill size).At p ∧ (r.fill size).file = r.file ∧ (r.fill size).readFilePos = r.readFilePos ∧
      (r.fill size).eof = r.eof ∧ min size (r.file.length - r.readFilePos) ≤ (r.fill size).left := by
  obtain ⟨hcur, hcached, hpos, hle, hin⟩ := h
  unfold Reader.fill
  simp only
  split
  · rename_i hleft
    unfold left at *
    -- the physical read is not cut: its place is not behind the believed one
    have hgot : (sub r.file r.filePos (min (max size cacheReadDefaultSize -
        (r.cacheRead.length - r.cursor)) (r.file.length - (r.readFilePos +
        (r.cacheRead.length - r.cursor))))).length = min (max size cacheReadDefaultSize -
        (r.cacheRead.length - r.cursor)) (r.file.length - (r.readFilePos +
        (r.cacheRead.length - r.cursor))) := by
      rw [length_sub]
      omega
    refine ⟨⟨Nat.zero_le _, ?_, ?_, hle, ?_⟩, rfl, rfl, rfl, ?_⟩
    · simp only [left, List.drop_zero, Nat.sub_zero, List.length_append, List.length_drop]
      rw [hgot, sub_add, hcached, hpos]
    · simp only [left, Nat.sub_zero, List.length_append, List.length_drop]
      omega
    · simp only [left, Nat.sub_zero, List.length_append, List.length_drop]
      rw [hgot]
      omega
    · simp only [Nat.sub_zero, List.length_append, List.length_drop]
      rw [hgot]
      omega
  · rename_i hleft
    refine ⟨⟨hcur, hcached, hpos, hle, hin⟩, rfl, rfl, rfl, ?_⟩
    unfold left at *
    omega

/-- **`read_with_cache` returns the bytes of the file**: as many as are asked for, or those up to the
end of the file, where it notes that the end is reached. -/
theorem At.readWithCache (h : r.At p) (size : ℕ) :
    (r.readWithCache size).1 = sub r.file p (min size (r.file.length - r.readFilePos)) ∧
      (r.readWithCache size).2.At (p + min size (r.file.length - r.readFilePos)) ∧
      (r.readWithCache size).2.file = r.file ∧
      (r.readWithCache size).2.readFilePos =
        r.readFilePos + min size (r.file.length - r.readFilePos) ∧
      (r.readWithCache size).2.eof = (r.eof || decide (r.file.length - r.readFilePos < size)) := by
  obtain ⟨hat, hfile, hpos, heof, henough⟩ := h.fill size
  obtain ⟨hcur, hcached, hfpos, hle, hin⟩ := hat
  unfold Reader.readWithCache
  simp only
  generalize r.fill size = q at *
  have hdata : sub q.cacheRead q.cursor size =
      sub r.file p (min size (r.file.length - r.readFilePos)) := by
    rw [sub, hcached, take_sub, hfile]
    congr 1
    rw [hfile, hpos] at hin
    omega
  have hp : p ≤ r.readFilePos := h.le
  have hlen : (sub q.cacheRead q.cursor size).length = min size (r.file.length - r.readFilePos) := by
    rw [hdata, length_sub]
    omega
  have hleft : q.left = q.cacheRead.length - q.cursor := rfl
  refine ⟨hdata, ⟨?_, ?_, ?_, ?_, ?_⟩, hfile, ?_, ?_⟩
  · change q.cursor + _ ≤ q.cacheRead.length
    omega
  · change q.cacheRead.drop (q.cursor + _) = sub q.file _ (q.cacheRead.length - (q.cursor + _))
    rw [← List.drop_drop, hcached, drop_sub, hlen]
    congr 1
    omega
  · change q.filePos = _ + (q.cacheRead.length - (q.cursor + _))
    omega
  · change _ ≤ q.readFilePos + _
    omega
  · change q.cacheRead.length - (q.cursor + _) ≤ q.file.length - (q.readFilePos + _)
    omega
  · omega
  · rw [hlen, heof]
    congr 1
    rw [decide_eq_decide]
    omega

end Reader

end QLog.Appender
