import QLog.Foundations.PowTwo
import QLog.Buffer.Siso.Recovery

/-!
# Sizes of the mapped files

The sizes that `log_buffer` computes for the files of its groups and of its oversize buffers.

* The image of an oversize buffer does not say how large its ring is: `prepare_and_fix_recovery_data`
  doubles a 32-bit size from one cache line on until the file that belongs to it has the size it found.
  The size wraps to zero and the bound of the loop, the largest 32-bit value, is never met: the probe
  ends exactly on the files of some power of two (`oversize_probe_ends`).
* The groups are recovered by a member that is built before the configured buffer size is rounded and
  raised to its minimum. What it computes agrees with what the log buffer uses at run time exactly for
  the sizes above half of the minimum (`group_layout_stable`).
-/

namespace QLog.LogBuffer

open Siso (cacheLineSize)

/-! ## Memory of a ring -/

/-- `siso_ring_buffer::calculate_min_size_of_memory`. -/
def calculateMinSizeOfMemory (expectedBufferSize : ℕ) : ℕ :=
  (roundPowOfTwo expectedBufferSize + Siso.headSize + cacheLineSize) % 2 ^ 32

/-- Its assertion. -/
def minSizeAsserted (expectedBufferSize : ℕ) : Prop := expectedBufferSize ≤ 1 <<< 30

instance (size : ℕ) : Decidable (minSizeAsserted size) := by
  unfold minSizeAsserted
  infer_instance

/-- `HEAD_SIZE` of an oversize buffer. -/
def oversizeHeadSize : ℕ := cacheLineSize

/-- `oversize_buffer::calculate_size_of_memory`. -/
def calculateSizeOfMemory (requiredSisoBufferSize : ℕ) : ℕ :=
  add32 (calculateMinSizeOfMemory requiredSisoBufferSize) oversizeHeadSize

/-- `get_real_map_offset`, with the page size of the system. -/
def getRealMapOffset (pageSize offset : ℕ) : ℕ := offset - offset % pageSize

/-- `get_real_map_size`. -/
def getRealMapSize (pageSize offset size : ℕ) : ℕ :=
  let realMappingSize := size + offset % pageSize + (pageSize - 1)
  realMappingSize - realMappingSize % pageSize

/-- `get_min_size_of_memory_map_file`. -/
def getMinSizeOfMemoryMapFile (pageSize offset size : ℕ) : ℕ :=
  getRealMapOffset pageSize offset + getRealMapSize pageSize offset size

/-! ## The size probe of an oversize file -/

/-- How the probe of a file ends: with a buffer size, by removing the file, or at a failed assertion. -/
inductive ProbeResult
  | found (defaultBufferSize : ℕ)
  | removed
  | aborted
  deriving DecidableEq, Repr

/-- The size of the file of an oversize buffer. -/
def oversizeFileSize (pageSize defaultBufferSize : ℕ) : ℕ :=
  getMinSizeOfMemoryMapFile pageSize 0 (calculateSizeOfMemory defaultBufferSize)

/-- The test behind the loop. -/
def probeEnd (defaultBufferSize : ℕ) : ProbeResult :=
  if defaultBufferSize = 2 ^ 32 - 1 then .removed else .found defaultBufferSize

/-- The loop of `prepare_and_fix_recovery_data` over the sizes of an oversize file, for at most `fuel`
rounds: `none` while it runs. The assertions are there in a debug build. -/
def probeLoop (assertions : Bool) (pageSize fileSize : ℕ) : ℕ → ℕ → Option ProbeResult
  | 0, _ => none
  | fuel + 1, defaultBufferSize =>
    if defaultBufferSize < 2 ^ 32 - 1 then
      if assertions ∧ ¬ minSizeAsserted defaultBufferSize then some .aborted
      else if oversizeFileSize pageSize defaultBufferSize = fileSize then
        some (probeEnd defaultBufferSize)
      else probeLoop assertions pageSize fileSize fuel ((defaultBufferSize <<< 1) % 2 ^ 32)
    else some (probeEnd defaultBufferSize)

/-- The probe of a file found in the folder of the oversize buffers. -/
def probe (assertions : Bool) (pageSize fileSize fuel : ℕ) : Option ProbeResult :=
  probeLoop assertions pageSize fileSize fuel cacheLineSize

/-- What recovery needs of the probe: a power of two whose file has this size, or no file. -/
def ProbeResult.Ok (pageSize fileSize : ℕ) : ProbeResult → Prop
  | found size => (∃ k, size = 2 ^ k) ∧ oversizeFileSize pageSize size = fileSize
  | removed => True
  | aborted => False

/-- The largest size that the probe tries before it wraps, or before it fails an assertion. -/
def largestProbe (assertions : Bool) : ℕ := if assertions then 30 else 31

section Probe

variable {assertions : Bool} {pageSize fileSize : ℕ}

theorem minSizeAsserted_two_pow {k : ℕ} : minSizeAsserted (2 ^ k) ↔ k ≤ 30 := by
  rw [minSizeAsserted, Nat.one_shiftLeft]
  exact Nat.pow_le_pow_iff_right (by omega)

/-- The assertion fails nowhere up to the largest size. -/
theorem not_assertion_fails {k : ℕ} (hk : k ≤ largestProbe assertions) :
    ¬(assertions ∧ ¬ minSizeAsserted (2 ^ k)) := by
  rintro ⟨rfl, hassert⟩
  exact hassert (minSizeAsserted_two_pow.2 hk)

theorem largestProbe_le (assertions : Bool) : largestProbe assertions ≤ 31 := by
  unfold largestProbe
  split <;> omega

theorem two_pow_lt_max {k : ℕ} (hk : k ≤ 31) : 2 ^ k < 2 ^ 32 - 1 := by
  have : 2 ^ k ≤ 2 ^ 31 := Nat.pow_le_pow_right (by omega) hk
  omega

theorem probeEnd_of_lt {v : ℕ} (h : v < 2 ^ 32 - 1) : probeEnd v = .found v := by
  rw [probeEnd, if_neg (by omega)]

/-- One round at a power of two. -/
theorem probeLoop_two_pow {k : ℕ} (hk : k ≤ largestProbe assertions) (fuel : ℕ) :
    probeLoop assertions pageSize fileSize (fuel + 1) (2 ^ k) =
      if oversizeFileSize pageSize (2 ^ k) = fileSize then some (.found (2 ^ k))
      else probeLoop assertions pageSize fileSize fuel (2 ^ (k + 1) % 2 ^ 32) := by
  have hlt := two_pow_lt_max (hk.trans (largestProbe_le assertions))
  rw [probeLoop, if_pos hlt, if_neg (not_assertion_fails hk), probeEnd_of_lt hlt, Nat.shiftLeft_eq,
    pow_one, ← pow_succ]

/-- One round at zero: nothing changes. -/
theorem probeLoop_zero (fuel : ℕ) : probeLoop assertions pageSize fileSize (fuel + 1) 0 =
    if oversizeFileSize pageSize 0 = fileSize then some (.found 0)
    else probeLoop assertions pageSize fileSize fuel 0 := by
  rw [probeLoop, if_pos (by norm_num), if_neg (fun h => h.2 (Nat.zero_le _)), probeEnd_of_lt (by norm_num),
    Nat.zero_shiftLeft, Nat.zero_mod]

/-- From any power up to one that fits, the probe ends well. -/
theorem probeLoop_ends {d : ℕ} : ∀ {k : ℕ}, k + d ≤ largestProbe assertions →
    oversizeFileSize pageSize (2 ^ (k + d)) = fileSize →
    ∃ fuel r, probeLoop assertions pageSize fileSize fuel (2 ^ k) = some r ∧ r.Ok pageSize fileSize := by
  induction d with
  | zero =>
    intro k hk hsize
    rw [Nat.add_zero] at hk hsize
    exact ⟨1, .found (2 ^ k), by rw [probeLoop_two_pow hk, if_pos hsize], ⟨k, rfl⟩, hsize⟩
  | succ d ih =>
    intro k hk hsize
    by_cases hnow : oversizeFileSize pageSize (2 ^ k) = fileSize
    · exact ⟨1, .found (2 ^ k), by rw [probeLoop_two_pow (by omega), if_pos hnow], ⟨k, rfl⟩, hnow⟩
    · rw [← Nat.add_assoc, Nat.add_right_comm] at hk hsize
      obtain ⟨fuel, r, hrun, hok⟩ := ih hk hsize
      have hlt : 2 ^ (k + 1) < 2 ^ 32 := (Nat.pow_lt_pow_iff_right (by omega)).2
        (by have := largestProbe_le assertions; omega)
      refine ⟨fuel + 1, r, ?_, hok⟩
      rw [probeLoop_two_pow (by omega), if_neg hnow, Nat.mod_eq_of_lt hlt, hrun]

/-- A probe that reached zero finds no power of two any more. -/
theorem not_ok_of_zero {fuel : ℕ} {r : ProbeResult}
    (h : probeLoop assertions pageSize fileSize fuel 0 = some r) : ¬ r.Ok pageSize fileSize := by
  induction fuel with
  | zero => cases h
  | succ fuel ih =>
    rw [probeLoop_zero] at h
    split at h
    · obtain rfl := Option.some.inj h
      rintro ⟨⟨k, hk⟩, -⟩
      exact absurd hk (Nat.two_pow_pos k).ne
    · exact ih h

/-- A probe that ends well found a power of two. -/
theorem exists_of_probeLoop {fuel k : ℕ} {r : ProbeResult} (hk : k ≤ 31)
    (h : probeLoop assertions pageSize fileSize fuel (2 ^ k) = some r) (hr : r.Ok pageSize fileSize) :
    ∃ j, k ≤ j ∧ j ≤ largestProbe assertions ∧ oversizeFileSize pageSize (2 ^ j) = fileSize := by
  induction fuel generalizing k with
  | zero => cases h
  | succ fuel ih =>
    by_cases hlargest : k ≤ largestProbe assertions
    · rw [probeLoop_two_pow hlargest] at h
      split at h
      · rename_i hsize
        exact ⟨k, le_rfl, hlargest, hsize⟩
      · by_cases hlast : k = 31
        · subst hlast
          exact absurd hr (not_ok_of_zero h)
        · have hlt : 2 ^ (k + 1) < 2 ^ 32 := (Nat.pow_lt_pow_iff_right (by omega)).2 (by omega)
          rw [Nat.mod_eq_of_lt hlt] at h
          obtain ⟨j, hj, hle, hsize⟩ := ih (by omega) h
          exact ⟨j, by omega, hle, hsize⟩
    · -- Only a debug build has sizes beyond the largest one: its assertion fails.
      have hbuild : assertions = true ∧ k = 31 := by
        cases assertions with
        | false => exact absurd hk hlargest
        | true =>
          have hgt : 30 < k := Nat.lt_of_not_le hlargest
          exact ⟨rfl, by omega⟩
      obtain ⟨rfl, rfl⟩ := hbuild
      have hfail : ¬ minSizeAsserted (2 ^ 31) := by
        rw [minSizeAsserted_two_pow]
        norm_num
      rw [probeLoop, if_pos (two_pow_lt_max le_rfl), if_pos ⟨rfl, hfail⟩] at h
      obtain rfl := Option.some.inj h
      exact hr.elim

end Probe

/-- **The size probe of an oversize file.** It ends, with a power of two whose file has the size found or
by removing the file, if and only if the size found belongs to the file of some power of two, from one
cache line up to the largest size that the build can compute. -/
theorem oversize_probe_ends (assertions : Bool) (pageSize fileSize : ℕ) :
    (∃ fuel r, probe assertions pageSize fileSize fuel = some r ∧ r.Ok pageSize fileSize) ↔
      ∃ k, 7 ≤ k ∧ k ≤ largestProbe assertions ∧ oversizeFileSize pageSize (2 ^ k) = fileSize := by
  constructor
  · rintro ⟨fuel, r, hrun, hok⟩
    exact exists_of_probeLoop (by omega) hrun hok
  · rintro ⟨k, hk, hlargest, hsize⟩
    obtain ⟨d, rfl⟩ := Nat.exists_eq_add_of_le hk
    exact probeLoop_ends hlargest hsize

/-- An empty file, left when the process ends between the creation of the file and its first
`truncate_file`: a release build probes it for ever, and a debug build fails its assertion. -/
theorem oversize_probe_emptyFile :
    ¬∃ assertions fuel r, probe assertions 4096 0 fuel = some r ∧ r.Ok 4096 0 := by
  rintro ⟨assertions, fuel, r, hrun, hok⟩
  obtain ⟨k, -, hk, hsize⟩ := exists_of_probeLoop (k := 7) (by omega) hrun hok
  have hall : ∀ k < 32, oversizeFileSize 4096 (2 ^ k) ≠ 0 := by decide +kernel
  exact hall k (lt_of_le_of_lt (hk.trans (largestProbe_le assertions)) (by omega)) hsize

/-! ## The layout of a group -/

/-- `BLOCKS_PER_GROUP_NODE`, which is smaller on a mobile platform. -/
def blocksPerGroupNode (mobile : Bool) : ℕ := if mobile then 2 else 16

/-- The smallest buffer size. -/
def minBufferSize : ℕ := 16 * cacheLineSize

/-- `block_node_head::get_buffer_data_offset`: one cache line and the ring object, rounded up to cache
lines. -/
def getBufferDataOffset (sizeofSiso : ℕ) : ℕ :=
  let size := cacheLineSize + sizeofSiso + cacheLineSize - 1
  size - size % cacheLineSize

/-- `sizeof(group_data_head)`. -/
def sizeofGroupDataHead : ℕ := 3 * cacheLineSize

/-- `group_node::get_group_meta_size`. -/
def getGroupMetaSize : ℕ := cacheLineSize

/-- `group_node::get_group_data_size`. -/
def getGroupDataSize (sizeofSiso defaultBufferSize maxBlocks : ℕ) : ℕ :=
  let dataPerBlock := getBufferDataOffset sizeofSiso + calculateMinSizeOfMemory defaultBufferSize
  dataPerBlock * maxBlocks + sizeofGroupDataHead

/-- The file size that `normal_buffer` compares with the size of a file that exists. -/
def groupFileSize (pageSize sizeofSiso defaultBufferSize maxBlocks : ℕ) : ℕ :=
  getMinSizeOfMemoryMapFile pageSize 0
    (getGroupMetaSize + getGroupDataSize sizeofSiso defaultBufferSize maxBlocks)

/-- The bytes behind the head that `group_data_head` hands to its lists. -/
def groupBlockBytes (sizeofSiso defaultBufferSize maxBlocks : ℕ) : ℕ :=
  getGroupDataSize sizeofSiso defaultBufferSize maxBlocks - sizeofGroupDataHead

/-- `buffer_size_per_block_` of `block_list`. -/
def bufferSizePerBlock (sizeofSiso defaultBufferSize maxBlocks : ℕ) : ℕ :=
  let size := groupBlockBytes sizeofSiso defaultBufferSize maxBlocks / maxBlocks
  size - size % cacheLineSize

/-- The block count of the ring of a block that `recovery_blocks` constructs. -/
def recoveredRingBlocks (sizeofSiso defaultBufferSize maxBlocks : ℕ) : ℕ :=
  Siso.blockCountOf
    (bufferSizePerBlock sizeofSiso defaultBufferSize maxBlocks - getBufferDataOffset sizeofSiso)

/-- The block count of the ring of a block that `group_data_head` constructs anew; here the size of a
block is not rounded to cache lines. -/
def freshRingBlocks (sizeofSiso defaultBufferSize maxBlocks : ℕ) : ℕ :=
  Siso.blockCountOf
    (groupBlockBytes sizeofSiso defaultBufferSize maxBlocks / maxBlocks - getBufferDataOffset sizeofSiso)

/-- What two lives of a log buffer must agree on: the size of the file, the stride of the blocks and the
block count of their rings. -/
structure GroupLayout where
  fileSize : ℕ
  stride : ℕ
  ringBlocks : ℕ
  deriving DecidableEq, Repr

/-- `default_buffer_size` after the constructor of `log_buffer`. -/
def roundedBufferSize (defaultBufferSize : ℕ) : ℕ := max minBufferSize (roundupPowOfTwo32 defaultBufferSize)

/-- The layout with which the constructor of `group_list` recovers the groups; the member is built first,
and the configured size is the one it finds. -/
def layoutAtRecovery (pageSize sizeofSiso : ℕ) (mobile : Bool) (defaultBufferSize : ℕ) : GroupLayout :=
  let n := blocksPerGroupNode mobile
  ⟨groupFileSize pageSize sizeofSiso defaultBufferSize n, bufferSizePerBlock sizeofSiso defaultBufferSize n,
    recoveredRingBlocks sizeofSiso defaultBufferSize n⟩

/-- The layout with which the same log buffer creates groups. -/
def layoutAtRunTime (pageSize sizeofSiso : ℕ) (mobile : Bool) (defaultBufferSize : ℕ) : GroupLayout :=
  let n := blocksPerGroupNode mobile
  let size := roundedBufferSize defaultBufferSize
  ⟨groupFileSize pageSize sizeofSiso size n, bufferSizePerBlock sizeofSiso size n,
    freshRingBlocks sizeofSiso size n⟩

section Layout

variable {sizeofSiso maxBlocks : ℕ}

theorem blocksPerGroupNode_pos (mobile : Bool) : 0 < blocksPerGroupNode mobile := by
  cases mobile <;> decide

theorem getBufferDataOffset_mod (sizeofSiso : ℕ) : getBufferDataOffset sizeofSiso % cacheLineSize = 0 := by
  simp only [getBufferDataOffset, cacheLineSize]
  omega

/-- A rounded size occupies exactly the bytes of one block. -/
theorem groupBlockBytes_div (defaultBufferSize : ℕ) (hpos : 0 < maxBlocks) :
    groupBlockBytes sizeofSiso defaultBufferSize maxBlocks / maxBlocks =
      getBufferDataOffset sizeofSiso + calculateMinSizeOfMemory defaultBufferSize := by
  rw [groupBlockBytes, getGroupDataSize, Nat.add_sub_cancel, Nat.mul_div_cancel _ hpos]

/-- The memory of a ring, when the rounded size has 32 bits. -/
theorem calculateMinSizeOfMemory_eq {s k : ℕ} (hk : k ≤ 31) (h : roundPowOfTwo s = 2 ^ k) :
    calculateMinSizeOfMemory s = 2 ^ k + 640 := by
  have hle : 2 ^ k ≤ 2 ^ 31 := Nat.pow_le_pow_right (by omega) hk
  rw [calculateMinSizeOfMemory, h]
  simp only [Siso.headSize, cacheLineSize]
  omega

/-- At least a cache line large, the size of a block is a number of cache lines. -/
theorem bufferSizePerBlock_eq (sizeofSiso : ℕ) {s k : ℕ} (hlo : 7 ≤ k) (hk : k ≤ 31) (h : roundPowOfTwo s = 2 ^ k)
    (hpos : 0 < maxBlocks) : bufferSizePerBlock sizeofSiso s maxBlocks =
      getBufferDataOffset sizeofSiso + (2 ^ k + 640) := by
  obtain ⟨d, rfl⟩ := Nat.exists_eq_add_of_le hlo
  have hoffset := getBufferDataOffset_mod sizeofSiso
  have hmul : 2 ^ (7 + d) = 128 * 2 ^ d := pow_add 2 7 d
  rw [bufferSizePerBlock, groupBlockBytes_div s hpos, calculateMinSizeOfMemory_eq hk h, hmul]
  simp only [cacheLineSize] at hoffset ⊢
  omega

/-- The constructor of `group_list` and the later code see the same rounded size. -/
theorem roundPowOfTwo_rounded {s k : ℕ} (hlo : 11 ≤ k) (hk : k ≤ 31) (hs : s < 2 ^ 32)
    (h : roundPowOfTwo s = 2 ^ k) : roundPowOfTwo (roundedBufferSize s) = 2 ^ k := by
  have hmin : minBufferSize ≤ 2 ^ k := by
    have : 2 ^ 11 ≤ 2 ^ k := Nat.pow_le_pow_right (by omega) hlo
    exact this
  rw [roundedBufferSize, ← roundPowOfTwo_eq_roundup hs, h, max_eq_right hmin,
    roundPowOfTwo_two_pow (by omega)]

/-- Otherwise the later code uses the smallest size. -/
theorem roundedBufferSize_of_small {s : ℕ} (hs : s < 2 ^ 32) (h : roundPowOfTwo s ≤ 2 ^ 11) :
    roundedBufferSize s = 2 ^ 11 := by
  rw [roundedBufferSize, ← roundPowOfTwo_eq_roundup hs]
  exact max_eq_left h

/-- The memory of a ring depends on the rounded size only. -/
theorem calculateMinSizeOfMemory_congr {s t : ℕ} (h : roundPowOfTwo s = roundPowOfTwo t) :
    calculateMinSizeOfMemory s = calculateMinSizeOfMemory t := by
  rw [calculateMinSizeOfMemory, calculateMinSizeOfMemory, h]

/-- Both sides round to the same power: the layouts agree. -/
theorem layout_eq {s k : ℕ} (pageSize : ℕ) (mobile : Bool) (hlo : 11 ≤ k) (hk : k ≤ 31) (hs : s < 2 ^ 32)
    (h : roundPowOfTwo s = 2 ^ k) :
    layoutAtRecovery pageSize sizeofSiso mobile s = layoutAtRunTime pageSize sizeofSiso mobile s := by
  have hpos := blocksPerGroupNode_pos mobile
  have hrounded := roundPowOfTwo_rounded hlo hk hs h
  have hmemory := calculateMinSizeOfMemory_congr (h.trans hrounded.symm)
  have hstride := bufferSizePerBlock_eq sizeofSiso (by omega) hk h hpos
  have hstride' := bufferSizePerBlock_eq sizeofSiso (by omega) hk hrounded hpos
  rw [layoutAtRecovery, layoutAtRunTime, GroupLayout.mk.injEq]
  refine ⟨?_, hstride.trans hstride'.symm, ?_⟩
  · rw [groupFileSize, groupFileSize, getGroupDataSize, getGroupDataSize, hmemory]
  · rw [recoveredRingBlocks, freshRingBlocks, hstride, groupBlockBytes_div _ hpos,
      calculateMinSizeOfMemory_eq hk hrounded]

/-- A size that is rounded below the minimum gives blocks that are too close together. -/
theorem stride_lt (pageSize sizeofSiso : ℕ) {s : ℕ} (mobile : Bool) (hs : s < 2 ^ 32)
    (h : roundPowOfTwo s ≤ 2 ^ 10) :
    (layoutAtRecovery pageSize sizeofSiso mobile s).stride <
      (layoutAtRunTime pageSize sizeofSiso mobile s).stride := by
  have hpos := blocksPerGroupNode_pos mobile
  have hrounded := roundedBufferSize_of_small hs (h.trans (by omega))
  have hruntime := bufferSizePerBlock_eq sizeofSiso (by omega) (by omega)
    (roundPowOfTwo_two_pow (show 11 < 32 by omega)) hpos
  have hmemory : calculateMinSizeOfMemory s ≤ 2 ^ 10 + 640 := by
    rw [calculateMinSizeOfMemory]
    simp only [Siso.headSize, cacheLineSize]
    omega
  change bufferSizePerBlock sizeofSiso s _ < bufferSizePerBlock sizeofSiso (roundedBufferSize s) _
  rw [hrounded, hruntime, bufferSizePerBlock, groupBlockBytes_div s hpos]
  omega

/-- Sizes up to half of the minimum, and those that wrap, are rounded below it. -/
theorem roundPowOfTwo_le_of_small {s : ℕ} (hs : s < 2 ^ 32) (h : s ≤ 2 ^ 10 ∨ 2 ^ 31 < s) :
    roundPowOfTwo s ≤ 2 ^ 10 := by
  rcases h with h | h
  · rcases Nat.eq_zero_or_pos s with rfl | hpos
    · rw [roundPowOfTwo_zero]
      exact Nat.zero_le _
    · obtain ⟨k, -, hk, -, hmin⟩ := exists_roundPowOfTwo hpos (h.trans (by omega))
      rw [hk]
      exact hmin 10 h
  · rw [roundPowOfTwo_of_large h hs]
    exact Nat.zero_le _

end Layout

/-- **The layout of the groups.** What the constructor recovers the groups with is what the log buffer
creates them with, for a configured size above half of the minimum and up to the largest power of two of
32 bits, and for no other size. -/
theorem group_layout_stable (pageSize sizeofSiso : ℕ) (mobile : Bool) (defaultBufferSize : BitVec 32) :
    layoutAtRecovery pageSize sizeofSiso mobile defaultBufferSize.toNat =
        layoutAtRunTime pageSize sizeofSiso mobile defaultBufferSize.toNat ↔
      2 ^ 10 < defaultBufferSize.toNat ∧ defaultBufferSize.toNat ≤ 2 ^ 31 := by
  have hs := defaultBufferSize.isLt
  constructor
  · intro heq
    by_contra hout
    have hlt := stride_lt pageSize sizeofSiso mobile hs
      (roundPowOfTwo_le_of_small hs (by omega))
    rw [heq] at hlt
    exact lt_irrefl _ hlt
  · rintro ⟨hlo, hhi⟩
    obtain ⟨k, hk, hround, hle, -⟩ := exists_roundPowOfTwo (by omega) hhi
    have hk' : 10 < k := (Nat.pow_lt_pow_iff_right (by omega)).1 (lt_of_lt_of_le hlo hle)
    exact layout_eq pageSize mobile hk' (by omega) hs hround

/-- The configured size 1024, which every assertion of the constructors accepts, on pages of 4096 bytes:
the file of a group has another size in the next life, so it is truncated and initialised anew. -/
theorem group_layout_halfMinimum :
    (layoutAtRecovery 4096 128 false 1024).fileSize ≠ (layoutAtRunTime 4096 128 false 1024).fileSize := by
  decide +kernel

end QLog.LogBuffer
