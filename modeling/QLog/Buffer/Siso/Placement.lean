import QLog.Buffer.Siso.Model

/-!
# Where a chunk lies

A chunk at position `p` owns the blocks of `chunkBlocks` consecutive positions. Its head and its
payload lie on these blocks, wherever the payload was put (`head_mem_ringBlocks`,
`payload_mem_ringBlocks`), so a chunk in memory (`Stored`) only depends on its own blocks
(`Stored.congr`), and the payload address recomputed from the head is the one handed out
(`getBlockDataAddr_eq`).
-/

namespace QLog.Siso

variable {N : BlockCount} {p size : ℕ}

theorem normalBlocks_eq (size : ℕ) : normalBlocks size = (size + 15) / 8 := by
  rw [normalBlocks, Nat.shiftRight_eq_div_pow]

theorem chunkBlocks_eq (index size : ℕ) :
    chunkBlocks N index size = if tail N index < (size + 15) / 8 then tail N index + (size + 7) / 8
      else (size + 15) / 8 := by
  rw [chunkBlocks, normalBlocks_eq, Nat.shiftRight_eq_div_pow]

theorem not_sizeInvalid_iff (index size : ℕ) :
    ¬ sizeInvalid N index size ↔ (size + 15) / 8 ≤ N.count ∧
      (tail N index < (size + 15) / 8 → (size + 15) / 8 + tail N index - 1 ≤ N.count) := by
  unfold sizeInvalid
  rw [normalBlocks_eq]
  omega

theorem tail_pos {index : ℕ} (h : index < N.count) : 0 < tail N index := by
  unfold tail
  omega

theorem chunkBlocks_pos {index : ℕ} (h : index < N.count) : 0 < chunkBlocks N index size := by
  have := tail_pos h
  rw [chunkBlocks_eq]
  split <;> omega

theorem chunkBlocks_le {index : ℕ} (h : index < N.count) (hv : ¬ sizeInvalid N index size) :
    chunkBlocks N index size ≤ N.count := by
  have := tail_pos h
  rw [not_sizeInvalid_iff] at hv
  rw [chunkBlocks_eq]
  split <;> omega

/-- The payload lies inside the data area. -/
theorem payloadAddr_add_le {index : ℕ} (h : index < N.count) (hv : ¬ sizeInvalid N index size) :
    payloadAddr N index size + size ≤ 8 * N.count := by
  rw [not_sizeInvalid_iff] at hv
  unfold payloadAddr
  rw [normalBlocks_eq]
  unfold tail at *
  split <;> omega

/-- **The payload address recomputed from a head equals the one handed to the producer.** -/
theorem getBlockDataAddr_eq {data : Mem} {index : ℕ} (h : data.load (index * 8 + 4) 4 = size) :
    getBlockDataAddr N data index = payloadAddr N index size := by
  unfold getBlockDataAddr payloadAddr
  rw [h, normalBlocks_eq]
  split <;> split <;> first | rfl | omega

/-! ## The blocks of a chunk -/

theorem add_mod_of_lt {n i : ℕ} (h : p % n + i < n) : (p + i) % n = p % n + i := by
  rw [← Nat.mod_add_mod, Nat.mod_eq_of_lt h]

theorem head_mem_ringBlocks {x n : ℕ} (hn : 0 < n) (h : p % N.count * 8 ≤ x)
    (h' : x < p % N.count * 8 + 8) : x / 8 ∈ ringBlocks N.count p n := by
  refine ⟨0, hn, ?_⟩
  rw [Nat.add_zero]
  omega

/-- **Every payload byte lies on a block of the chunk**, also when the payload was moved to the
start of the data area. -/
theorem payload_mem_ringBlocks {x : ℕ} (hv : ¬ sizeInvalid N (p % N.count) size)
    (h : payloadAddr N (p % N.count) size ≤ x)
    (h' : x < payloadAddr N (p % N.count) size + size) :
    x / 8 ∈ ringBlocks N.count p (chunkBlocks N (p % N.count) size) := by
  have hlt := Nat.mod_lt p N.count_pos
  rw [not_sizeInvalid_iff] at hv
  rw [chunkBlocks_eq]
  unfold payloadAddr at h h'
  rw [normalBlocks_eq] at h h'
  unfold tail at *
  by_cases hw : N.count - p % N.count < (size + 15) / 8
  · -- the payload begins at the start of the data area, right after the skipped tail
    rw [if_pos hw] at h h' ⊢
    refine ⟨N.count - p % N.count + x / 8, by omega, ?_⟩
    rw [← Nat.mod_add_mod, show p % N.count + (N.count - p % N.count + x / 8) =
      N.count + x / 8 by omega, Nat.add_mod_left, Nat.mod_eq_of_lt (by omega)]
  · rw [if_neg hw] at h h' ⊢
    refine ⟨x / 8 - p % N.count, by omega, ?_⟩
    rw [add_mod_of_lt (by omega)]
    omega

/-! ## A chunk in memory -/

/-- The chunk `c` lies at position `p` of the memory: its head is written there and its payload
bytes are in place. -/
structure Stored (N : BlockCount) (data : Mem) (p : ℕ) (c : Chunk) : Prop where
  cursor : c.cursor = p % 2 ^ 32
  valid : ¬ sizeInvalid N (p % N.count) c.payload.length
  blocks : c.blocks = chunkBlocks N (p % N.count) c.payload.length
  dataAddr : c.dataAddr = payloadAddr N (p % N.count) c.payload.length
  load_blocks : data.load (p % N.count * 8) 4 = c.blocks
  load_size : data.load (p % N.count * 8 + 4) 4 = c.payload.length
  payload : data.slice c.dataAddr c.payload.length = c.payload

namespace Stored

variable {data data' : Mem} {c : Chunk}

theorem index_lt (N : BlockCount) (p : ℕ) : p % N.count < N.count := Nat.mod_lt p N.count_pos

theorem blocks_pos (h : Stored N data p c) : 0 < c.blocks := by
  rw [h.blocks]
  exact chunkBlocks_pos (index_lt N p)

theorem dataAddr_add_le (h : Stored N data p c) :
    c.dataAddr + c.payload.length ≤ 8 * N.count := by
  rw [h.dataAddr]
  exact payloadAddr_add_le (index_lt N p) h.valid

/-- A stored chunk only depends on its own blocks. -/
theorem congr (h : Stored N data p c)
    (he : ∀ x, x / 8 ∈ ringBlocks N.count p c.blocks → data x = data' x) :
    Stored N data' p c where
  cursor := h.cursor
  valid := h.valid
  blocks := h.blocks
  dataAddr := h.dataAddr
  load_blocks := by
    rw [← h.load_blocks]
    exact (Mem.load_congr fun x hx hx' =>
      he x (head_mem_ringBlocks h.blocks_pos hx (by omega))).symm
  load_size := by
    rw [← h.load_size]
    exact (Mem.load_congr fun x hx hx' =>
      he x (head_mem_ringBlocks h.blocks_pos (by omega) (by omega))).symm
  payload := by
    conv_rhs => rw [← h.payload]
    refine (Mem.slice_congr fun x hx hx' => he x ?_).symm
    rw [h.dataAddr] at hx hx'
    rw [h.blocks]
    exact payload_mem_ringBlocks h.valid hx hx'

/-- Reading the head at the cursor of a stored chunk gives back the chunk. -/
theorem chunkAt_eq {s : State} (h : Stored N s.data p c) : s.chunkAt N (p % 2 ^ 32) = c := by
  have haddr : getBlockDataAddr N s.data (p % N.count) = c.dataAddr :=
    (getBlockDataAddr_eq h.load_size).trans h.dataAddr.symm
  obtain ⟨cursor, blocks, dataAddr, payload⟩ := c
  simp only [State.chunkAt, N.index_mod, haddr, h.load_size, h.load_blocks, Chunk.mk.injEq]
  exact ⟨h.cursor.symm, trivial, trivial, h.payload⟩

end Stored

end QLog.Siso
