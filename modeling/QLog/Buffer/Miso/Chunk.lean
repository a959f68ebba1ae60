import QLog.Buffer.Miso.Model

/-!
# Chunks in memory

What the stores of the producers and the consumer do to the heads of the blocks, and the predicate
`ChunkOk N m p r`: the chunk of reservation `r` at position `p` is in memory as its phase says. It
looks at the blocks of the chunk only (`ChunkOk.congr`), which is how every step that writes
elsewhere keeps it.
-/

namespace QLog.Miso

variable {N : BlockCount} {m m' : Mem} {b b' : ℕ}

/-! ## Heads -/

/-- Two memories agree on a set of blocks. -/
def AgreeOn (m m' : Mem) (B : Set ℕ) : Prop := ∀ x, x / 128 ∈ B → m x = m' x

theorem AgreeOn.symm {B : Set ℕ} (h : AgreeOn m m' B) : AgreeOn m' m B :=
  fun x hx => (h x hx).symm

theorem AgreeOn.statusByte {B : Set ℕ} (h : AgreeOn m m' B) (hb : b ∈ B) :
    statusByte m b = statusByte m' b :=
  h _ (by rwa [show (128 * b + 3) / 128 = b by omega])

theorem AgreeOn.getBlockNum {B : Set ℕ} (h : AgreeOn m m' B) (hb : b ∈ B) :
    getBlockNum m b = getBlockNum m' b := by
  unfold Miso.getBlockNum
  rw [Mem.load_congr fun x hx hx' => h x (by rwa [show x / 128 = b by omega])]

theorem AgreeOn.dataSize {B : Set ℕ} (h : AgreeOn m m' B) (hb : b ∈ B) :
    dataSize m b = dataSize m' b :=
  Mem.load_congr fun x hx hx' => h x (by rwa [show x / 128 = b by omega])

theorem AgreeOn.slice {B : Set ℕ} {n size : ℕ} (h : AgreeOn m m' B)
    (hb : ∀ j < n, b + j ∈ B) (hsize : size + 8 ≤ 128 * n) :
    m.slice (dataAddr b) size = m'.slice (dataAddr b) size := by
  refine Mem.slice_congr fun x hx hx' => h x ?_
  unfold dataAddr at hx hx'
  rw [show x / 128 = b + (x / 128 - b) by omega]
  exact hb _ (by omega)

/-- A memory that differs in one block only. -/
theorem agreeOn_of_block {B : Set ℕ} (h : ∀ x, x / 128 ≠ b → m x = m' x) (hb : b ∉ B) :
    AgreeOn m m' B :=
  fun x hx => h x fun he => hb (he ▸ hx)

/-- The block count is in the first three bytes of the block. -/
theorem getBlockNum_eq_load (m : Mem) (b : ℕ) : getBlockNum m b = m.load (128 * b) 3 := by
  have hlt := Mem.load_lt m (128 * b) 3
  have hsplit : m.load (128 * b) 4 = m.load (128 * b) 3 + 2 ^ 24 * (m (128 * b + 3)).toNat := by
    simp only [Mem.load]
    ring
  unfold getBlockNum
  omega

theorem getBlockNum_lt (m : Mem) (b : ℕ) : getBlockNum m b < 2 ^ 24 := Nat.mod_lt _ (by norm_num)

theorem dataSize_lt (m : Mem) (b : ℕ) : dataSize m b < 2 ^ 32 := by
  have := Mem.load_lt m (128 * b + 4) 4
  unfold dataSize
  omega

/-! ## Stores -/

section Stores

variable (m b)

theorem setStatus_apply_of_ne (st : BlockStatus) {x : ℕ} (h : x ≠ 128 * b + 3) :
    setStatus m b st x = m x :=
  Mem.poke_apply_of_ne m _ h

@[simp] theorem statusByte_setStatus_self (st : BlockStatus) :
    statusByte (setStatus m b st) b = st.toByte :=
  Mem.poke_self _ _ _

theorem statusByte_setStatus_of_ne (st : BlockStatus) (h : b' ≠ b) :
    statusByte (setStatus m b st) b' = statusByte m b' :=
  setStatus_apply_of_ne m b st (by omega)

@[simp] theorem getBlockNum_setStatus (st : BlockStatus) :
    getBlockNum (setStatus m b st) b' = getBlockNum m b' := by
  rw [getBlockNum_eq_load, getBlockNum_eq_load]
  exact Mem.load_congr fun x hx hx' => setStatus_apply_of_ne m b st (by omega)

@[simp] theorem dataSize_setStatus (st : BlockStatus) :
    dataSize (setStatus m b st) b' = dataSize m b' :=
  Mem.load_congr fun x hx hx' => setStatus_apply_of_ne m b st (by omega)

/-- A status store changes the status byte of its block and nothing else. -/
theorem slice_setStatus (st : BlockStatus) (size : ℕ) :
    (setStatus m b st).slice (dataAddr b) size = m.slice (dataAddr b) size :=
  Mem.slice_congr fun x hx _ => setStatus_apply_of_ne m b st (by unfold dataAddr at hx; omega)

theorem agreeOn_setStatus (st : BlockStatus) {B : Set ℕ} (h : b ∉ B) :
    AgreeOn (setStatus m b st) m B :=
  agreeOn_of_block (fun x hx => setStatus_apply_of_ne m b st (by omega)) h

theorem statusByte_setBlockNum {n : ℕ} (h : n < 2 ^ 24) :
    statusByte (setBlockNum m b n) b = 0 := by
  unfold statusByte setBlockNum
  rw [Mem.store_apply_of_mem m n (by omega) (by omega), Nat.add_sub_cancel_left,
    show n / 256 ^ 3 = 0 by omega]
  rfl

theorem getBlockNum_setBlockNum {n : ℕ} (h : n < 2 ^ 24) :
    getBlockNum (setBlockNum m b n) b = n := by
  unfold getBlockNum setBlockNum
  rw [Mem.load_store m (128 * b) (by omega)]
  omega

theorem statusByte_setDataSize (n : ℕ) :
    statusByte (setDataSize m b n) b = statusByte m b :=
  Mem.store_apply_of_lt m n (by omega)

theorem getBlockNum_setDataSize (n : ℕ) :
    getBlockNum (setDataSize m b n) b = getBlockNum m b := by
  unfold getBlockNum setDataSize
  rw [Mem.load_congr fun x hx hx' => Mem.store_apply_of_lt m n (by omega)]

theorem dataSize_setDataSize {n : ℕ} (h : n < 2 ^ 32) :
    dataSize (setDataSize m b n) b = n :=
  Mem.load_store m (128 * b + 4) (by omega)

end Stores

/-- A payload byte lies in a block of its chunk. -/
theorem payload_block {i size n : ℕ} (hsize : size + 8 ≤ 128 * n) (hi : i < size) :
    ∃ j < n, (dataAddr b + i) / 128 = b + j := by
  unfold dataAddr
  exact ⟨(8 + i) / 128, by omega, by omega⟩

/-- A payload byte is no byte of the head. -/
theorem head_of_poke (i : ℕ) (v : UInt8) :
    statusByte (m.poke (dataAddr b + i) v) b = statusByte m b ∧
    getBlockNum (m.poke (dataAddr b + i) v) b = getBlockNum m b ∧
    dataSize (m.poke (dataAddr b + i) v) b = dataSize m b := by
  have hne : ∀ x < 128 * b + 8, m.poke (dataAddr b + i) v x = m x := by
    intro x hx
    exact Mem.poke_apply_of_ne m v (by unfold dataAddr; omega)
  refine ⟨hne _ (by omega), ?_, Mem.load_congr fun x _ hx' => hne x (by omega)⟩
  unfold getBlockNum
  rw [Mem.load_congr fun x _ hx' => hne x (by omega)]

/-- The blocks whose status is cleared, and no others. -/
theorem statusByte_clearStatus (m : Mem) (n b : ℕ) :
    statusByte (clearStatus m n) b = if b < n then 0 else statusByte m b := by
  unfold clearStatus
  induction n with
  | zero => simp
  | succ n ih =>
    rw [List.range_succ, List.foldl_append]
    simp only [List.foldl_cons, List.foldl_nil]
    by_cases hb : b = n
    · subst hb
      simp [BlockStatus.toByte]
    · rw [statusByte_setStatus_of_ne _ _ _ hb, ih]
      have : b < n + 1 ↔ b < n := by omega
      simp [this]

/-! ## The size of a chunk -/

/-- A chunk of `n` blocks is the smallest that holds `size` payload bytes. -/
def Fits (size n : ℕ) : Prop := size + 8 ≤ 128 * n ∧ 128 * n < size + 8 + 128

theorem fits_needBlocks {size : ℕ} (h : size + 8 ≤ 2 ^ 32) (hn : needBlocks size ≠ 0) :
    Fits size (needBlocks size) := by
  unfold needBlocks at *
  rw [Nat.shiftRight_eq_div_pow] at *
  unfold Fits
  omega

/-! ## Chunks -/

/-- The chunk of a reservation at position `p` is in memory as its phase says. -/
def ChunkOk (N : BlockCount) (m : Mem) (p : ℕ) (r : Resv) : Prop :=
  match r.phase with
  | .reserved => True
  | .granted => statusByte m (p % N.count) = 0
  | .invalid => statusByte m (p % N.count) = 2 ∧ getBlockNum m (p % N.count) = r.blocks
  | .committed payload =>
    statusByte m (p % N.count) = 1 ∧ getBlockNum m (p % N.count) = r.blocks ∧
    dataSize m (p % N.count) = r.size ∧
    m.slice (dataAddr (p % N.count)) r.size = payload ∧
    p % N.count + r.blocks ≤ N.count ∧ Fits r.size r.blocks

theorem ChunkOk.congr {p : ℕ} {r : Resv} (h : ChunkOk N m p r) (hpos : 0 < r.blocks)
    (he : AgreeOn m m' (ringBlocks N.count p r.blocks)) : ChunkOk N m' p r := by
  have hmem : p % N.count ∈ ringBlocks N.count p r.blocks := mod_mem_ringBlocks p hpos
  unfold ChunkOk at *
  cases hr : r.phase with
  | reserved => trivial
  | granted =>
    rw [hr] at h
    exact (he.statusByte hmem).symm.trans h
  | invalid =>
    rw [hr] at h
    exact ⟨(he.statusByte hmem).symm.trans h.1, (he.getBlockNum hmem).symm.trans h.2⟩
  | committed payload =>
    rw [hr] at h
    obtain ⟨hst, hnum, hsize, hslice, hfit, hfits⟩ := h
    refine ⟨(he.statusByte hmem).symm.trans hst, (he.getBlockNum hmem).symm.trans hnum,
      (he.dataSize hmem).symm.trans hsize, ?_, hfit, hfits⟩
    rw [← hslice]
    exact (he.slice (fun j hj => mod_add_mem_ringBlocks hfit hj) hfits.1).symm

end QLog.Miso
