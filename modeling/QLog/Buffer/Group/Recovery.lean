import QLog.Foundations.Chain
import QLog.Buffer.LogBuffer.Sizes

/-!
# Recovery of a group

A group of blocks keeps three intrusive lists: the blocks in use, the free ones, and the stage between
them. The model follows the constructor of `group_data_head`, on the mapped bytes of an earlier life: a
list head or a link is an index and a mark, the block behind it is found by the index, and the type of a
block names the list that took it last.

* A list is recovered when its walk ends within the number of blocks, on blocks of its own type, and reset
  otherwise; so what is recovered is a chain (`exists_chain_of_construct`).
* The blocks on no recovered list are set up anew and pushed to the free list (`freeLoop_spec`).

The bytes may hold cycles, shared tails or links from one list into the other: the constructor ends, and
the three lists are a partition of the blocks (`group_recovery_partition`).
-/

namespace QLog.Group

open Siso (cacheLineSize)

/-! ## Blocks and lists -/

/-- `block_list_type`; what a byte of the image means when it is none of them is left open. -/
inductive BlockListType
  | listNone
  | listFree
  | listStage
  | listUsed
  | other (byte : ℕ)
  deriving DecidableEq, Repr

/-- The type of a block in the mapped bytes. -/
def BlockListType.ofByte : ℕ → BlockListType
  | 0 => listNone
  | 1 => listFree
  | 2 => listStage
  | 3 => listUsed
  | byte => other byte

/-- `block_node_head::pointer_type`. -/
structure PointerType where
  index : ℕ
  abaMark : ℕ
  deriving DecidableEq, Repr

/-- The index that stands for no block. -/
def emptyIndex : ℕ := 2 ^ 16 - 1

/-- The block that a pointer leads to. -/
def PointerType.block (p : PointerType) : Option ℕ := if p.index = emptyIndex then none else some p.index

/-- `block_node_head`: the head of a block, the bytes from `get_buffer_data_offset` on, and the ring there
once it is constructed. -/
structure BlockNodeHead where
  next : PointerType
  type : BlockListType
  miscData : List UInt8
  storage : Mem
  buffer : Option (BlockCount × Siso.State)

/-- The blocks of a group by their index. -/
abbrev Blocks := ℕ → BlockNodeHead

/-- `block_list`. -/
structure BlockList where
  head : PointerType
  offset : ℕ
  maxBlocksCount : ℕ
  bufferSizePerBlock : ℕ
  type : BlockListType

/-- `group_data_head`, with the blocks behind it. -/
structure GroupDataHead where
  used : BlockList
  free : BlockList
  stage : BlockList
  blocks : Blocks

/-- The sizes with which the constructor is called: the rings have the block counts that follow from the
bytes of a block, rounded to cache lines for a recovered block and not rounded for a new one. -/
structure Params where
  sizeofSiso : ℕ
  groupDataSize : ℕ
  maxBlocksCount : ℕ
  recoveredRing : BlockCount
  freshRing : BlockCount
  maxBlocksCount_pos : 0 < maxBlocksCount
  maxBlocksCount_lt : maxBlocksCount < emptyIndex
  recoveredRing_count : Siso.blockCountOf (groupDataSize / maxBlocksCount -
    groupDataSize / maxBlocksCount % cacheLineSize - LogBuffer.getBufferDataOffset sizeofSiso) =
      recoveredRing.count
  freshRing_count : Siso.blockCountOf (groupDataSize / maxBlocksCount -
    LogBuffer.getBufferDataOffset sizeofSiso) = freshRing.count

/-- The doubling stops at the largest power of two. -/
theorem doubleCount_eq {maxBlocks n : ℕ} (hlo : 2 ^ n ≤ maxBlocks) (hhi : maxBlocks < 2 ^ (n + 1)) {fuel j : ℕ}
    (hj : j ≤ n) (hfuel : n - j < fuel) : Siso.doubleCount maxBlocks fuel (2 ^ j) = 2 ^ n := by
  induction fuel generalizing j with
  | zero => omega
  | succ fuel ih =>
    rw [Siso.doubleCount]
    rcases Nat.lt_or_eq_of_le hj with hlt | rfl
    · have hle : 2 ^ (j + 1) ≤ 2 ^ n := Nat.pow_le_pow_right (by omega) hlt
      rw [pow_succ] at hle
      rw [if_pos (by omega), ← pow_succ]
      exact ih hlt (by omega)
    · rw [pow_succ] at hhi
      rw [if_neg (by omega)]

/-- The ring in the bytes of a block has the configured size. -/
theorem blockCountOf_two_pow {k : ℕ} (hlo : 8 ≤ k) (hhi : k ≤ 31) :
    Siso.blockCountOf (2 ^ k + 640) = 2 ^ (k - 3) := by
  obtain ⟨d, rfl⟩ := Nat.exists_eq_add_of_le hlo
  have hpow : 2 ^ (8 + d) = 256 * 2 ^ d := pow_add 2 8 d
  have hpow' : 2 ^ (8 + d - 3) = 32 * 2 ^ d := by
    rw [show 8 + d - 3 = 5 + d by omega]
    exact pow_add 2 5 d
  have hpos := Nat.two_pow_pos d
  have hmax : (2 ^ (8 + d) + 640 - Siso.headSize) / 8 = 32 * 2 ^ d + 16 := by
    rw [hpow]
    simp only [Siso.headSize, cacheLineSize]
    omega
  rw [Siso.blockCountOf, hmax]
  exact doubleCount_eq (by omega) (by rw [pow_succ, hpow']; omega) (Nat.zero_le _) (by omega)

section OfBufferSize

variable {k : ℕ} (hlo : 11 ≤ k) (hhi : k ≤ 30)

theorem ringLog2_lt (hhi : k ≤ 30) : k - 3 < 32 := by omega

theorem blocksPerGroupNode_lt (mobile : Bool) : LogBuffer.blocksPerGroupNode mobile < emptyIndex := by
  cases mobile <;> decide

include hlo hhi

theorem recoveredRing_blockCount (sizeofSiso : ℕ) (mobile : Bool) :
    Siso.blockCountOf (LogBuffer.groupBlockBytes sizeofSiso (2 ^ k) (LogBuffer.blocksPerGroupNode mobile) /
        LogBuffer.blocksPerGroupNode mobile -
      LogBuffer.groupBlockBytes sizeofSiso (2 ^ k) (LogBuffer.blocksPerGroupNode mobile) /
        LogBuffer.blocksPerGroupNode mobile % cacheLineSize - LogBuffer.getBufferDataOffset sizeofSiso) =
      2 ^ (k - 3) := by
  have hstride := LogBuffer.bufferSizePerBlock_eq sizeofSiso (by omega) (by omega)
    (roundPowOfTwo_two_pow (show k < 32 by omega)) (LogBuffer.blocksPerGroupNode_pos mobile)
  rw [LogBuffer.bufferSizePerBlock] at hstride
  rw [hstride, Nat.add_sub_cancel_left]
  exact blockCountOf_two_pow (by omega) (by omega)

theorem freshRing_blockCount (sizeofSiso : ℕ) (mobile : Bool) :
    Siso.blockCountOf (LogBuffer.groupBlockBytes sizeofSiso (2 ^ k) (LogBuffer.blocksPerGroupNode mobile) /
      LogBuffer.blocksPerGroupNode mobile - LogBuffer.getBufferDataOffset sizeofSiso) = 2 ^ (k - 3) := by
  rw [LogBuffer.groupBlockBytes_div _ (LogBuffer.blocksPerGroupNode_pos mobile), Nat.add_sub_cancel_left,
    LogBuffer.calculateMinSizeOfMemory_eq (show k ≤ 31 by omega) (roundPowOfTwo_two_pow (by omega))]
  exact blockCountOf_two_pow (by omega) (by omega)

end OfBufferSize

/-- The sizes for a configured buffer size that is a power of two. -/
def Params.ofBufferSize (sizeofSiso : ℕ) (mobile : Bool) (k : ℕ) (hlo : 11 ≤ k) (hhi : k ≤ 30) : Params where
  sizeofSiso := sizeofSiso
  groupDataSize := LogBuffer.groupBlockBytes sizeofSiso (2 ^ k) (LogBuffer.blocksPerGroupNode mobile)
  maxBlocksCount := LogBuffer.blocksPerGroupNode mobile
  recoveredRing := ⟨k - 3, ringLog2_lt hhi⟩
  freshRing := ⟨k - 3, ringLog2_lt hhi⟩
  maxBlocksCount_pos := LogBuffer.blocksPerGroupNode_pos mobile
  maxBlocksCount_lt := blocksPerGroupNode_lt mobile
  recoveredRing_count := recoveredRing_blockCount hlo hhi sizeofSiso mobile
  freshRing_count := freshRing_blockCount hlo hhi sizeofSiso mobile

/-- The distance of two blocks. -/
def Params.bufferSizePerBlock (P : Params) : ℕ :=
  let size := P.groupDataSize / P.maxBlocksCount
  size - size % cacheLineSize

/-! ## The mapped bytes -/

/-- A pointer at an address. -/
def PointerType.ofBytes (m : Mem) (a : ℕ) : PointerType := ⟨m.load a 2, m.load (a + 2) 2⟩

/-- The fields of a list head at an address; its type is written before it is read. -/
def BlockList.ofBytes (m : Mem) (a : ℕ) : BlockList :=
  ⟨.ofBytes m a, m.load (a + 8) 2, m.load (a + 16) 2, m.load (a + 24) 8, .listNone⟩

/-- The fields of a block head at an address. -/
def BlockNodeHead.ofBytes (sizeofSiso : ℕ) (m : Mem) (a : ℕ) : BlockNodeHead where
  next := .ofBytes m a
  type := .ofByte (m (a + 4)).toNat
  miscData := m.slice (a + 8) (cacheLineSize - 8)
  storage x := m (a + LogBuffer.getBufferDataOffset sizeofSiso + x)
  buffer := none

/-- A group in the mapped bytes. -/
def GroupDataHead.ofBytes (P : Params) (m : Mem) : GroupDataHead where
  used := .ofBytes m 0
  free := .ofBytes m cacheLineSize
  stage := .ofBytes m (2 * cacheLineSize)
  blocks i := .ofBytes P.sizeofSiso m (LogBuffer.sizeofGroupDataHead + P.bufferSizePerBlock * i)

/-! ## Operations of a list -/

/-- `block_list::first`. -/
def BlockList.first (l : BlockList) : Option ℕ := l.head.block

/-- `block_list::next`. -/
def nextBlock (blocks : Blocks) (i : ℕ) : Option ℕ := (blocks i).next.block

/-- `block_list::push`, alone in the group. -/
def BlockList.push (l : BlockList) (blocks : Blocks) (i : ℕ) : BlockList × Blocks :=
  ({ l with head := ⟨i, (l.head.abaMark + 1) % 2 ^ 16⟩ },
    Function.update blocks i
      { blocks i with type := l.type, next := { (blocks i).next with index := l.head.index } })

/-- `block_list::remove_thread_unsafe`. -/
def BlockList.removeThreadUnsafe (l : BlockList) (blocks : Blocks) (prev : Option ℕ) (i : ℕ) :
    BlockList × Blocks :=
  match prev with
  | none => ({ l with head := (blocks i).next }, blocks)
  | some p => (l, Function.update blocks p { blocks p with next := (blocks i).next })

/-! ## Construction of a list -/

/-- `block_list::reset`. -/
def BlockList.reset (P : Params) (offset : ℕ) (l : BlockList) : BlockList where
  head := ⟨emptyIndex, 0⟩
  offset := offset
  maxBlocksCount := P.maxBlocksCount
  bufferSizePerBlock := P.bufferSizePerBlock
  type := l.type

/-- The walk of `try_recover_from_memory_map`, for at most `fuel` rounds: `none` while it runs. -/
def recoverLoop (P : Params) (type : BlockListType) (blocks : Blocks) :
    ℕ → PointerType → ℕ → Option Bool
  | 0, _, _ => none
  | fuel + 1, current, count =>
    if current.index ≠ emptyIndex ∧ count ≤ P.maxBlocksCount then
      if P.maxBlocksCount ≤ current.index then some false
      else if (blocks current.index).type ≠ type then some false
      else recoverLoop P type blocks fuel (blocks current.index).next ((count + 1) % 2 ^ 16)
    else some (decide (count ≤ P.maxBlocksCount))

/-- `try_recover_from_memory_map`. -/
def BlockList.tryRecoverFromMemoryMap (P : Params) (offset : ℕ) (blocks : Blocks) (fuel : ℕ)
    (l : BlockList) : Option Bool :=
  if l.maxBlocksCount ≠ P.maxBlocksCount then some false
  else if l.offset ≠ offset then some false
  else if l.bufferSizePerBlock ≠ P.bufferSizePerBlock then some false
  else recoverLoop P l.type blocks fuel l.head 0

/-- The constructor of `block_list`, over what lies in its place. -/
def BlockList.construct (P : Params) (type : BlockListType) (offset : ℕ) (isMemoryRecovery : Bool)
    (blocks : Blocks) (fuel : ℕ) (l : BlockList) : Option BlockList :=
  let l := { l with type := type }
  if isMemoryRecovery then
    (l.tryRecoverFromMemoryMap P offset blocks fuel).map fun ok => if ok then l else l.reset P offset
  else some (l.reset P offset)

/-! ## Construction of a block -/

/-- The ring over bytes of an earlier life. -/
def recoverRing (P : Params) (fuel : ℕ) (storage : Mem) : Option Siso.State :=
  (Siso.tryRecover P.recoveredRing storage fuel).map fun r =>
    r.getD (Siso.State.init 0 (Siso.dataArea storage))

/-- The constructor of a block that keeps its type and its link. -/
def BlockNodeHead.recover (P : Params) (fuel : ℕ) (b : BlockNodeHead) : Option BlockNodeHead :=
  (recoverRing P fuel b.storage).map fun s => { b with buffer := some (P.recoveredRing, s) }

/-- The constructor of a new block. -/
def BlockNodeHead.fresh (P : Params) (b : BlockNodeHead) : BlockNodeHead where
  next := ⟨emptyIndex, 0⟩
  type := .listNone
  miscData := List.replicate (cacheLineSize - 8) 0
  storage := b.storage
  buffer := some (P.freshRing, Siso.State.init 0 (Siso.dataArea b.storage))

/-- `recovery_blocks`, for at most `fuel` rounds. -/
def recoveryBlocks (P : Params) (ringFuel : ℕ) : ℕ → Blocks → Option ℕ → Option Blocks
  | _, blocks, none => some blocks
  | 0, _, some _ => none
  | fuel + 1, blocks, some i =>
    ((blocks i).recover P ringFuel).bind fun b =>
      recoveryBlocks P ringFuel fuel (Function.update blocks i b)
        (nextBlock (Function.update blocks i b) i)

/-! ## Construction of a group -/

/-- The search for the block in front of `current`, and its removal. -/
def breakLoop (stage : BlockList) (blocks : Blocks) (current : ℕ) :
    ℕ → Option ℕ → Option ℕ → Option (BlockList × Blocks)
  | _, _, none => some (stage, blocks)
  | 0, _, some _ => none
  | fuel + 1, last, some next =>
    if next = current then some (stage.removeThreadUnsafe blocks last next)
    else breakLoop stage blocks current fuel (some next) (nextBlock blocks next)

/-- The walk of the stage: it ends at the first block that is also on the used list, which is taken out.
It returns the stage, the blocks and the blocks it passed. -/
def stageLoop (stage : BlockList) (blocks : Blocks) (usedMap : List ℕ) :
    ℕ → Option ℕ → List ℕ → Option (BlockList × Blocks × List ℕ)
  | _, none, stageMap => some (stage, blocks, stageMap)
  | 0, some _, _ => none
  | fuel + 1, some current, stageMap =>
    if current ∈ usedMap then
      (breakLoop stage blocks current fuel none stage.first).map fun s => (s.1, s.2, stageMap)
    else stageLoop stage blocks usedMap fuel (nextBlock blocks current) (current :: stageMap)

/-- The loop over all blocks: those on neither list are constructed and pushed. -/
def freeLoop (P : Params) (taken : List ℕ) : List ℕ → BlockList × Blocks → BlockList × Blocks
  | [], s => s
  | i :: is, (free, blocks) =>
    if i ∈ taken then freeLoop P taken is (free, blocks)
    else freeLoop P taken is (free.push (Function.update blocks i ((blocks i).fresh P)) i)

/-- The part of the constructor that recovers blocks. -/
def recoverGroup (P : Params) (fuel : ℕ) (used stage : BlockList) (blocks : Blocks) :
    Option (BlockList × Blocks × List ℕ) :=
  (walk (nextBlock blocks) fuel used.first).bind fun usedMap =>
    (stageLoop stage blocks usedMap fuel stage.first []).bind fun s =>
      (recoveryBlocks P fuel fuel s.2.1 used.first).bind fun blocks =>
        (recoveryBlocks P fuel fuel blocks s.1.first).map fun blocks =>
          (s.1, blocks, usedMap ++ s.2.2)

/-- `group_data_head::group_data_head`, with at most `fuel` rounds for each of its loops. -/
def GroupDataHead.construct (P : Params) (isMemoryRecovery : Bool) (fuel : ℕ) (g : GroupDataHead) :
    Option GroupDataHead :=
  (g.used.construct P .listUsed (3 * cacheLineSize) isMemoryRecovery g.blocks fuel).bind fun used =>
    (g.free.construct P .listFree (2 * cacheLineSize) false g.blocks fuel).bind fun free =>
      (g.stage.construct P .listStage cacheLineSize isMemoryRecovery g.blocks fuel).bind fun stage =>
        (if isMemoryRecovery then recoverGroup P fuel used stage g.blocks
          else some (stage, g.blocks, [])).map fun s =>
          let f := freeLoop P s.2.2 (List.range P.maxBlocksCount) (free, s.2.1)
          ⟨used, f.1, s.1, f.2⟩

/-! ## Pointers -/

section Lists

variable {P : Params} {type : BlockListType} {offset fuel : ℕ} {blocks blocks' : Blocks} {l l' : BlockList}
  {p : Option ℕ} {L : List ℕ}

theorem PointerType.block_of_empty {p : PointerType} (h : p.index = emptyIndex) : p.block = none := if_pos h

theorem PointerType.block_of_ne {p : PointerType} (h : p.index ≠ emptyIndex) : p.block = some p.index :=
  if_neg h

@[simp] theorem reset_first (P : Params) (offset : ℕ) (l : BlockList) : (l.reset P offset).first = none :=
  PointerType.block_of_empty rfl

/-! ## Recovery of a list -/

/-- A walk that is accepted follows a chain of blocks of the type. -/
theorem exists_chain_of_recoverLoop {current : PointerType} {count : ℕ}
    (h : recoverLoop P type blocks fuel current count = some true) :
    ∃ L, IsChain (nextBlock blocks) current.block L ∧ ∀ i ∈ L, i < P.maxBlocksCount ∧ (blocks i).type = type := by
  induction fuel generalizing current count with
  | zero => cases h
  | succ fuel ih =>
    unfold recoverLoop at h
    split at h
    · rename_i hcurrent
      split at h
      · cases h
      · rename_i hindex
        split at h
        · cases h
        · rename_i htype
          obtain ⟨L, hL, hmem⟩ := ih h
          refine ⟨current.index :: L, ⟨PointerType.block_of_ne hcurrent.1, hL⟩, ?_⟩
          rintro i (_ | ⟨_, hi⟩)
          · exact ⟨Nat.lt_of_not_le hindex, not_not.1 htype⟩
          · exact hmem i hi
    · rename_i hcurrent
      have hcount : count ≤ P.maxBlocksCount := of_decide_eq_true (Option.some.inj h)
      have hempty : current.index = emptyIndex := by
        by_contra hne
        exact hcurrent ⟨hne, hcount⟩
      exact ⟨[], PointerType.block_of_empty hempty, fun i hi => absurd hi List.not_mem_nil⟩

/-- The walk comes to an end: it counts its rounds. -/
theorem exists_recoverLoop {current : PointerType} {count : ℕ} (hcount : count ≤ P.maxBlocksCount + 1)
    (hfuel : P.maxBlocksCount + 1 - count < fuel) :
    ∃ ok, recoverLoop P type blocks fuel current count = some ok := by
  induction fuel generalizing current count with
  | zero => omega
  | succ fuel ih =>
    unfold recoverLoop
    split
    · rename_i hcurrent
      split
      · exact ⟨_, rfl⟩
      · split
        · exact ⟨_, rfl⟩
        · have hmax : P.maxBlocksCount < 2 ^ 16 - 1 := P.maxBlocksCount_lt
          have hle := hcurrent.2
          have hcount' : (count + 1) % 2 ^ 16 = count + 1 := Nat.mod_eq_of_lt (by omega)
          rw [hcount']
          exact ih (by omega) (by omega)
    · exact ⟨_, rfl⟩

/-- **What the constructor of a list leaves** is a chain of blocks of its type: none, or the chain that was
there. -/
theorem exists_chain_of_construct {isMemoryRecovery : Bool}
    (h : l.construct P type offset isMemoryRecovery blocks fuel = some l') :
    l'.type = type ∧ ∃ L, IsChain (nextBlock blocks) l'.first L ∧
      (∀ i ∈ L, i < P.maxBlocksCount ∧ (blocks i).type = type) ∧
      (L = [] ∨ isMemoryRecovery = true ∧ IsChain (nextBlock blocks) l.first L) := by
  have hreset : ∃ L, IsChain (nextBlock blocks) (({ l with type := type } : BlockList).reset P offset).first L ∧
      (∀ i ∈ L, i < P.maxBlocksCount ∧ (blocks i).type = type) ∧
      (L = [] ∨ isMemoryRecovery = true ∧ IsChain (nextBlock blocks) l.first L) :=
    ⟨[], reset_first P offset _, fun i hi => absurd hi List.not_mem_nil, .inl rfl⟩
  unfold BlockList.construct at h
  dsimp only at h
  split at h
  · rename_i hrecovery
    obtain ⟨ok, hok, rfl⟩ := Option.map_eq_some_iff.1 h
    cases ok with
    | false => exact ⟨rfl, hreset⟩
    | true =>
      refine ⟨rfl, ?_⟩
      unfold BlockList.tryRecoverFromMemoryMap at hok
      split at hok
      · cases hok
      · split at hok
        · cases hok
        · split at hok
          · cases hok
          · obtain ⟨L, hL, hmem⟩ := exists_chain_of_recoverLoop hok
            exact ⟨L, hL, hmem, .inr ⟨hrecovery, hL⟩⟩
  · obtain rfl := Option.some.inj h
    exact ⟨rfl, hreset⟩

theorem exists_construct (type : BlockListType) (offset : ℕ) (isMemoryRecovery : Bool) (blocks : Blocks)
    (l : BlockList) (hfuel : P.maxBlocksCount + 1 < fuel) :
    ∃ l', l.construct P type offset isMemoryRecovery blocks fuel = some l' := by
  unfold BlockList.construct
  dsimp only
  split
  · obtain ⟨ok, hok⟩ : ∃ ok, ({ l with type := type } : BlockList).tryRecoverFromMemoryMap P offset blocks
        fuel = some ok := by
      unfold BlockList.tryRecoverFromMemoryMap
      split
      · exact ⟨_, rfl⟩
      · split
        · exact ⟨_, rfl⟩
        · split
          · exact ⟨_, rfl⟩
          · exact exists_recoverLoop (by omega) (by omega)
    exact ⟨_, by rw [hok, Option.map_some]⟩
  · exact ⟨_, rfl⟩

/-! ## The rings of the recovered blocks -/

theorem recover_some {ringFuel : ℕ} {b b' : BlockNodeHead} (h : b.recover P ringFuel = some b') :
    b'.next = b.next ∧ b'.type = b.type ∧ b'.miscData = b.miscData := by
  obtain ⟨s, -, rfl⟩ := Option.map_eq_some_iff.1 h
  exact ⟨rfl, rfl, rfl⟩

/-- A block whose link is kept leaves all links as they are. -/
theorem nextBlock_update {b : BlockNodeHead} {i : ℕ} (h : b.next = (blocks i).next) :
    nextBlock (Function.update blocks i b) = nextBlock blocks := by
  funext j
  rcases eq_or_ne j i with rfl | hj
  · rw [nextBlock, nextBlock, Function.update_self, h]
  · rw [nextBlock, nextBlock, Function.update_of_ne hj]

/-- `recovery_blocks` constructs the rings of the chain, and nothing else changes. -/
theorem recoveryBlocks_spec {ringFuel : ℕ} (hL : IsChain (nextBlock blocks) p L)
    (h : recoveryBlocks P ringFuel fuel blocks p = some blocks') :
    nextBlock blocks' = nextBlock blocks ∧ (∀ i, (blocks' i).type = (blocks i).type) ∧
      ∀ i ∉ L, blocks' i = blocks i := by
  induction L generalizing p blocks fuel with
  | nil =>
    obtain rfl : p = none := hL
    obtain rfl : blocks = blocks' := by cases fuel <;> exact Option.some.inj h
    exact ⟨rfl, fun _ => rfl, fun _ _ => rfl⟩
  | cons a L ih =>
    obtain ⟨rfl, hrest⟩ := hL
    cases fuel with
    | zero => cases h
    | succ fuel =>
      obtain ⟨b, hb, h⟩ := Option.bind_eq_some_iff.1 h
      obtain ⟨hnext, htype, -⟩ := recover_some hb
      have hlinks := nextBlock_update hnext
      rw [hlinks] at h
      obtain ⟨hnext', htype', hother⟩ := ih (hlinks.symm ▸ hrest) h
      refine ⟨hnext'.trans hlinks, fun i => (htype' i).trans ?_, fun i hi => ?_⟩
      · rcases eq_or_ne i a with rfl | hia
        · rw [Function.update_self, htype]
        · rw [Function.update_of_ne hia]
      · rw [hother i fun hiL => hi (List.mem_cons_of_mem a hiL),
          Function.update_of_ne fun hia : i = a => hi (hia ▸ List.mem_cons_self)]

/-- It ends when the scans of the rings do. -/
theorem exists_recoveryBlocks {ringFuel : ℕ} (hL : IsChain (nextBlock blocks) p L) (hfuel : L.length ≤ fuel)
    (hring : ∀ i ∈ L, ∃ b, (blocks i).recover P ringFuel = some b) :
    ∃ blocks', recoveryBlocks P ringFuel fuel blocks p = some blocks' := by
  have hnodup := hL.nodup
  induction L generalizing p blocks fuel with
  | nil =>
    obtain rfl : p = none := hL
    exact ⟨blocks, by cases fuel <;> rfl⟩
  | cons a L ih =>
    obtain ⟨rfl, hrest⟩ := hL
    obtain ⟨fuel, rfl⟩ : ∃ n, fuel = n + 1 := ⟨fuel - 1, by rw [List.length_cons] at hfuel; omega⟩
    obtain ⟨b, hb⟩ := hring a List.mem_cons_self
    have hlinks := nextBlock_update (recover_some hb).1
    obtain ⟨ha, hnodup⟩ := List.nodup_cons.1 hnodup
    rw [recoveryBlocks, hb, Option.bind_some, hlinks]
    refine ih (hlinks.symm ▸ hrest) (by rw [List.length_cons] at hfuel; omega) (fun i hi => ?_) hnodup
    rw [Function.update_of_ne fun hia : i = a => ha (hia ▸ hi)]
    exact hring i (List.mem_cons_of_mem a hi)

/-- More rounds do not change how a scan ends. -/
theorem scan_mono {N : BlockCount} {data : Mem} {w : ℕ} {st : Siso.ScanState} {fuel' : ℕ} (hle : fuel ≤ fuel')
    (h : ∀ st', Siso.scan N data w fuel st ≠ .running st') :
    Siso.scan N data w fuel' st = Siso.scan N data w fuel st := by
  induction fuel generalizing st fuel' with
  | zero => exact absurd rfl (h st)
  | succ fuel ih =>
    obtain ⟨fuel', rfl⟩ : ∃ n, fuel' = n + 1 := ⟨fuel' - 1, by omega⟩
    rw [Siso.scan] at h ⊢
    rw [Siso.scan]
    cases hround : Siso.scanRound N data w st with
    | running st' =>
      rw [hround] at h
      exact ih (by omega) h
    | accepted C => rfl
    | rejected => rfl

/-- On every image, the ring of a block is constructed. -/
theorem exists_recover (P : Params) (b : BlockNodeHead) :
    ∃ n, ∀ fuel, n ≤ fuel → ∃ b', b.recover P fuel = some b' := by
  obtain ⟨n, hn⟩ := Siso.exists_scan (N := P.recoveredRing) (Siso.dataArea b.storage) (Siso.savedWrite b.storage)
    ⟨Siso.savedRead b.storage, sub32 (Siso.savedWrite b.storage) (Siso.savedRead b.storage), []⟩
    (Mem.load_lt b.storage 4 4)
  refine ⟨n, fun fuel hle => ?_⟩
  obtain ⟨r, hr⟩ : ∃ r, Siso.tryRecover P.recoveredRing b.storage fuel = some r := by
    unfold Siso.tryRecover
    dsimp only
    rw [scan_mono hle hn]
    split
    · exact ⟨_, rfl⟩
    · split
      · exact ⟨_, rfl⟩
      · split
        · rename_i st hst
          exact absurd hst (hn st)
        · exact ⟨_, rfl⟩
        · exact ⟨_, rfl⟩
  exact ⟨_, by rw [BlockNodeHead.recover, recoverRing, hr, Option.map_some, Option.map_some]⟩

/-- One number of rounds for the blocks of a group. -/
theorem exists_recover_all (P : Params) (blocks : Blocks) (n : ℕ) :
    ∃ N, ∀ fuel, N ≤ fuel → ∀ i < n, ∃ b, (blocks i).recover P fuel = some b := by
  induction n with
  | zero => exact ⟨0, fun _ _ i hi => absurd hi (Nat.not_lt_zero i)⟩
  | succ n ih =>
    obtain ⟨N, hN⟩ := ih
    obtain ⟨M, hM⟩ := exists_recover P (blocks n)
    refine ⟨max N M, fun fuel hle i hi => ?_⟩
    rcases Nat.lt_succ_iff_lt_or_eq.1 hi with hi | rfl
    · exact hN fuel (le_of_max_le_left hle) i hi
    · exact hM fuel (le_of_max_le_right hle)

/-! ## The walk of the stage -/

/-- A stage without a block of the used list is walked to its end. -/
theorem stageLoop_disjoint {usedMap stageMap : List ℕ} (hL : IsChain (nextBlock blocks) p L)
    (hdisjoint : ∀ i ∈ L, i ∉ usedMap) : stageLoop l blocks usedMap fuel p stageMap =
      if L.length ≤ fuel then some (l, blocks, L.reverse ++ stageMap) else none := by
  induction L generalizing p fuel stageMap with
  | nil =>
    obtain rfl : p = none := hL
    cases fuel <;> rfl
  | cons a L ih =>
    obtain ⟨rfl, hrest⟩ := hL
    cases fuel with
    | zero => rfl
    | succ fuel =>
      rw [stageLoop, if_neg (hdisjoint a List.mem_cons_self),
        ih hrest fun i hi => hdisjoint i (List.mem_cons_of_mem a hi), List.reverse_cons, List.append_assoc,
        List.singleton_append, List.length_cons]
      simp only [Nat.succ_le_succ_iff]

/-! ## The free list -/

/-- A block as the constructor leaves it on the free list. -/
def BlockNodeHead.IsFresh (P : Params) (b b' : BlockNodeHead) : Prop :=
  ∃ index, b' = { b.fresh P with type := .listFree, next := ⟨index, 0⟩ }

theorem push_first {i : ℕ} (hi : i ≠ emptyIndex) : (l.push blocks i).1.first = some i :=
  PointerType.block_of_ne hi

theorem push_self (i : ℕ) : (l.push blocks i).2 i =
    { blocks i with type := l.type, next := { (blocks i).next with index := l.head.index } } :=
  Function.update_self ..

theorem push_of_ne {i j : ℕ} (hj : j ≠ i) : (l.push blocks i).2 j = blocks j := Function.update_of_ne hj ..

theorem nextBlock_push (i : ℕ) :
    nextBlock (l.push blocks i).2 = Function.update (nextBlock blocks) i l.first := by
  funext j
  rcases eq_or_ne j i with rfl | hj
  · rw [nextBlock, push_self, Function.update_self]
    rfl
  · rw [nextBlock, push_of_ne hj, Function.update_of_ne hj, nextBlock]

/-- **The loop over all blocks** puts the blocks that are not taken in front of the free list, constructed
anew, and touches no other block. -/
theorem freeLoop_spec (P : Params) (taken is : List ℕ) (hfree : l.type = .listFree) (hL : IsChain (nextBlock blocks) l.first L)
    (hlt : ∀ i ∈ is, i < P.maxBlocksCount) (hnodup : is.Nodup) (hdisjoint : ∀ i ∈ is, i ∉ L) :
    IsChain (nextBlock (freeLoop P taken is (l, blocks)).2) (freeLoop P taken is (l, blocks)).1.first
        ((is.filter (· ∉ taken)).reverse ++ L) ∧
      (∀ i ∈ is, i ∉ taken → (blocks i).IsFresh P ((freeLoop P taken is (l, blocks)).2 i)) ∧
      ∀ i, i ∉ is ∨ i ∈ taken → (freeLoop P taken is (l, blocks)).2 i = blocks i := by
  induction is generalizing l blocks L with
  | nil => exact ⟨hL, fun i hi => absurd hi List.not_mem_nil, fun _ _ => rfl⟩
  | cons a is ih =>
    obtain ⟨ha, hnodup⟩ := List.nodup_cons.1 hnodup
    have hlt' : ∀ i ∈ is, i < P.maxBlocksCount := fun i hi => hlt i (List.mem_cons_of_mem a hi)
    by_cases htaken : a ∈ taken
    · rw [freeLoop, if_pos htaken, List.filter_cons_of_neg (by simpa using htaken)]
      obtain ⟨hchain, hfresh, hother⟩ := ih hfree hL hlt' hnodup
        fun i hi => hdisjoint i (List.mem_cons_of_mem a hi)
      refine ⟨hchain, ?_, fun i hi => hother i (hi.imp_left fun hi' h => hi' (List.mem_cons_of_mem a h))⟩
      rintro i (_ | ⟨_, hi⟩) hi'
      · exact absurd htaken hi'
      · exact hfresh i hi hi'
    · rw [freeLoop, if_neg htaken, List.filter_cons_of_pos (by simpa using htaken), List.reverse_cons,
        List.append_assoc, List.singleton_append]
      have haL := hdisjoint a List.mem_cons_self
      have hne : a ≠ emptyIndex := ((hlt a List.mem_cons_self).trans P.maxBlocksCount_lt).ne
      have hpush : IsChain (nextBlock (l.push (Function.update blocks a ((blocks a).fresh P)) a).2)
          (l.push (Function.update blocks a ((blocks a).fresh P)) a).1.first (a :: L) := by
        rw [push_first hne, nextBlock_push]
        refine IsChain.push (hL.congr fun i hi => ?_) haL
        rw [nextBlock, nextBlock, Function.update_of_ne fun hia : i = a => haL (hia ▸ hi)]
      have hdisjoint' : ∀ i ∈ is, i ∉ a :: L := by
        rintro i hi (_ | ⟨_, hiL⟩)
        · exact ha hi
        · exact hdisjoint i (List.mem_cons_of_mem a hi) hiL
      have hblock : ∀ i ≠ a, (l.push (Function.update blocks a ((blocks a).fresh P)) a).2 i = blocks i := by
        intro i hi
        rw [push_of_ne hi, Function.update_of_ne hi]
      obtain ⟨hchain, hfresh, hother⟩ := ih (l := (l.push _ a).1) hfree hpush hlt' hnodup hdisjoint'
      refine ⟨hchain, ?_, fun i hi => ?_⟩
      · rintro i (_ | ⟨_, hi⟩) hi'
        · rw [hother a (.inl ha), push_self, Function.update_self, hfree]
          exact ⟨_, rfl⟩
        · have := hfresh i hi hi'
          rwa [hblock i fun hia => ha (hia ▸ hi)] at this
      · have hia : i ≠ a := by
          rintro rfl
          exact hi.elim (fun h => h List.mem_cons_self) htaken
        rw [hother i (hi.imp_left fun hi' h => hi' (List.mem_cons_of_mem a h)), hblock i hia]

end Lists

/-! ## Recovery of a group -/

section Group

variable {P : Params} {fuel : ℕ} {blocks blocks' : Blocks} {used stage stage' : BlockList} {g g' : GroupDataHead}
  {U S taken : List ℕ}

theorem length_le_of_lt {L : List ℕ} {n : ℕ} (hnodup : L.Nodup) (hlt : ∀ i ∈ L, i < n) : L.length ≤ n := by
  have hsub : L ⊆ List.range n := fun i hi => List.mem_range.2 (hlt i hi)
  have := (List.subperm_of_subset hnodup hsub).length_le
  rwa [List.length_range] at this

/-- The types tell the two chains apart. -/
theorem disjoint_of_types (hU : ∀ i ∈ U, (blocks i).type = .listUsed)
    (hS : ∀ i ∈ S, (blocks i).type = .listStage) : ∀ i ∈ S, i ∉ U := by
  intro i hi hiU
  have htypes := (hU i hiU).symm.trans (hS i hi)
  cases htypes

/-- The recovery of the blocks constructs rings and changes neither a list nor a link. -/
theorem recoverGroup_spec (hused : IsChain (nextBlock blocks) used.first U)
    (hstage : IsChain (nextBlock blocks) stage.first S) (hdisjoint : ∀ i ∈ S, i ∉ U)
    (h : recoverGroup P fuel used stage blocks = some (stage', blocks', taken)) :
    stage' = stage ∧ nextBlock blocks' = nextBlock blocks ∧ (∀ i, (blocks' i).type = (blocks i).type) ∧
      (∀ i, i ∈ taken ↔ i ∈ U ++ S) ∧ ∀ i ∉ U ++ S, blocks' i = blocks i := by
  obtain ⟨usedMap, husedMap, h⟩ := Option.bind_eq_some_iff.1 h
  obtain rfl := (isChain_of_walk husedMap).unique hused
  obtain ⟨s, hs, h⟩ := Option.bind_eq_some_iff.1 h
  rw [stageLoop_disjoint hstage hdisjoint, Option.ite_none_right_eq_some] at hs
  obtain ⟨-, hs⟩ := hs
  obtain rfl := Option.some.inj hs
  dsimp only at h
  obtain ⟨blocks₁, hblocks₁, h⟩ := Option.bind_eq_some_iff.1 h
  obtain ⟨blocks₂, hblocks₂, h⟩ := Option.map_eq_some_iff.1 h
  obtain ⟨rfl, rfl, rfl⟩ : stage = stage' ∧ blocks₂ = blocks' ∧ usedMap ++ (S.reverse ++ []) = taken := by
    simpa only [Prod.mk.injEq] using h
  obtain ⟨hnext₁, htype₁, hother₁⟩ := recoveryBlocks_spec hused hblocks₁
  obtain ⟨hnext₂, htype₂, hother₂⟩ := recoveryBlocks_spec (hnext₁.symm ▸ hstage) hblocks₂
  refine ⟨rfl, hnext₂.trans hnext₁, fun i => (htype₂ i).trans (htype₁ i), fun i => ?_, fun i hi => ?_⟩
  · simp only [List.append_nil, List.mem_append, List.mem_reverse]
  · rw [List.mem_append, not_or] at hi
    rw [hother₂ i hi.2, hother₁ i hi.1]

theorem exists_recoverGroup (hused : IsChain (nextBlock blocks) used.first U)
    (hstage : IsChain (nextBlock blocks) stage.first S) (hdisjoint : ∀ i ∈ S, i ∉ U)
    (hltU : ∀ i ∈ U, i < P.maxBlocksCount) (hltS : ∀ i ∈ S, i < P.maxBlocksCount)
    (hfuel : P.maxBlocksCount ≤ fuel)
    (hring : ∀ i < P.maxBlocksCount, ∃ b, (blocks i).recover P fuel = some b) :
    ∃ s, recoverGroup P fuel used stage blocks = some s := by
  have hlenU := (length_le_of_lt hused.nodup hltU).trans hfuel
  have hlenS := (length_le_of_lt hstage.nodup hltS).trans hfuel
  obtain ⟨blocks₁, hblocks₁⟩ := exists_recoveryBlocks hused hlenU fun i hi => hring i (hltU i hi)
  obtain ⟨hnext₁, -, hother₁⟩ := recoveryBlocks_spec hused hblocks₁
  obtain ⟨blocks₂, hblocks₂⟩ := exists_recoveryBlocks (hnext₁.symm ▸ hstage) hlenS fun i hi => by
    rw [hother₁ i (hdisjoint i hi)]
    exact hring i (hltS i hi)
  refine ⟨(stage, blocks₂, U ++ (S.reverse ++ [])), ?_⟩
  rw [recoverGroup, hused.walk_eq hlenU, Option.bind_some, stageLoop_disjoint hstage hdisjoint, if_pos hlenS,
    Option.bind_some]
  dsimp only
  rw [hblocks₁, Option.bind_some, hblocks₂, Option.map_some]

/-- What a group must be after its construction, over what lay in its place: three chains, of which the
first two were there and the third is made of new blocks, and together the blocks of the group. -/
structure Partition (P : Params) (image g : GroupDataHead) (U S F : List ℕ) : Prop where
  used : IsChain (nextBlock g.blocks) g.used.first U
  stage : IsChain (nextBlock g.blocks) g.stage.first S
  free : IsChain (nextBlock g.blocks) g.free.first F
  perm : (U ++ S ++ F).Perm (List.range P.maxBlocksCount)
  usedImage : U = [] ∨ IsChain (nextBlock image.blocks) image.used.first U
  stageImage : S = [] ∨ IsChain (nextBlock image.blocks) image.stage.first S
  usedType : ∀ i ∈ U, (g.blocks i).type = .listUsed
  stageType : ∀ i ∈ S, (g.blocks i).type = .listStage
  fresh : ∀ i ∈ F, (image.blocks i).IsFresh P (g.blocks i)

/-- The free list takes what the two chains leave. -/
theorem perm_range {n : ℕ} (hU : U.Nodup) (hS : S.Nodup) (hdisjoint : ∀ i ∈ S, i ∉ U)
    (hlt : ∀ i ∈ U ++ S, i < n) (htaken : ∀ i, i ∈ taken ↔ i ∈ U ++ S) :
    (U ++ S ++ ((List.range n).filter (· ∉ taken)).reverse).Perm (List.range n) := by
  have hUS : (U ++ S).Nodup :=
    List.nodup_append.2 ⟨hU, hS, fun i hi j hj hij => hdisjoint j hj (hij ▸ hi)⟩
  refine (List.perm_ext_iff_of_nodup ?_ List.nodup_range).2 fun i => ?_
  · refine List.nodup_append.2 ⟨hUS, List.nodup_reverse.2 (List.nodup_range.filter _), ?_⟩
    rintro i hi j hj rfl
    rw [List.mem_reverse, List.mem_filter, decide_eq_true_iff, htaken] at hj
    exact hj.2 hi
  · rw [List.mem_append, List.mem_reverse, List.mem_filter, decide_eq_true_iff, htaken, List.mem_range]
    by_cases hi : i ∈ U ++ S
    · exact ⟨fun _ => hlt i hi, fun _ => .inl hi⟩
    · exact ⟨fun h => h.elim (fun h => absurd h hi) And.left, fun h => .inr ⟨h, hi⟩⟩

/-- **Every construction leaves a partition.** -/
theorem exists_partition {isMemoryRecovery : Bool} (h : g.construct P isMemoryRecovery fuel = some g') :
    ∃ U S F, Partition P g g' U S F := by
  obtain ⟨used, hused, h⟩ := Option.bind_eq_some_iff.1 h
  obtain ⟨free, hfree, h⟩ := Option.bind_eq_some_iff.1 h
  obtain ⟨stage, hstage, h⟩ := Option.bind_eq_some_iff.1 h
  obtain ⟨⟨stage', blocks, taken⟩, hrecover, rfl⟩ := Option.map_eq_some_iff.1 h
  obtain ⟨-, U, hU, hmemU, himageU⟩ := exists_chain_of_construct hused
  obtain ⟨-, S, hS, hmemS, himageS⟩ := exists_chain_of_construct hstage
  obtain ⟨hfreeType, F, hF, -, himageF⟩ := exists_chain_of_construct hfree
  obtain rfl : F = [] := himageF.resolve_right fun h => Bool.noConfusion h.1
  have hdisjoint := disjoint_of_types (fun i hi => (hmemU i hi).2) fun i hi => (hmemS i hi).2
  have hspec : stage' = stage ∧ nextBlock blocks = nextBlock g.blocks ∧
      (∀ i, (blocks i).type = (g.blocks i).type) ∧ (∀ i, i ∈ taken ↔ i ∈ U ++ S) ∧
      ∀ i ∉ U ++ S, blocks i = g.blocks i := by
    split at hrecover
    · exact recoverGroup_spec hU hS hdisjoint hrecover
    · rename_i hrecovery
      obtain rfl : U = [] := himageU.resolve_right fun h => hrecovery h.1
      obtain rfl : S = [] := himageS.resolve_right fun h => hrecovery h.1
      obtain ⟨rfl, rfl, rfl⟩ : stage = stage' ∧ g.blocks = blocks ∧ [] = taken := by
        simpa only [Option.some.injEq, Prod.mk.injEq] using hrecover
      exact ⟨rfl, rfl, fun _ => rfl, fun _ => Iff.rfl, fun _ _ => rfl⟩
  obtain ⟨rfl, hnext, htype, htaken, hother⟩ := hspec
  obtain ⟨hchain, hfresh, hkept⟩ := freeLoop_spec P taken (List.range P.maxBlocksCount)
    hfreeType (hnext.symm ▸ hF) (fun i hi => List.mem_range.1 hi) List.nodup_range
    fun i _ => List.not_mem_nil
  have hkept' : ∀ i ∈ U ++ S,
      (freeLoop P taken (List.range P.maxBlocksCount) (free, blocks)).2 i = blocks i :=
    fun i hi => hkept i (.inr ((htaken i).2 hi))
  have hlinks : ∀ i ∈ U ++ S,
      nextBlock (freeLoop P taken (List.range P.maxBlocksCount) (free, blocks)).2 i = nextBlock g.blocks i := by
    intro i hi
    rw [← hnext, nextBlock, nextBlock, hkept' i hi]
  have hmem : ∀ i ∈ U ++ S, i < P.maxBlocksCount := fun i hi =>
    (List.mem_append.1 hi).elim (fun hi => (hmemU i hi).1) fun hi => (hmemS i hi).1
  refine ⟨U, S, ((List.range P.maxBlocksCount).filter (· ∉ taken)).reverse ++ [], ?_⟩
  exact {
    used := hU.congr fun i hi => hlinks i (List.mem_append_left S hi)
    stage := hS.congr fun i hi => hlinks i (List.mem_append_right U hi)
    free := hchain
    perm := by
      rw [List.append_nil]
      exact perm_range hU.nodup hS.nodup hdisjoint hmem htaken
    usedImage := himageU.imp_right And.right
    stageImage := himageS.imp_right And.right
    usedType := fun i hi =>
      (congrArg BlockNodeHead.type (hkept' i (List.mem_append_left S hi))).trans
        ((htype i).trans (hmemU i hi).2)
    stageType := fun i hi =>
      (congrArg BlockNodeHead.type (hkept' i (List.mem_append_right U hi))).trans
        ((htype i).trans (hmemS i hi).2)
    fresh := fun i hi => by
      rw [List.append_nil, List.mem_reverse, List.mem_filter, decide_eq_true_iff] at hi
      have := hfresh i hi.1 hi.2
      rwa [hother i fun h => hi.2 ((htaken i).2 h)] at this }

/-- The constructor ends, whatever lies in its place. -/
theorem exists_construct_group (P : Params) (isMemoryRecovery : Bool) (g : GroupDataHead) :
    ∃ fuel g', g.construct P isMemoryRecovery fuel = some g' := by
  obtain ⟨N, hN⟩ := exists_recover_all P g.blocks P.maxBlocksCount
  have hfuel : P.maxBlocksCount + 1 < max N (P.maxBlocksCount + 2) := by omega
  obtain ⟨used, hused⟩ := exists_construct .listUsed (3 * cacheLineSize) isMemoryRecovery g.blocks g.used hfuel
  obtain ⟨free, hfree⟩ := exists_construct .listFree (2 * cacheLineSize) false g.blocks g.free hfuel
  obtain ⟨stage, hstage⟩ := exists_construct .listStage cacheLineSize isMemoryRecovery g.blocks g.stage hfuel
  obtain ⟨-, U, hU, hmemU, -⟩ := exists_chain_of_construct hused
  obtain ⟨-, S, hS, hmemS, -⟩ := exists_chain_of_construct hstage
  have hdisjoint := disjoint_of_types (fun i hi => (hmemU i hi).2) fun i hi => (hmemS i hi).2
  obtain ⟨s, hs⟩ := exists_recoverGroup hU hS hdisjoint (fun i hi => (hmemU i hi).1)
    (fun i hi => (hmemS i hi).1) (show P.maxBlocksCount ≤ max N (P.maxBlocksCount + 2) by omega)
    (hN _ (le_max_left _ _))
  refine ⟨max N (P.maxBlocksCount + 2), ?_⟩
  rw [GroupDataHead.construct, hused, Option.bind_some, hfree, Option.bind_some, hstage, Option.bind_some]
  split
  · exact ⟨_, by rw [hs, Option.map_some]⟩
  · exact ⟨_, rfl⟩

end Group

/-- **Recovery of a group.** On all bytes the constructor ends, and then the used list, the stage and the
free list are chains that together are the blocks of the group, each once; the first two are lists of the
image, and every other block is new. -/
theorem group_recovery_partition (P : Params) (image : Mem) :
    (∃ fuel g, (GroupDataHead.ofBytes P image).construct P true fuel = some g) ∧
      ∀ fuel g, (GroupDataHead.ofBytes P image).construct P true fuel = some g →
        ∃ U S F, Partition P (.ofBytes P image) g U S F :=
  ⟨exists_construct_group P true _, fun _ _ h => exists_partition h⟩

end QLog.Group
