import QLog.Buffer.LogBuffer.Effects

/-!
# What a step of the reader does

`Effect` names the ways in which a writer changes the stores; `ReaderEffect` does the same for the reader.
Most of what the reader does concerns its own registers and the numbers it expects: `Still` says that
nothing else happens. `reader_effect` splits every step of the reader into one effect on the stores, the
lists and the locks, and a rest that is still.
-/

namespace QLog.LogBuffer

variable {cfg : Config} {s s' u : State} {t g b i : ℕ} {due : Bool}

/-! ## Nothing but registers -/

/-- The stores, the lists, the locks and the writers are the same. -/
structure Still (s s' : State) : Prop where
  lp : s'.lp = s.lp
  records : ∀ b, (s'.block b).records = (s.block b).records
  lists : SameLists s s'
  poolLock : s'.poolLock = s.poolLock
  oversize : s'.oversize = s.oversize
  oversizeIndex : s'.oversizeIndex = s.oversizeIndex
  arrayWriter : s'.arrayWriter = s.arrayWriter
  arrayReaders : s'.arrayReaders = s.arrayReaders
  delivered : s'.delivered = s.delivered
  pcs : ∀ t, (s'.tls t).pc = (s.tls t).pc
  curBlock : ∀ t, (s'.tls t).curBlock = (s.tls t).curBlock

namespace Still

theorem refl (s : State) : Still s s :=
  ⟨rfl, fun _ => rfl, ⟨rfl, rfl, rfl, rfl, rfl, rfl⟩, rfl, rfl, rfl, rfl, rfl, rfl, fun _ => rfl,
    fun _ => rfl⟩

theorem trans (h : Still s u) (h' : Still u s') : Still s s' where
  lp := h'.lp.trans h.lp
  records b := (h'.records b).trans (h.records b)
  lists := h.lists.trans h'.lists
  poolLock := h'.poolLock.trans h.poolLock
  oversize := h'.oversize.trans h.oversize
  oversizeIndex := h'.oversizeIndex.trans h.oversizeIndex
  arrayWriter := h'.arrayWriter.trans h.arrayWriter
  arrayReaders := h'.arrayReaders.trans h.arrayReaders
  delivered := h'.delivered.trans h.delivered
  pcs t := (h'.pcs t).trans (h.pcs t)
  curBlock t := (h'.curBlock t).trans (h.curBlock t)

/-- The registers of the reader change. -/
theorem registers (s : State) (r : Reader) (missed : Bool) :
    Still s { s with rt := r, missed := missed } :=
  ⟨rfl, fun _ => rfl, ⟨rfl, rfl, rfl, rfl, rfl, rfl⟩, rfl, rfl, rfl, rfl, rfl, rfl, fun _ => rfl,
    fun _ => rfl⟩

theorem setReader (s : State) (r : Reader) : Still s (s.setReader r) := registers s r s.missed

/-- The first chunk of the ring is passed over in both. -/
theorem popSlot (h : Still s s') : Still (popSlot s) (popSlot s') :=
  ⟨congrArg List.tail h.lp, h.records, ⟨h.lists.groups, h.lists.pool, h.lists.removed, h.lists.groupIndex,
    h.lists.group, h.lists.headLock⟩, h.poolLock, h.oversize, h.oversizeIndex, h.arrayWriter, h.arrayReaders,
    h.delivered, h.pcs, h.curBlock⟩

end Still

theorem countSeq_still (s : State) (c : Context) : Still s (countSeq s c) := by
  unfold countSeq
  split
  · split
    · exact Still.refl s
    · refine ⟨rfl, fun _ => rfl, ⟨rfl, rfl, rfl, rfl, rfl, rfl⟩, rfl, rfl, rfl, rfl, rfl, rfl, fun t => ?_,
        fun t => ?_⟩ <;> rcases eq_or_ne t c.tls with rfl | ht
      · simp [State.setTls]
      · simp [State.setTls, ht]
      · simp [State.setTls]
      · simp [State.setTls, ht]
  · exact Still.registers s _ _

theorem deregisterSeq_still (s : State) (c : Context) : Still s (deregisterSeq s c) :=
  (countSeq_still s c).trans (Still.setReader _ _)

theorem deregisterIfValid_still (s : State) (b : ℕ) : Still s (deregisterIfValid s b) := by
  unfold deregisterIfValid
  split
  · exact deregisterSeq_still s _
  · exact Still.refl s

theorem goOn_still (s : State) (removed : Bool) (next : Option ℕ) : Still s (goOn s removed next) := by
  unfold goOn
  split <;> exact Still.setReader _ _

theorem meetEndMark_still (s : State) (v : VerifyResult) (b : ℕ) : Still s (meetEndMark s v b) := by
  unfold meetEndMark
  dsimp only
  split
  · exact Still.setReader _ _
  · split
    · split
      · exact Still.setReader _ _
      · exact Still.registers s _ _
    · split
      · exact Still.setReader _ _
      · exact Still.refl s

theorem arriveAt_still (s : State) (v : VerifyResult) (b : ℕ) : Still s (arriveAt s v b) := by
  refine ⟨rfl, fun x => ?_, ⟨rfl, rfl, rfl, rfl, rfl, rfl⟩, rfl, rfl, rfl, rfl, rfl, rfl, fun _ => rfl,
    fun _ => rfl⟩
  rcases eq_or_ne x b with rfl | hx
  · simp [arriveAt, State.setReader, State.setBlock]
  · simp [arriveAt, State.setReader, State.setBlock, hx]

theorem enterBlock_still (s : State) (b : ℕ) : Still s (enterBlock s b) := by
  unfold enterBlock
  split
  · exact Still.registers s _ _
  · exact ((arriveAt_still s _ b).trans (meetEndMark_still _ _ b)).trans (Still.setReader _ _)

theorem enterGroup_still (s : State) (next : Option ℕ) : Still s (enterGroup s next) := by
  unfold enterGroup
  split
  · exact Still.setReader _ _
  · dsimp only
    split
    · exact (Still.setReader _ _).trans (Still.setReader _ _)
    · split
      · split
        · exact (Still.setReader _ _).trans (Still.setReader _ _)
        · exact (Still.setReader _ _).trans (Still.registers _ _ _)
      · exact Still.setReader _ _

/-! ## Effects -/

/-- The lock of the array of oversize buffers that a party holds. -/
inductive ArrayGrip
  | none
  | read
  | write
  deriving DecidableEq

/-- What the reader holds of the array. -/
def ReaderPc.grip : ReaderPc → ArrayGrip
  | oversizeSearch _ _ => .read
  | recycle _ => .write
  | _ => .none

/-- The chunk in the hands of the caller that is still in its store. -/
inductive Lent
  | none
  /-- The first chunk of the low-performance ring. -/
  | ring
  /-- The first chunk of the oversize buffers of this name. -/
  | buffer (index : ℕ)
  deriving DecidableEq

def ReaderPc.lent : ReaderPc → Lent
  | holding (.lp _) => .ring
  | holding (.oversize _ index) => .buffer index
  | _ => .none

/-- The bytes of the chunks of some oversize buffers. -/
def chunkData (l : List OversizeBuffer) : Multiset (List UInt8) :=
  (l.map fun buf => (buf.chunks.map OversizeChunk.data : Multiset (List UInt8))).sum

/-- The ways in which the reader changes the stores, the lists and the locks. -/
inductive ReaderEffect
  | move
  /-- The first chunk of the low-performance ring is passed over. -/
  | pop
  | handLp (d : Delivery)
  | handHp (b : ℕ) (rest : List (List UInt8)) (d : Delivery)
  | handOversize (d : Delivery)
  /-- The caller returns an oversize chunk. -/
  | returnOversize (index : ℕ)
  /-- The array is locked for the search of an oversize chunk. -/
  | lockArray
  /-- No oversize chunk was found. -/
  | missOversize
  | lockRecycle
  | unlockRecycle
  /-- Chunks and buffers are dropped from the array. -/
  | oversize (l : List OversizeBuffer)
  /-- The blocks of a group change their lists. -/
  | group (g : ℕ) (grp : Group)
  | unlinkGroup (g : ℕ)
  /-- The unlinked group comes to the pool. -/
  | pushPool (g : ℕ)

namespace ReaderEffect

/-- The state after the effect, with the registers of the reader as before. -/
def apply (s : State) : ReaderEffect → State
  | move => s
  | pop => popSlot s
  | handLp d => { s with delivered := s.delivered ++ [d] }
  | handHp b rest d =>
    { s.setBlock b { s.block b with records := rest } with delivered := s.delivered ++ [d] }
  | handOversize d =>
    { s with arrayReaders := s.arrayReaders.erase .reader, delivered := s.delivered ++ [d] }
  | returnOversize index => { s with oversize := s.oversize.map fun buf =>
      if buf.index = index then { buf with chunks := buf.chunks.tail } else buf }
  | lockArray => { s with arrayReaders := .reader :: s.arrayReaders }
  | missOversize => popSlot { s with arrayReaders := s.arrayReaders.erase .reader }
  | lockRecycle => { s with arrayWriter := some .reader }
  | unlockRecycle => { s with arrayWriter := none }
  | oversize l => { s with oversize := l }
  | group g grp => s.setGroup g grp
  | unlinkGroup g => { s with groups := s.groups.erase g, removed := g :: s.removed }
  | pushPool g => { s with pool := g :: s.pool, removed := s.removed.erase g }

/-- What holds before the effect, and where the reader stands after it. -/
def Leads (s : State) (pc' : ReaderPc) : ReaderEffect → Prop
  | move => (pc'.grip = s.rt.pc.grip ∨ pc' = .crashed) ∧ pc'.lent = .none ∧ s.rt.pc.lent = .none
  | pop => pc'.grip = .none ∧ s.rt.pc.grip = .none ∧ pc'.lent = .none ∧
      (s.rt.pc.lent = .none ∨ s.rt.pc.lent = .ring)
  | handLp d => pc'.grip = .none ∧ s.rt.pc.grip = .none ∧ pc'.lent = .ring ∧ s.rt.pc.lent = .none ∧
      ∃ size c rest, s.lp = .committed size c d.payload :: rest ∧ c.isThreadFinished = false ∧
        c.isExternalRef = false
  | handHp b rest d => pc'.grip = .none ∧ s.rt.pc.grip = .none ∧ pc'.lent = .none ∧
      s.rt.pc.lent = .none ∧ s.rt.curBlock = some b ∧ (s.block b).records = d.payload :: rest
  | handOversize d => pc'.grip = .none ∧ s.rt.pc.grip = .read ∧ s.rt.pc.lent = .none ∧
      ∃ (i : ℕ) (buf : OversizeBuffer) (c : OversizeChunk) (rest : List OversizeChunk),
        s.oversize[i]? = some buf ∧ buf.chunks = c :: rest ∧ d.payload = c.data ∧
          pc'.lent = .buffer buf.index
  | returnOversize index => pc'.grip = .none ∧ s.rt.pc.grip = .none ∧ pc'.lent = .none ∧
      s.rt.pc.lent = .buffer index
  | lockArray => s.arrayWriter = none ∧ s.rt.pc.grip = .none ∧ pc'.grip = .read ∧ pc'.lent = .none ∧
      s.rt.pc.lent = .none
  | missOversize => s.rt.pc.grip = .read ∧ pc'.grip = .none ∧ pc'.lent = .none ∧ s.rt.pc.lent = .none
  | lockRecycle => s.arrayWriter = none ∧ s.arrayReaders = [] ∧ s.rt.pc.grip = .none ∧
      pc'.grip = .write ∧ pc'.lent = .none ∧ s.rt.pc.lent = .none
  | unlockRecycle => s.rt.pc.grip = .write ∧ pc'.grip = .none ∧ pc'.lent = .none ∧ s.rt.pc.lent = .none
  | oversize l => pc'.grip = s.rt.pc.grip ∧ pc'.lent = .none ∧ s.rt.pc.lent = .none ∧
      chunkData l ≤ chunkData s.oversize ∧ (l.map OversizeBuffer.index).Subperm
        (s.oversize.map OversizeBuffer.index)
  | group g grp => pc'.grip = .none ∧ s.rt.pc.grip = .none ∧ pc'.lent = .none ∧ s.rt.pc.lent = .none ∧
      g ∈ s.groups ∧ grp.readers = (s.group g).readers ∧ ∀ b ∈ (s.group g).blocks, b ∈ grp.blocks
  | unlinkGroup g => pc'.grip = .none ∧ s.rt.pc.grip = .none ∧ pc'.lent = .none ∧
      s.rt.pc.lent = .none ∧ s.rt.curGroup = some g ∧ s.CanLock g ∧ g ∈ s.groups ∧
        (s.group g).used = [] ∧ (s.group g).stage = []
  | pushPool g => pc'.grip = .none ∧ s.rt.pc.grip = .none ∧ pc'.lent = .none ∧
      s.rt.pc.lent = .none ∧ g ∈ s.removed ∧ s.poolLock = none

end ReaderEffect

/-- A step of the reader has the effect `e`. -/
structure Reads (s s' : State) (e : ReaderEffect) : Prop where
  still : Still (e.apply s) s'
  leads : e.Leads s s'.rt.pc

/-- A step that is still. -/
theorem Still.reads (h : Still s s') (hgrip : s'.rt.pc.grip = s.rt.pc.grip ∨ s'.rt.pc = .crashed)
    (hlent : s'.rt.pc.lent = .none) (hlent' : s.rt.pc.lent = .none) : ∃ e, Reads s s' e :=
  ⟨.move, h, hgrip, hlent, hlent'⟩

/-! ## The low-performance ring and the oversize buffers -/

theorem chunkData_cons (buf : OversizeBuffer) (l : List OversizeBuffer) :
    chunkData (buf :: l) = (buf.chunks.map OversizeChunk.data : Multiset (List UInt8)) + chunkData l := by
  simp [chunkData]

theorem chunkData_append (l l' : List OversizeBuffer) :
    chunkData (l ++ l') = chunkData l + chunkData l' := by
  simp [chunkData]

/-- A buffer takes the place of another. -/
theorem chunkData_set {l : List OversizeBuffer} {buf : OversizeBuffer} (buf' : OversizeBuffer)
    (hl : l[i]? = some buf) : chunkData (l.set i buf') + chunkData [buf] = chunkData l + chunkData [buf'] := by
  induction l generalizing i with
  | nil => simp at hl
  | cons x l ih =>
    cases i with
    | zero =>
      obtain rfl : x = buf := by simpa using hl
      rw [List.set_cons_zero, ← List.singleton_append, ← List.singleton_append (l := l), chunkData_append,
        chunkData_append, add_right_comm, add_comm (chunkData [buf']), add_right_comm]
    | succ i =>
      rw [List.set_cons_succ, chunkData_cons x, chunkData_cons x, add_assoc, add_assoc,
        ih (by simpa using hl)]

theorem chunkData_set_le {l : List OversizeBuffer} {buf buf' : OversizeBuffer} (hl : l[i]? = some buf)
    (h : chunkData [buf'] ≤ chunkData [buf]) : chunkData (l.set i buf') ≤ chunkData l := by
  refine (add_le_add_iff_right (chunkData [buf])).mp ?_
  rw [chunkData_set buf' hl]
  exact add_le_add_right h _

theorem chunkData_le_of_suffix {buf : OversizeBuffer} {rest : List OversizeChunk}
    (h : rest <:+ buf.chunks) : chunkData [{ buf with chunks := rest }] ≤ chunkData [buf] := by
  obtain ⟨gone, h⟩ := h
  rw [chunkData_cons, chunkData_cons, ← h]
  simp [← Multiset.coe_add, chunkData]

theorem drainChunks_suffix {l rest : List OversizeChunk} (h : drainChunks s l = some rest) :
    rest <:+ l := by
  induction l with
  | nil =>
    obtain rfl : [] = rest := by simpa [drainChunks] using h
    exact List.suffix_refl _
  | cons c l ih =>
    rw [drainChunks] at h
    split at h
    · cases h
    · exact (ih h).trans (List.suffix_cons c l)
    · exact (ih h).trans (List.suffix_cons c l)
    all_goals
      obtain rfl := Option.some.inj h
      exact List.suffix_refl _

/-- `erase_replace` drops one buffer. -/
theorem chunkData_eraseReplace_le {l : List OversizeBuffer} {buf : OversizeBuffer}
    (hl : l[i]? = some buf) : chunkData (eraseReplace l i) ≤ chunkData l := by
  unfold eraseReplace
  rcases List.eq_nil_or_concat l with rfl | ⟨init, last, rfl⟩
  · exact le_refl _
  · rw [List.concat_eq_append] at hl ⊢
    simp only [List.getLast?_append, List.getLast?_singleton, Option.some_or]
    rcases Nat.lt_or_ge i init.length with hi | hi
    · rw [List.set_append_left _ _ hi, List.dropLast_concat, chunkData_append]
      rw [List.getElem?_append_left hi] at hl
      rw [← chunkData_set last hl]
      exact Multiset.le_add_right _ _
    · rw [List.set_append_right _ _ hi]
      obtain rfl : i = init.length := by
        have := (List.getElem?_eq_some_iff.mp hl).1
        simp at this
        omega
      simp [chunkData_append]

theorem index_eraseReplace {l : List OversizeBuffer} :
    ((eraseReplace l i).map OversizeBuffer.index).Subperm (l.map OversizeBuffer.index) := by
  unfold eraseReplace
  rcases List.eq_nil_or_concat l with rfl | ⟨init, last, rfl⟩
  · exact List.Subperm.refl _
  · rw [List.concat_eq_append, List.getLast?_append, List.getLast?_singleton]
    simp only [Option.some_or]
    rcases Nat.lt_or_ge i init.length with hi | hi
    · -- the last name takes the place of the erased one
      rw [List.set_append_left _ _ hi, List.dropLast_concat, List.set_eq_take_append_cons_drop, if_pos hi]
      have hperm : (init.take i ++ last :: init.drop (i + 1)).Perm
          ((init.take i ++ init.drop (i + 1)) ++ [last]) := by
        refine List.perm_middle.trans ?_
        exact (List.perm_append_singleton last _).symm
      refine (hperm.map _).subperm.trans (List.Sublist.subperm (List.Sublist.map _ ?_))
      refine List.Sublist.append_right ?_ _
      conv_rhs => rw [← List.take_append_drop i init]
      exact List.Sublist.append_left (List.drop_sublist_drop_left _ (Nat.le_succ i)) _
    · have hlast : [last].set (i - init.length) last = [last] := by cases i - init.length <;> rfl
      rw [List.set_append_right _ _ hi, hlast]
      exact List.Sublist.subperm (List.Sublist.map _ (List.dropLast_sublist _))

/-- A buffer that keeps its name takes the place of another. -/
theorem index_set {l : List OversizeBuffer} {buf buf' : OversizeBuffer} (hl : l[i]? = some buf)
    (h : buf'.index = buf.index) :
    ((l.set i buf').map OversizeBuffer.index).Subperm (l.map OversizeBuffer.index) := by
  obtain ⟨hi, rfl⟩ := List.getElem?_eq_some_iff.mp hl
  have hself : (l.map OversizeBuffer.index).set i l[i].index = l.map OversizeBuffer.index := by
    rw [← List.getElem_map OversizeBuffer.index (h := by simpa using hi), List.set_getElem_self]
  rw [List.map_set, h, hself]

theorem readSlot_effect {size : ℕ} {c : Context} {data : List UInt8} {rest : List Slot}
    (hpc : s.rt.pc = .loop) (hlp : s.lp = .committed size c data :: rest) :
    ∃ e, Reads s (readSlot s size c data) e := by
  have hgrip : s.rt.pc.grip = .none := by rw [hpc]; rfl
  have hlent : s.rt.pc.lent = .none := by rw [hpc]; rfl
  have hpop : ∀ u, Still s u → u.rt.pc = .loop → ∃ e, Reads s (popSlot u) e := by
    intro u hu hpc'
    refine ⟨.pop, hu.popSlot, ?_, hgrip, ?_, .inl hlent⟩
    · exact congrArg ReaderPc.grip hpc'
    · exact congrArg ReaderPc.lent hpc'
  have hnothing : ∃ e, Reads s (lpNothing s) e :=
    ((Still.setReader _ _).trans (Still.setReader _ _)).reads (.inl hgrip.symm) rfl hlent
  unfold readSlot
  split
  · exact (Still.registers s _ _).reads (.inr rfl) rfl hlent
  · split
    · exact hpop _ (deregisterSeq_still s c) ((deregisterSeq_pc s c).trans hpc)
    · split
      · exact (Still.setReader s _).reads (.inl hgrip.symm) rfl hlent
      · rename_i hf he
        exact ⟨.handLp _, Still.registers _ _ _, rfl, hgrip, rfl, hlent, size, c, rest, hlp,
          Bool.not_eq_true _ ▸ hf, Bool.not_eq_true _ ▸ he⟩
  · exact hpop s (Still.refl s) hpc
  · exact hpop s (Still.refl s) hpc
  · exact hnothing
  · exact hnothing

theorem readFromLpBuffer_effect (hpc : s.rt.pc = .loop) : ∃ e, Reads s (readFromLpBuffer s) e := by
  have hgrip : s.rt.pc.grip = .none := by rw [hpc]; rfl
  have hlent : s.rt.pc.lent = .none := by rw [hpc]; rfl
  have hnothing : ∃ e, Reads s (lpNothing s) e :=
    ((Still.setReader _ _).trans (Still.setReader _ _)).reads (.inl hgrip.symm) rfl hlent
  unfold readFromLpBuffer
  split
  · exact hnothing
  · exact hnothing
  · exact hnothing
  · exact ⟨.pop, Still.refl _, hgrip, hgrip, hlent, .inl hlent⟩
  · rename_i hlp
    exact readSlot_effect hpc hlp

theorem readOversizeChunk_effect {parent : Context} (hpc : s.rt.pc = .oversizeSearch parent i) :
    ∃ e, Reads s (readOversizeChunk s parent i) e := by
  have hgrip : s.rt.pc.grip = .read := by rw [hpc]; rfl
  have hlent : s.rt.pc.lent = .none := by rw [hpc]; rfl
  have hnext : ∃ e, Reads s (gotoReader s (.oversizeSearch parent (i + 1))) e :=
    (Still.setReader s _).reads (.inl hgrip.symm) rfl hlent
  unfold readOversizeChunk
  dsimp only
  split
  · refine ⟨.missOversize, ?_, hgrip, rfl, rfl, hlent⟩
    exact (deregisterSeq_still { s with arrayReaders := s.arrayReaders.erase .reader } parent).popSlot.trans
      (Still.setReader _ _)
  · rename_i buf hbuf
    split
    · exact hnext
    · split
      · exact hnext
      · rename_i c rest hchunks
        split
        · exact ⟨.handOversize _, Still.registers _ _ _, rfl, hgrip, hlent, i, buf, c, rest, hbuf,
            hchunks, rfl, rfl⟩
        · refine ⟨.oversize _, Still.refl _, rfl, hlent, hlent, chunkData_set_le hbuf ?_, index_set hbuf rfl⟩
          exact chunkData_le_of_suffix (hchunks ▸ List.suffix_cons c rest)
        · refine ⟨.oversize _, Still.refl _, rfl, hlent, hlent, chunkData_set_le hbuf ?_, index_set hbuf rfl⟩
          exact chunkData_le_of_suffix (hchunks ▸ List.suffix_cons c rest)
        · exact hnext
        · exact hnext

theorem recycleOversizeBuffer_effect (hpc : s.rt.pc = .recycle (i + 1)) :
    ∃ e, Reads s (recycleOversizeBuffer s i) e := by
  have hgrip : s.rt.pc.grip = .write := by rw [hpc]; rfl
  have hlent : s.rt.pc.lent = .none := by rw [hpc]; rfl
  have hmove : ∃ e, Reads s (gotoReader s (.recycle i)) e :=
    (Still.setReader s _).reads (.inl hgrip.symm) rfl hlent
  unfold recycleOversizeBuffer
  split
  · exact hmove
  · rename_i buf hbuf
    split
    · exact hmove
    · split
      · exact (Still.registers s _ _).reads (.inr rfl) rfl hlent
      · exact ⟨.oversize _, Still.setReader _ _, hgrip.symm, rfl, hlent, chunkData_eraseReplace_le hbuf,
          index_eraseReplace⟩
      · rename_i rest _ hdrain
        exact ⟨.oversize _, Still.setReader _ _, hgrip.symm, rfl, hlent,
          chunkData_set_le hbuf (chunkData_le_of_suffix (drainChunks_suffix hdrain)), index_set hbuf rfl⟩

/-! ## Blocks and groups -/

theorem readHpBlock_effect (hpc : s.rt.pc = .loop) (hb : s.rt.curBlock = some b) :
    ∃ e, Reads s (readHpBlock s b) e := by
  have hgrip : s.rt.pc.grip = .none := by rw [hpc]; rfl
  have hlent : s.rt.pc.lent = .none := by rw [hpc]; rfl
  unfold readHpBlock
  split
  · exact ((Still.setReader _ _).trans (Still.setReader _ _)).reads (.inl rfl) hlent hlent
  · rename_i payload rest hrec
    exact ⟨.handHp b rest _, Still.registers _ _ _, rfl, hgrip, rfl, hlent, hb, hrec⟩

theorem findNextBlock_effect (h : Shape s) (hpc : s.rt.pc = .loop) (hst : s.rt.state = .nextBlockFinding)
    (hg : s.rt.curGroup = some g) : ∃ e, Reads s (findNextBlock s g) e := by
  have hgrip : s.rt.pc.grip = .none := by rw [hpc]; rfl
  have hlent : s.rt.pc.lent = .none := by rw [hpc]; rfl
  have hmove : ∀ next, ∃ e, Reads s (gotoReader s (.leaveBlock next)) e := fun next =>
    (Still.setReader s _).reads (.inl hgrip.symm) rfl hlent
  have hs := h.inLoop hpc
  rw [StandsInLoop, hst] at hs
  unfold findNextBlock
  dsimp only
  split
  · exact hmove _
  · split
    · exact hmove _
    · rename_i c rest hstage
      refine ⟨.group g _, Still.setReader _ _, rfl, hgrip, rfl, hlent, ?_, rfl, fun b hb => ?_⟩
      · rcases hs.2 with ⟨g', b, passed, rest, hb⟩ | ⟨g', hb⟩
        · exact Option.some.inj (hb.walks.curGroup.symm.trans hg) ▸ hb.walks.mem
        · exact Option.some.inj (hb.walks.curGroup.symm.trans hg) ▸ hb.walks.mem
      · -- the staged block comes behind the used ones
        have hused : b ∈ (s.group g).used →
            b ∈ pushAfter (s.group g).used (s.rt.curBlock.filter (groupOf · = g)) c :=
          mem_pushAfter_of_mem
        have hc : c ∈ pushAfter (s.group g).used (s.rt.curBlock.filter (groupOf · = g)) c :=
          mem_pushAfter_self _ _ _
        rw [Group.blocks, hstage] at hb
        simp only [Group.blocks, List.mem_append, List.mem_cons] at hb ⊢
        rcases hb with hb | (rfl | hb) | hb
        · exact .inl (hused hb)
        · exact .inl hc
        · exact .inr (.inl hb)
        · exact .inr (.inr hb)

theorem goOn_pc (s : State) (removed : Bool) (next : Option ℕ) :
    (goOn s removed next).rt.pc.grip = .none ∧ (goOn s removed next).rt.pc.lent = .none := by
  unfold goOn
  split <;> exact ⟨rfl, rfl⟩

theorem leaveBlock_effect {next : Option ℕ} (h : Shape s) (hpc : s.rt.pc = .leaveBlock next)
    (hg : s.rt.curGroup = some g) : ∃ e, Reads s (leaveBlock s g next) e := by
  have hgrip : s.rt.pc.grip = .none := by rw [hpc]; rfl
  have hlent : s.rt.pc.lent = .none := by rw [hpc]; rfl
  have hmove : ∀ u removed, Still s u → ∃ e, Reads s (goOn u removed next) e := fun u removed hu =>
    (hu.trans (goOn_still u removed next)).reads (.inl ((goOn_pc _ _ _).1.trans hgrip.symm))
      (goOn_pc _ _ _).2 hlent
  have hs := h.stands
  rw [Stands, hpc] at hs
  obtain ⟨-, -, hs⟩ := hs
  unfold leaveBlock
  rcases hs with ⟨g', b, passed, rest, hb, rfl⟩ | ⟨g', hb, rfl⟩
  · obtain rfl : g' = g := Option.some.inj (hb.walks.curGroup.symm.trans hg)
    simp only [hb.inGroup]
    split
    · have hp := deregisterIfValid_place s b
      have hgroup : (deregisterIfValid s b).group = s.group := hp.lists.group
      have hlast : (deregisterIfValid s b).rt.lastBlock = s.rt.lastBlock := hp.lastBlock
      refine ⟨.group g' { s.group g' with
          used := QLog.removeAfter (s.group g').used (s.lastIn g') b, free := b :: (s.group g').free },
        ?_, (goOn_pc _ _ _).1, hgrip, (goOn_pc _ _ _).2, hlent, hb.walks.mem, rfl, fun x hx => ?_⟩
      · refine Still.trans ?_ (goOn_still _ _ _)
        have hst := deregisterIfValid_still s b
        refine ⟨hst.lp, hst.records, ⟨hst.lists.groups, hst.lists.pool, hst.lists.removed,
          hst.lists.groupIndex, ?_, hst.lists.headLock⟩, hst.poolLock, hst.oversize, hst.oversizeIndex,
          hst.arrayWriter, hst.arrayReaders, hst.delivered, hst.pcs, hst.curBlock⟩
        simp only [recycleBlock, State.setGroup, hgroup, hlast, ReaderEffect.apply, State.lastIn]
      · rw [Group.blocks, hb.used] at hx
        rw [Group.blocks, hb.removeAfter h.lists]
        exact perm_recycled.mem_iff.mpr hx
    · exact hmove _ _ (Still.setReader _ _)
  · obtain rfl : g' = g := Option.some.inj (hb.walks.curGroup.symm.trans hg)
    simp only [hb.inGroup]
    refine hmove _ _ ?_
    split
    · exact Still.setReader _ _
    · exact Still.refl s

theorem enterGroup_pc {next : Option ℕ} : (enterGroup s next).rt.pc = .loop := by
  unfold enterGroup
  split
  · rfl
  · dsimp only
    split
    · rfl
    · split
      · split <;> rfl
      · rfl

/-- The reader goes on to the next group. -/
theorem enterGroup_effect {next : Option ℕ} (r : Reader) (hgrip : s.rt.pc.grip = .none)
    (hlent : s.rt.pc.lent = .none) : ∃ e, Reads s (enterGroup (s.setReader r) next) e :=
  ((Still.setReader s r).trans (enterGroup_still _ _)).reads (.inl (by rw [enterGroup_pc, hgrip]; rfl))
    (by rw [enterGroup_pc]; rfl) hlent

theorem leaveGroup_effect {next : Option ℕ} (hpc : s.rt.pc = .leaveGroup next) :
    ∃ e, Reads s (leaveGroup s next) e := by
  have hgrip : s.rt.pc.grip = .none := by rw [hpc]; rfl
  have hlent : s.rt.pc.lent = .none := by rw [hpc]; rfl
  unfold leaveGroup
  split
  · exact enterGroup_effect _ hgrip hlent
  · split
    · exact (Still.setReader _ _).reads (.inl hgrip.symm) rfl hlent
    · exact enterGroup_effect _ hgrip hlent

theorem lockGroup_effect {next held : Option ℕ} (hpc : s.rt.pc = .lockGroup next held)
    (hs : lockGroup s next held = some s') : ∃ e, Reads s s' e := by
  have hgrip : s.rt.pc.grip = .none := by rw [hpc]; rfl
  have hlent : s.rt.pc.lent = .none := by rw [hpc]; rfl
  unfold lockGroup at hs
  split at hs
  · cases hs
  · split at hs
    · split at hs
      · obtain rfl := Option.some.inj hs
        exact (Still.setReader _ _).reads (.inl hgrip.symm) rfl hlent
      · split at hs
        · obtain rfl := Option.some.inj hs
          exact (Still.setReader _ _).reads (.inl hgrip.symm) rfl hlent
        · cases hs
    · cases hs

theorem checkGroup_effect {next : Option ℕ} (hpc : s.rt.pc = .checkGroup next) :
    ∃ e, Reads s (checkGroup s g next) e := by
  have hgrip : s.rt.pc.grip = .none := by rw [hpc]; rfl
  have hlent : s.rt.pc.lent = .none := by rw [hpc]; rfl
  unfold checkGroup
  split
  · exact (Still.setReader _ _).reads (.inl hgrip.symm) rfl hlent
  · exact enterGroup_effect _ hgrip hlent

theorem unlinkGroup_effect {next : Option ℕ} (h : Shape s) (hpc : s.rt.pc = .unlinkGroup next)
    (hg : s.rt.curGroup = some g) (hs : unlinkGroup s g next = some s') : ∃ e, Reads s s' e := by
  have hgrip : s.rt.pc.grip = .none := by rw [hpc]; rfl
  have hlent : s.rt.pc.lent = .none := by rw [hpc]; rfl
  have hst := h.stands
  rw [Stands, hpc] at hst
  obtain ⟨-, -, g', hb, -, hlock, hused, hstage⟩ := hst
  obtain rfl : g' = g := Option.some.inj (hb.walks.curGroup.symm.trans hg)
  unfold unlinkGroup at hs
  split at hs
  · obtain rfl := Option.some.inj hs
    exact ⟨.unlinkGroup g', Still.setReader _ _, rfl, hgrip, rfl, hlent, hg, hlock, hb.walks.mem, hused,
      hstage⟩
  · cases hs

theorem pushPool_effect {next : Option ℕ} (h : Shape s) (hpc : s.rt.pc = .pushPool next)
    (hg : s.rt.curGroup = some g) (hs : pushPool s g next = some s') : ∃ e, Reads s s' e := by
  have hst := h.stands
  rw [Stands, hpc] at hst
  obtain ⟨-, -, g', hu⟩ := hst
  obtain rfl : g' = g := Option.some.inj (hu.curGroup.symm.trans hg)
  unfold pushPool at hs
  split at hs
  · rename_i hpool
    obtain rfl := Option.some.inj hs
    exact ⟨.pushPool g', (Still.setReader _ _).trans (enterGroup_still _ _), by rw [enterGroup_pc]; rfl,
      by rw [hpc]; rfl, by rw [enterGroup_pc]; rfl, by rw [hpc]; rfl, hu.removed, hpool⟩
  · cases hs

/-! ## All steps -/

theorem readLoop_effect (h : Shape s) (hpc : s.rt.pc = .loop) (hs : readLoop s = some s') :
    ∃ e, Reads s s' e := by
  have hgrip : s.rt.pc.grip = .none := by rw [hpc]; rfl
  have hlent : s.rt.pc.lent = .none := by rw [hpc]; rfl
  unfold readLoop at hs
  split at hs <;> rename_i hst
  · obtain rfl := Option.some.inj hs
    exact readFromLpBuffer_effect hpc
  · rw [Option.map_eq_some_iff] at hs
    obtain ⟨b, hb, rfl⟩ := hs
    exact readHpBlock_effect hpc hb
  · rw [Option.map_eq_some_iff] at hs
    obtain ⟨g, hg, rfl⟩ := hs
    exact findNextBlock_effect h hpc hst hg
  · obtain rfl := Option.some.inj hs
    exact (Still.setReader _ _).reads (.inl hgrip.symm) rfl hlent
  · obtain rfl := Option.some.inj hs
    exact (Still.setReader _ _).reads (.inl hgrip.symm) rfl hlent

theorem enterBlock_pc {b : ℕ} :
    (enterBlock s b).rt.pc = .loop ∨ (enterBlock s b).rt.pc = .crashed := by
  unfold enterBlock
  split
  · exact .inr rfl
  · exact .inl rfl

theorem readerStep_effect (h : Shape s) (hs : readerStep s due = some s') : ∃ e, Reads s s' e := by
  unfold readerStep at hs
  split at hs <;> rename_i hpc
  · exact readLoop_effect h hpc hs
  · split at hs
    · rename_i hfree
      obtain rfl := Option.some.inj hs
      exact ⟨.lockArray, Still.setReader _ _, hfree, by rw [hpc]; rfl, rfl, rfl, by rw [hpc]; rfl⟩
    · cases hs
  · obtain rfl := Option.some.inj hs
    exact readOversizeChunk_effect hpc
  · obtain rfl := Option.some.inj hs
    refine (Still.setReader _ _).reads (.inl ?_) ?_ (by rw [hpc]; rfl)
    · rw [hpc]
      simp only [State.setReader]
      split <;> rfl
    · simp only [State.setReader]
      split <;> rfl
  · split at hs <;> obtain rfl := Option.some.inj hs
    · rename_i hfree
      exact ⟨.lockRecycle, Still.setReader _ _, hfree.1, hfree.2, by rw [hpc]; rfl, rfl, rfl,
        by rw [hpc]; rfl⟩
    · exact (Still.setReader _ _).reads (.inl (by rw [hpc]; rfl)) rfl (by rw [hpc]; rfl)
  · obtain rfl := Option.some.inj hs
    exact ⟨.unlockRecycle, Still.setReader _ _, by rw [hpc]; rfl, rfl, rfl, by rw [hpc]; rfl⟩
  · obtain rfl := Option.some.inj hs
    exact recycleOversizeBuffer_effect hpc
  · rw [Option.map_eq_some_iff] at hs
    obtain ⟨g, hg, rfl⟩ := hs
    exact leaveBlock_effect h hpc hg
  · rename_i b
    obtain rfl := Option.some.inj hs
    have hlent : s.rt.pc.lent = .none := by rw [hpc]; rfl
    rcases enterBlock_pc (s := s) (b := b) with he | he
    · exact (enterBlock_still s b).reads (.inl (by rw [he, hpc]; rfl)) (by rw [he]; rfl) hlent
    · exact (enterBlock_still s b).reads (.inr he) (by rw [he]; rfl) hlent
  · obtain rfl := Option.some.inj hs
    exact leaveGroup_effect hpc
  · exact lockGroup_effect hpc hs
  · rw [Option.map_eq_some_iff] at hs
    obtain ⟨g, -, rfl⟩ := hs
    exact checkGroup_effect hpc
  · rw [Option.bind_eq_some_iff] at hs
    obtain ⟨g, hg, hs⟩ := hs
    exact unlinkGroup_effect h hpc hg hs
  · rw [Option.bind_eq_some_iff] at hs
    obtain ⟨g, hg, hs⟩ := hs
    exact pushPool_effect h hpc hg hs
  · obtain rfl := Option.some.inj hs
    exact ⟨.pop, Still.setReader _ _, rfl, by rw [hpc]; rfl, rfl, .inl (by rw [hpc]; rfl)⟩
  · cases hs

theorem readChunk_effect (hs : readChunk s = some s') : ∃ e, Reads s s' e := by
  unfold readChunk at hs
  split at hs
  · rename_i hpc
    split at hs
    · rename_i n b _ hb
      split at hs
      · cases hs
      · rename_i payload rest hrec
        obtain rfl := Option.some.inj hs
        exact ⟨.handHp b rest _, Still.registers _ _ _, rfl, by rw [hpc]; rfl, rfl, by rw [hpc]; rfl, hb,
          hrec⟩
    · obtain rfl := Option.some.inj hs
      exact ((Still.setReader _ _).trans (Still.setReader _ _)).reads (.inl (by rw [hpc]; rfl)) rfl
        (by rw [hpc]; rfl)
  · cases hs

theorem returnReadChunk_effect (h : Shape s) (hs : returnReadChunk s = some s') : ∃ e, Reads s s' e := by
  have hst := h.stands
  unfold returnReadChunk at hs
  split at hs
  · rename_i hpc
    obtain rfl := Option.some.inj hs
    exact (Still.setReader _ _).reads (.inl (by rw [hpc]; rfl)) rfl (by rw [hpc]; rfl)
  · rename_i chunk hpc
    have hgrip : s.rt.pc.grip = .none := by rw [hpc]; rfl
    rw [Stands, hpc] at hst
    cases chunk with
    | hp c =>
      obtain ⟨-, g, b, passed, rest, hb⟩ := hst
      rw [if_pos (.inr (by rw [hb.curBlock]; rfl))] at hs
      obtain rfl := Option.some.inj hs
      exact (Still.setReader _ _).reads (.inl hgrip.symm) rfl (by rw [hpc]; rfl)
    | lp c =>
      rw [if_neg (by rw [hst.2, hst.1.curBlock]; simp)] at hs
      obtain rfl := Option.some.inj hs
      exact ⟨.pop, (deregisterSeq_still s _).popSlot.trans (Still.setReader _ _), rfl, hgrip, rfl,
        .inr (by rw [hpc]; rfl)⟩
    | oversize c index =>
      rw [if_neg (by rw [hst.2, hst.1.curBlock]; simp)] at hs
      obtain rfl := Option.some.inj hs
      have hd := deregisterSeq_still s (ReadChunk.oversize c index).context
      refine ⟨.returnOversize index, ?_, rfl, hgrip, rfl, by rw [hpc]; rfl⟩
      refine ⟨hd.lp, hd.records, ⟨hd.lists.groups, hd.lists.pool, hd.lists.removed, hd.lists.groupIndex,
        hd.lists.group, hd.lists.headLock⟩, hd.poolLock, ?_, hd.oversizeIndex, hd.arrayWriter,
        hd.arrayReaders, hd.delivered, hd.pcs, hd.curBlock⟩
      exact congrArg (List.map _) hd.oversize
  · cases hs

/-- Every step of the reader has one of the effects. -/
theorem reader_effect {a : Act} (h : Shape s) (ha : a.writer = none) (hs : step cfg s a = some s') :
    ∃ e, Reads s s' e := by
  cases a with
  | readChunk => exact readChunk_effect hs
  | read due => exact readerStep_effect h hs
  | returnReadChunk => exact returnReadChunk_effect h hs
  | alloc | write | commit | exit => cases ha

end QLog.LogBuffer
