import QLog.Buffer.LogBuffer.Walk

/-!
# What a step of a writer does

The invariants about the numbers and the contents of the records look at a few things only: the
low-performance ring, the blocks, which blocks are listed, what was committed, and of a writer its next
number, its current block and its program counter. `Effect` names the ways in which a step of a writer
changes these, and `writer_effect` says that there are no others.
-/

namespace QLog.LogBuffer

variable {cfg : Config} {s s' u : State} {t g b : ℕ} {c : Choice}

/-- A used or staged block of a linked group. -/
def Listed (s : State) (b : ℕ) : Prop :=
  groupOf b ∈ s.groups ∧ (b ∈ (s.group (groupOf b)).used ∨ b ∈ (s.group (groupOf b)).stage)

/-- The groups that are not linked were removed when they had no blocks. -/
def PoolOk (s : State) : Prop := ∀ g ∈ s.spares, (s.group g).used = [] ∧ (s.group g).stage = []

/-! ## Program counters -/

/-- What a program counter says about the current block of a writer. -/
inductive Hold
  /-- The current block, if there is one, is in use and has the last number. -/
  | current
  /-- The current block, if there is one, is in use; a record in the ring has the last number. -/
  | late
  /-- The number is taken, a block is not found yet. The current block is given up. -/
  | flight (seq : ℕ)
  /-- A block is initialised and not staged. The current block is given up. -/
  | hand (block : ℕ)
  | finished
  deriving DecidableEq

def WriterPc.hold : WriterPc → Hold
  | lockNext _ n _ | popFree _ n _ | lockHead _ n | popHead _ n | newGroup _ n => .flight n
  | pushStage _ _ b _ => .hand b
  | lpGranted _ => .late
  | finished => .finished
  | _ => .current

/-- The chunk of the low-performance ring that a writer has not settled. -/
inductive OpenSlot
  | none
  | reserved
  | granted (size : ℕ) (isThreadFinished isExternalRef : Bool)
  deriving DecidableEq

def WriterPc.openSlot : WriterPc → OpenSlot
  | lpReserved _ => .reserved
  | lpGranted call => .granted ((call.size + contextSize) % 2 ^ 32) false false
  | holdingLp size => .granted ((size + contextSize) % 2 ^ 32) false false
  | oversizeLock _ | oversizeSearch _ _ | oversizeGrow _ | oversizeCreate _ | oversizeAbort
  | holdingOversize _ _ | oversizeUnlock _ _ | oversizeParent _ => .granted contextSize false true
  | exitCommit => .granted contextSize true false
  | _ => .none

/-- A use of the low-performance ring for which the current block was given up before. -/
def LpUse.bare : LpUse → Bool
  | record _ => false
  | _ => true

/-- The program counters at which a writer has no current block. -/
def WriterPc.noBlock : WriterPc → Bool
  | lpAlloc use | lpReserved use | lpFailed use _ => use.bare
  | holdingLp _ | oversizeLock _ | oversizeSearch _ _ | oversizeGrow _ | oversizeCreate _
  | oversizeAbort | holdingOversize _ _ | oversizeUnlock _ _ | oversizeParent _ | exitCommit => true
  | _ => false

/-! ## Effects -/

/-- The ways in which a writer changes the stores. -/
inductive Effect
  | move
  /-- The current block is marked removed and forgotten. -/
  | drop
  /-- The current block is marked removed and a number is taken for the next one. -/
  | take
  /-- A free block is initialised. -/
  | init (b seq : ℕ)
  | stage (b : ℕ)
  | reserve
  | leave
  | unreserve
  | grant (use : LpUse)
  /-- The open chunk is committed; `log` is the record that is committed with it. -/
  | commitSlot (data : List UInt8) (log : Option (List UInt8))
  | abort
  | commitHp (b : ℕ) (payload : List UInt8)
  /-- The current block of a thread that ends is marked. -/
  | finish (b : ℕ)

namespace Effect

def lp (s : State) (t : ℕ) : Effect → List Slot
  | reserve => s.lp ++ [.reserved t]
  | leave => s.lp.map (Slot.leave t)
  | unreserve => s.lp.dropLast
  | grant use => s.lp.map (Slot.grant t use.size (use.context s t))
  | commitSlot data _ => s.lp.map (Slot.commit t data)
  | abort => s.lp.map (Slot.abort t (s.version + 1))
  | _ => s.lp

def block (s : State) (t : ℕ) : Effect → ℕ → Block
  | drop | take => (removeCurBlock s t).block
  | init b seq => Function.update s.block b ⟨false, false, ⟨s.version, false, false, seq, t⟩, []⟩
  | commitHp b payload =>
    Function.update s.block b { s.block b with records := (s.block b).records ++ [payload] }
  | finish b => Function.update s.block b { s.block b with
      isRemoved := true, context := { (s.block b).context with isThreadFinished := true } }
  | _ => s.block

def committed (s : State) (t : ℕ) : Effect → ℕ → List (List UInt8)
  | commitSlot _ (some payload) | commitHp _ payload =>
    Function.update s.committed t (s.committed t ++ [payload])
  | _ => s.committed

def writeSeq (s : State) (t : ℕ) : Effect → ℕ
  | take | grant _ => add32 (s.tls t).writeSeq 1
  | abort => sub32 (s.tls t).writeSeq 1
  | _ => (s.tls t).writeSeq

def curBlock (s : State) (t : ℕ) : Effect → Option ℕ
  | drop => none
  | stage b => some b
  | _ => (s.tls t).curBlock

/-- Where the writer stands before, and where it stands after the effect. -/
def Leads (s : State) (t : ℕ) (pc' : WriterPc) : Effect → Prop
  | move => pc'.hold = (s.tls t).pc.hold ∧ pc'.openSlot = (s.tls t).pc.openSlot ∧
      (pc'.noBlock → (s.tls t).curBlock = none ∨ (s.tls t).pc.noBlock)
  | drop => ((s.tls t).pc.hold = .current ∨ (s.tls t).pc.hold = .late) ∧ pc'.hold = .current ∧
      pc'.openSlot = (s.tls t).pc.openSlot
  | take => (s.tls t).pc.hold = .current ∧ (s.tls t).pc.openSlot = .none ∧
      pc'.hold = .flight (s.tls t).writeSeq ∧ pc'.openSlot = .none ∧ ¬ pc'.noBlock
  | init b seq => (s.tls t).pc.hold = .flight seq ∧ (s.tls t).pc.openSlot = .none ∧
      pc'.hold = .hand b ∧ pc'.openSlot = .none ∧ ¬ pc'.noBlock ∧
      ¬ Listed s b ∧ ∀ t', (s.tls t').pc.hold ≠ .hand b
  | stage b => (s.tls t).pc.hold = .hand b ∧ (s.tls t).pc.openSlot = .none ∧
      pc'.hold = .current ∧ pc'.openSlot = .none ∧ ¬ pc'.noBlock
  | reserve => ∃ use, (s.tls t).pc = .lpAlloc use ∧ pc' = .lpReserved use
  | leave => ∃ use, (s.tls t).pc = .lpReserved use ∧ pc' = .lpAlloc use
  | unreserve => s.lp.getLast? = some (.reserved t) ∧
      ∃ use, (s.tls t).pc = .lpReserved use ∧ pc' = .lpFailed use false
  | grant use => (s.tls t).pc = .lpReserved use ∧ pc' = match use with
      | .record call => .lpGranted call
      | .parent call => .oversizeLock call
      | .finish => .exitCommit
  | commitSlot data log =>
      (pc' = .idle ∧ (s.tls t).pc = .holdingLp data.length ∧ log = some data) ∨
      (pc' = .idle ∧ data = [] ∧ ∃ payload, (s.tls t).pc = .oversizeParent payload ∧
        log = some payload) ∨
      (pc' = .finished ∧ data = [] ∧ (s.tls t).pc = .exitCommit ∧ log = none)
  | abort => (s.tls t).pc = .oversizeAbort ∧ pc' = .idle
  | commitHp b payload =>
      (s.tls t).pc = .holdingHp payload.length ∧ (s.tls t).curBlock = some b ∧ pc' = .idle
  | finish b => (s.tls t).pc = .exitBlock ∧ (s.tls t).curBlock = some b ∧ pc' = .finished

end Effect

/-- A step of writer `t` has the effect `e`. -/
structure Acts (s s' : State) (t : ℕ) (e : Effect) : Prop where
  lp : s'.lp = e.lp s t
  block : s'.block = e.block s t
  committed : s'.committed = e.committed s t
  writeSeq : (s'.tls t).writeSeq = e.writeSeq s t
  curBlock : (s'.tls t).curBlock = e.curBlock s t
  listed : ∀ b, Listed s' b ↔ Listed s b ∨ e = .stage b
  leads : e.Leads s t (s'.tls t).pc

theorem Listed.congr (h : SameLists s s') (b : ℕ) : Listed s' b ↔ Listed s b := by
  rw [Listed, Listed, h.groups, h.group]

theorem SameLists.listed {e : Effect} (h : SameLists s s') (he : ∀ b, e ≠ .stage b) (b : ℕ) :
    Listed s' b ↔ Listed s b ∨ e = .stage b := by
  rw [Listed.congr h, or_iff_left (he b)]

/-- A step that leaves the lists alone and ends with new thread-local data. -/
theorem Acts.setTls {e : Effect} {th : Tls} (hl : SameLists s u) (he : ∀ b, e ≠ .stage b)
    (hlp : u.lp = e.lp s t) (hb : u.block = e.block s t) (hc : u.committed = e.committed s t)
    (hw : th.writeSeq = e.writeSeq s t) (hcur : th.curBlock = e.curBlock s t)
    (hleads : e.Leads s t th.pc) : Acts s (u.setTls t th) t e where
  lp := hlp
  block := hb
  committed := hc
  writeSeq := by
    simpa only [State.setTls, Function.update_self] using hw
  curBlock := by
    simpa only [State.setTls, Function.update_self] using hcur
  listed b := by
    change Listed u b ↔ _
    exact hl.listed he b
  leads := by
    simpa only [State.setTls, Function.update_self] using hleads

/-- Only the program counter moves. -/
theorem Acts.goto {pc : WriterPc} (hl : SameLists s u) (hlp : u.lp = s.lp) (hb : u.block = s.block)
    (hc : u.committed = s.committed) (ht : u.tls = s.tls) (hhold : pc.hold = (s.tls t).pc.hold)
    (hslot : pc.openSlot = (s.tls t).pc.openSlot)
    (hno : pc.noBlock → (s.tls t).curBlock = none ∨ (s.tls t).pc.noBlock) :
    Acts s (u.goto t pc) t .move :=
  Acts.setTls hl (fun _ h => by cases h) hlp hb hc (by rw [ht]; rfl) (by rw [ht]; rfl)
    ⟨hhold, hslot, hno⟩

theorem sameLists_removeCurBlock (s : State) (t : ℕ) : SameLists s (removeCurBlock s t) :=
  (unchanged_removeCurBlock s t).lists

theorem removeCurBlock_lp (s : State) (t : ℕ) : (removeCurBlock s t).lp = s.lp := by
  unfold removeCurBlock
  split <;> rfl

theorem removeCurBlock_committed (s : State) (t : ℕ) :
    (removeCurBlock s t).committed = s.committed := by
  unfold removeCurBlock
  split <;> rfl

theorem acts_dropCurBlock {pc : WriterPc}
    (hhold : (s.tls t).pc.hold = .current ∨ (s.tls t).pc.hold = .late) (hpc : pc.hold = .current)
    (hslot : pc.openSlot = (s.tls t).pc.openSlot) : Acts s (dropCurBlock s t pc) t .drop :=
  Acts.setTls (sameLists_removeCurBlock s t) (fun _ h => by cases h) (removeCurBlock_lp s t) rfl
    (removeCurBlock_committed s t) rfl rfl ⟨hhold, hpc, hslot⟩

theorem acts_allocNewHpBlock (call : Call) (hhold : (s.tls t).pc.hold = .current)
    (hslot : (s.tls t).pc.openSlot = .none) :
    Acts s (allocNewHpBlock (removeCurBlock s t) t call) t .take := by
  have ht : (removeCurBlock s t).tls = s.tls := (unchanged_removeCurBlock s t).tls
  refine Acts.setTls (sameLists_removeCurBlock s t) (fun _ h => by cases h) (removeCurBlock_lp s t) rfl
    (removeCurBlock_committed s t) (by rw [ht]; rfl) (by rw [ht]; rfl) ?_
  rw [ht]
  exact ⟨hhold, hslot, rfl, rfl, Bool.false_ne_true⟩

/-! ## The functions of a writer -/

theorem hpStep_effect (h : hpStep cfg s t c = some s') : ∃ e, Acts s s' t e := by
  unfold hpStep at h
  split at h
  · rename_i call hpc
    have hhold : (s.tls t).pc.hold = .current := by rw [hpc]; rfl
    have hslot : (s.tls t).pc.openSlot = .none := by rw [hpc]; rfl
    split at h
    · rename_i hcur
      obtain rfl := Option.some.inj h
      have := acts_allocNewHpBlock call hhold hslot
      rw [removeCurBlock, hcur] at this
      exact ⟨_, this⟩
    · rename_i b hcur
      split at h <;> obtain rfl := Option.some.inj h
      · have := acts_allocNewHpBlock call hhold hslot
        rw [removeCurBlock, hcur] at this
        exact ⟨_, this⟩
      · exact ⟨_, Acts.goto ⟨rfl, rfl, rfl, rfl, rfl, rfl⟩ rfl rfl rfl rfl hhold.symm hslot.symm
          fun hn => by cases hn⟩
  · rename_i call hpc
    have hgoto : ∀ {pc : WriterPc}, pc.hold = .current → pc.openSlot = .none → pc.noBlock = false →
        Acts s (s.goto t pc) t .move := fun h1 h2 h3 =>
      Acts.goto ⟨rfl, rfl, rfl, rfl, rfl, rfl⟩ rfl rfl rfl rfl (by rw [hpc, h1]; rfl) (by rw [hpc, h2]; rfl)
        fun hn => by rw [h3] at hn; cases hn
    split at h
    · obtain rfl := Option.some.inj h
      exact ⟨_, hgoto rfl rfl rfl⟩
    · obtain rfl := Option.some.inj h
      refine ⟨_, hgoto ?_ ?_ ?_⟩ <;> split <;> rfl
    · obtain rfl := Option.some.inj h
      refine ⟨_, hgoto ?_ ?_ ?_⟩ <;> split <;> rfl
    · cases h
  · rename_i call hpc
    obtain rfl := Option.some.inj h
    exact ⟨_, acts_allocNewHpBlock call (by rw [hpc]; rfl) (by rw [hpc]; rfl)⟩
  · cases h

theorem lpFailedStep_effect {use : LpUse} {sizeInvalid : Bool}
    (hpc : (s.tls t).pc = .lpFailed use sizeInvalid) :
    ∃ e, Acts s (lpFailedStep cfg s t use sizeInvalid) t e := by
  cases use with
  | record call =>
    simp only [lpFailedStep]
    split
    · exact ⟨_, Acts.setTls (e := .move) ⟨rfl, rfl, rfl, rfl, rfl, rfl⟩ (fun _ h => by cases h) rfl rfl rfl
        rfl rfl ⟨by rw [hpc]; rfl, by rw [hpc]; rfl, fun hn => by cases hn⟩⟩
    · refine ⟨_, acts_dropCurBlock (.inl (by rw [hpc]; rfl)) ?_ ?_⟩
      · split <;> rfl
      · rw [hpc]
        split <;> rfl
  | parent call =>
    exact ⟨_, Acts.goto ⟨rfl, rfl, rfl, rfl, rfl, rfl⟩ rfl rfl rfl rfl (by rw [hpc]; rfl) (by rw [hpc]; rfl)
      fun hn => by cases hn⟩
  | finish =>
    exact ⟨_, Acts.goto ⟨rfl, rfl, rfl, rfl, rfl, rfl⟩ rfl rfl rfl rfl (by rw [hpc]; rfl) (by rw [hpc]; rfl)
      fun _ => .inr (by rw [hpc]; rfl)⟩

theorem lpStep_effect (h : lpStep cfg s t c = some s') : ∃ e, Acts s s' t e := by
  unfold lpStep at h
  split at h
  · rename_i use hpc
    have hfail : ∀ b, Acts s (s.goto t (.lpFailed use b)) t .move := fun b =>
      Acts.goto ⟨rfl, rfl, rfl, rfl, rfl, rfl⟩ rfl rfl rfl rfl (by rw [hpc]; rfl) (by rw [hpc]; rfl)
        fun hn => .inr (by rw [hpc]; exact hn)
    split at h
    · obtain rfl := Option.some.inj h
      exact ⟨.reserve, Acts.setTls ⟨rfl, rfl, rfl, rfl, rfl, rfl⟩ (fun _ h => by cases h) rfl rfl rfl rfl rfl
        ⟨use, hpc, rfl⟩⟩
    · obtain rfl := Option.some.inj h
      exact ⟨_, hfail false⟩
    · obtain rfl := Option.some.inj h
      exact ⟨_, hfail true⟩
    · cases h
  · rename_i use hpc
    split at h
    · obtain rfl := Option.some.inj h
      exact ⟨.grant use, Acts.setTls ⟨rfl, rfl, rfl, rfl, rfl, rfl⟩ (fun _ h => by cases h) rfl rfl rfl rfl
        rfl ⟨hpc, rfl⟩⟩
    · obtain rfl := Option.some.inj h
      exact ⟨.leave, Acts.setTls ⟨rfl, rfl, rfl, rfl, rfl, rfl⟩ (fun _ h => by cases h) rfl rfl rfl rfl
        rfl ⟨use, hpc, rfl⟩⟩
    · split at h
      · rename_i hlast
        obtain rfl := Option.some.inj h
        exact ⟨.unreserve, Acts.setTls ⟨rfl, rfl, rfl, rfl, rfl, rfl⟩ (fun _ h => by cases h) rfl rfl rfl rfl
          rfl ⟨hlast, use, hpc, rfl⟩⟩
      · cases h
    · cases h
  · rename_i use sizeInvalid hpc
    obtain rfl := Option.some.inj h
    exact lpFailedStep_effect hpc
  · rename_i call hpc
    obtain rfl := Option.some.inj h
    exact ⟨_, acts_dropCurBlock (.inr (by rw [hpc]; rfl)) rfl (by rw [hpc]; rfl)⟩
  · cases h

theorem oversizeStep_effect (h : oversizeStep s t c = some s') : ∃ e, Acts s s' t e := by
  have hgoto : ∀ {u : State} {pc : WriterPc}, SameLists s u → u.lp = s.lp → u.block = s.block →
      u.committed = s.committed → u.tls = s.tls → pc.hold = (s.tls t).pc.hold →
      pc.openSlot = (s.tls t).pc.openSlot → (s.tls t).pc.noBlock → Acts s (u.goto t pc) t .move :=
    fun h1 h2 h3 h4 h5 h6 h7 h8 => Acts.goto h1 h2 h3 h4 h5 h6 h7 fun _ => .inr h8
  unfold oversizeStep at h
  split at h <;> rename_i hpc
  · obtain rfl := Option.some.inj h
    exact ⟨_, acts_dropCurBlock (.inl (by rw [hpc]; rfl)) rfl (by rw [hpc]; rfl)⟩
  · split at h
    · obtain rfl := Option.some.inj h
      exact ⟨_, hgoto ⟨rfl, rfl, rfl, rfl, rfl, rfl⟩ rfl rfl rfl rfl (by rw [hpc]; rfl) (by rw [hpc]; rfl)
        (by rw [hpc]; rfl)⟩
    · cases h
  · split at h
    · obtain rfl := Option.some.inj h
      exact ⟨_, hgoto ⟨rfl, rfl, rfl, rfl, rfl, rfl⟩ rfl rfl rfl rfl (by rw [hpc]; rfl) (by rw [hpc]; rfl)
        (by rw [hpc]; rfl)⟩
    · split at h <;> obtain rfl := Option.some.inj h
      · exact ⟨_, hgoto ⟨rfl, rfl, rfl, rfl, rfl, rfl⟩ rfl rfl rfl rfl (by rw [hpc]; rfl) (by rw [hpc]; rfl)
          (by rw [hpc]; rfl)⟩
      · exact ⟨_, hgoto ⟨rfl, rfl, rfl, rfl, rfl, rfl⟩ rfl rfl rfl rfl (by rw [hpc]; rfl) (by rw [hpc]; rfl)
          (by rw [hpc]; rfl)⟩
  · split at h
    · obtain rfl := Option.some.inj h
      exact ⟨_, hgoto ⟨rfl, rfl, rfl, rfl, rfl, rfl⟩ rfl rfl rfl rfl (by rw [hpc]; rfl) (by rw [hpc]; rfl)
        (by rw [hpc]; rfl)⟩
    · cases h
  · split at h <;> obtain rfl := Option.some.inj h
    · exact ⟨_, hgoto ⟨rfl, rfl, rfl, rfl, rfl, rfl⟩ rfl rfl rfl rfl (by rw [hpc]; rfl) (by rw [hpc]; rfl)
        (by rw [hpc]; rfl)⟩
    · exact ⟨_, hgoto ⟨rfl, rfl, rfl, rfl, rfl, rfl⟩ rfl rfl rfl rfl (by rw [hpc]; rfl) (by rw [hpc]; rfl)
        (by rw [hpc]; rfl)⟩
  · obtain rfl := Option.some.inj h
    exact ⟨.abort, Acts.setTls ⟨rfl, rfl, rfl, rfl, rfl, rfl⟩ (fun _ h => by cases h) rfl rfl rfl rfl rfl
      ⟨hpc, rfl⟩⟩
  · obtain rfl := Option.some.inj h
    exact ⟨_, hgoto ⟨rfl, rfl, rfl, rfl, rfl, rfl⟩ rfl rfl rfl rfl (by rw [hpc]; rfl) (by rw [hpc]; rfl)
      (by rw [hpc]; rfl)⟩
  · rename_i payload
    obtain rfl := Option.some.inj h
    exact ⟨.commitSlot [] (some payload), Acts.setTls ⟨rfl, rfl, rfl, rfl, rfl, rfl⟩ (fun _ h => by cases h)
      rfl rfl rfl rfl rfl (.inr (.inl ⟨rfl, rfl, payload, hpc, rfl⟩))⟩
  · cases h

theorem exitStep_effect (h : exitStep s t = some s') : ∃ e, Acts s s' t e := by
  unfold exitStep at h
  split at h <;> rename_i hpc
  · split at h
    · obtain rfl := Option.some.inj h
      exact ⟨_, Acts.goto ⟨rfl, rfl, rfl, rfl, rfl, rfl⟩ rfl rfl rfl rfl (by rw [hpc]; rfl) (by rw [hpc]; rfl)
        fun hn => by cases hn⟩
    · cases h
  · obtain rfl := Option.some.inj h
    refine ⟨_, Acts.goto ⟨rfl, rfl, rfl, rfl, rfl, rfl⟩ rfl rfl rfl rfl ?_ ?_ fun hn => .inl ?_⟩
    · rw [hpc]
      split <;> rfl
    · rw [hpc]
      split <;> rfl
    · split at hn
      · cases hn
      · rename_i hsome
        exact Option.not_isSome_iff_eq_none.mp hsome
  · split at h
    · cases h
    · rename_i b hcur
      obtain rfl := Option.some.inj h
      exact ⟨.finish b, Acts.setTls ⟨rfl, rfl, rfl, rfl, rfl, rfl⟩ (fun _ h => by cases h) rfl rfl rfl rfl rfl
        ⟨hpc, hcur, rfl⟩⟩
  · obtain rfl := Option.some.inj h
    exact ⟨.commitSlot [] none, Acts.setTls ⟨rfl, rfl, rfl, rfl, rfl, rfl⟩ (fun _ h => by cases h) rfl rfl rfl
      rfl rfl (.inr (.inr ⟨rfl, rfl, hpc, rfl⟩))⟩
  · cases h

theorem commitWriteChunk_effect {payload : List UInt8} (h : commitWriteChunk s t payload = some s') :
    ∃ e, Acts s s' t e := by
  unfold commitWriteChunk at h
  split at h <;> rename_i hpc
  · split at h
    · cases h
    · rename_i b hcur
      split at h
      · rename_i hsize
        obtain rfl := Option.some.inj h
        exact ⟨.commitHp b payload, Acts.setTls ⟨rfl, rfl, rfl, rfl, rfl, rfl⟩ (fun _ h => by cases h) rfl rfl
          rfl rfl rfl ⟨by rw [hpc, hsize], hcur, rfl⟩⟩
      · cases h
  · split at h
    · rename_i hsize
      obtain rfl := Option.some.inj h
      exact ⟨.commitSlot payload (some payload), Acts.setTls ⟨rfl, rfl, rfl, rfl, rfl, rfl⟩
        (fun _ h => by cases h) rfl rfl rfl rfl rfl (.inl ⟨rfl, by rw [hpc, hsize], rfl⟩)⟩
    · cases h
  · split at h
    · obtain rfl := Option.some.inj h
      exact ⟨_, Acts.goto ⟨rfl, rfl, rfl, rfl, rfl, rfl⟩ rfl rfl rfl rfl (by rw [hpc]; rfl) (by rw [hpc]; rfl)
        fun _ => .inr (by rw [hpc]; rfl)⟩
    · cases h
  · cases h

theorem callAlloc_effect {call : Call} (hpc : (s.tls t).pc = .idle) :
    Acts s (callAlloc cfg s t call) t .move := by
  have hf : (updateFrequency cfg (s.tls t) call.epochMs).1.writeSeq = (s.tls t).writeSeq ∧
      (updateFrequency cfg (s.tls t) call.epochMs).1.curBlock = (s.tls t).curBlock := by
    unfold updateFrequency
    simp only
    split <;> split <;> exact ⟨rfl, rfl⟩
  refine Acts.setTls ⟨rfl, rfl, rfl, rfl, rfl, rfl⟩ (fun _ h => by cases h) rfl rfl rfl hf.1 hf.2 ?_
  rw [Effect.Leads, hpc]
  simp only [allocPath]
  split
  · exact ⟨rfl, rfl, fun hn => by cases hn⟩
  · split <;> exact ⟨rfl, rfl, fun hn => by cases hn⟩

/-! ## `alloc_new_block` -/

/-- A step that leaves the used and the staged lists alone. -/
theorem listed_congr (hg : s'.groups = s.groups)
    (hl : ∀ g, (s'.group g).used = (s.group g).used ∧ (s'.group g).stage = (s.group g).stage) (b : ℕ) :
    Listed s' b ↔ Listed s b := by
  rw [Listed, Listed, hg, (hl _).1, (hl _).2]

theorem setGroup_lists {grp : Group} (hu : grp.used = (s.group g).used)
    (hst : grp.stage = (s.group g).stage) (g' : ℕ) :
    ((s.setGroup g grp).group g').used = (s.group g').used ∧
      ((s.setGroup g grp).group g').stage = (s.group g').stage := by
  rcases eq_or_ne g' g with rfl | hg
  · simpa [State.setGroup] using ⟨hu, hst⟩
  · simp [State.setGroup, hg]

/-- A writer that looks for a block takes or releases a lock. -/
theorem acts_search {pc : WriterPc} {seq : ℕ} (hhold : (s.tls t).pc.hold = .flight seq)
    (hlp : u.lp = s.lp) (hb : u.block = s.block) (hc : u.committed = s.committed)
    (ht : u.tls = s.tls) (hg : u.groups = s.groups)
    (hl : ∀ g, (u.group g).used = (s.group g).used ∧ (u.group g).stage = (s.group g).stage)
    (hslot : (s.tls t).pc.openSlot = .none) (hpc : pc.hold = .flight seq ∧ pc.openSlot = .none ∧
      pc.noBlock = false) : Acts s (u.goto t pc) t .move where
  lp := hlp
  block := hb
  committed := hc
  writeSeq := by rw [State.goto_tls_self, ht]; rfl
  curBlock := by rw [State.goto_tls_self, ht]; rfl
  listed b := by
    rw [or_iff_left (fun h => by cases h)]
    change Listed u b ↔ Listed s b
    exact listed_congr hg hl b
  leads := by
    rw [State.goto_tls_self]
    refine ⟨hpc.1.trans hhold.symm, hpc.2.1.trans hslot.symm, fun hn => ?_⟩
    rw [hpc.2.2] at hn
    cases hn

theorem hold_hand_iff {pc : WriterPc} : pc.hold = .hand b ↔ pc.role.block = some b := by
  cases pc with
  | lockNext _ _ g => cases g <;> simp [WriterPc.hold, WriterPc.role, Role.block]
  | pushStage _ _ _ head => cases head <;> simp [WriterPc.hold, WriterPc.role, Role.block]
  | _ => simp [WriterPc.hold, WriterPc.role, Role.block]

/-- A writer takes a block from a free list. -/
theorem acts_takeBlock {call : Call} {seq g b : ℕ} {rest : List ℕ} {head : Bool}
    (hl : ListsOk u) (hfree : (u.group g).free = b :: rest)
    (hhold : (s.tls t).pc.hold = .flight seq) (hslot : (s.tls t).pc.openSlot = .none)
    (hlisted : ∀ b, Listed u b ↔ Listed s b) (hlp : u.lp = s.lp) (hb : u.block = s.block)
    (hc : u.committed = s.committed) (ht : u.tls = s.tls) (hv : u.version = s.version) :
    Acts s (takeBlock u t call seq g b rest head) t (.init b seq) := by
  have hmem : b ∈ (u.group g).blocks := by simp [Group.blocks, hfree]
  have hgb : groupOf b = g := hl.groupOf_eq g b hmem
  have hnd := hl.nodup g
  rw [Group.blocks, hfree] at hnd
  refine ⟨hlp, ?_, hc, ?_, ?_, fun b' => ?_, ?_⟩
  · simp only [takeBlock, State.goto, State.setTls, initBlock, State.setBlock, State.setGroup, hb, hv,
      Effect.block]
  · simp [takeBlock, State.goto, State.setTls, initBlock, State.setBlock, State.setGroup, ht,
      Effect.writeSeq]
  · simp [takeBlock, State.goto, State.setTls, initBlock, State.setBlock, State.setGroup, ht,
      Effect.curBlock]
  · rw [or_iff_left (fun h => by cases h), ← hlisted]
    change Listed (u.setGroup g { u.group g with free := rest }) b' ↔ Listed u b'
    exact listed_congr (by rfl) (setGroup_lists (by rfl) (by rfl)) b'
  · have hpc : ((takeBlock u t call seq g b rest head).tls t).pc = .pushStage call g b head := by
      simp [takeBlock, State.goto, State.setTls]
    rw [hpc]
    refine ⟨hhold, hslot, rfl, rfl, Bool.false_ne_true, ?_, fun t' h => ?_⟩
    · rw [← hlisted, Listed, hgb]
      rintro ⟨-, hu | hu⟩
      · exact (List.nodup_append.mp hnd).2.2 b hu b (by simp) rfl
      · exact (List.nodup_append.mp (List.nodup_append.mp hnd).2.1).2.2 b hu b (by simp) rfl
    · rw [hold_hand_iff, ← ht] at h
      exact hl.not_hand hmem t' h

/-- The group that is put in front has no used and no staged blocks. -/
theorem listed_linkGroup (hl : ListsOk s) (hp : PoolOk s) (b : ℕ) :
    Listed (linkGroup s) b ↔ Listed s b := by
  obtain ⟨hnew, hgroups, hgroup, -⟩ := linkGroup_frame hl
  have hempty : ((linkGroup s).group s.spareGroup).used = [] ∧
      ((linkGroup s).group s.spareGroup).stage = [] := by
    unfold linkGroup
    cases hpool : s.pool with
    | nil => simp [Group.fresh]
    | cons g pool =>
      have hspare : s.spareGroup = g := by rw [State.spareGroup, hpool]; rfl
      rw [hspare]
      exact hp g (by rw [State.spares, hpool]; exact List.mem_cons_self)
  rcases eq_or_ne (groupOf b) s.spareGroup with he | hne
  · have h1 : ¬ Listed s b := fun h => hnew (he ▸ h.1)
    have h2 : ¬ Listed (linkGroup s) b := by
      rw [Listed, he, hempty.1, hempty.2]
      simp
    exact iff_of_false h2 h1
  · rw [Listed, Listed, hgroups, List.mem_cons, or_iff_right hne]
    refine and_congr_right fun hmem => ?_
    rw [hgroup _ hmem]

/-- The block in the hands of a writer is staged. -/
theorem acts_stageBlock {call : Call} {head : Bool} (hl : ListsOk s)
    (hpc : (s.tls t).pc = .pushStage call g b head) :
    Acts s (stageBlock cfg s t call g b head) t (.stage b) := by
  have hr := hl.role t
  rw [hpc] at hr
  have hg : groupOf b = g ∧ g ∈ s.groups := by
    cases head with
    | false => exact ⟨hr.2.2.1, hr.1⟩
    | true => exact ⟨hr.2.2.1, List.mem_of_head? hr.2.1⟩
  obtain ⟨hgroups, hgroup⟩ : (stageBlock cfg s t call g b head).groups = s.groups ∧
      ∃ readers, (stageBlock cfg s t call g b head).group = Function.update s.group g
        { s.group g with stage := b :: (s.group g).stage, readers := readers } := by
    cases head with
    | false => exact ⟨rfl, _, rfl⟩
    | true => exact ⟨rfl, _, rfl⟩
  obtain ⟨readers, hgroup⟩ := hgroup
  have htls : (stageBlock cfg s t call g b head).tls t =
      { s.tls t with curBlock := some b, pc := .hpAlloc call } := by
    simp [stageBlock, State.setTls]
  refine ⟨?_, ?_, ?_, ?_, ?_, fun b' => ?_, ?_⟩
  · cases head <;> rfl
  · cases head <;> rfl
  · cases head <;> rfl
  · rw [htls]
    rfl
  · rw [htls]
    rfl
  · rw [Listed, hgroups, hgroup, Effect.stage.injEq]
    rcases eq_or_ne (groupOf b') g with he | hne
    · rw [he, Function.update_self, Listed, he, List.mem_cons]
      constructor
      · rintro ⟨hm, h | rfl | h⟩
        · exact .inl ⟨hm, .inl h⟩
        · exact .inr rfl
        · exact .inl ⟨hm, .inr h⟩
      · rintro (⟨hm, h | h⟩ | rfl)
        · exact ⟨hm, .inl h⟩
        · exact ⟨hm, .inr (.inr h)⟩
        · exact ⟨hg.2, .inr (.inl rfl)⟩
    · rw [Function.update_of_ne hne]
      refine (or_iff_left ?_).symm
      rintro rfl
      exact hne hg.1
  · rw [htls]
    exact ⟨by rw [hpc]; rfl, by rw [hpc]; rfl, rfl, rfl, Bool.false_ne_true⟩

theorem newBlockStep_effect (hl : ListsOk s) (hp : PoolOk s) (h : newBlockStep cfg s t = some s') :
    ∃ e, Acts s s' t e := by
  unfold newBlockStep at h
  split at h <;> rename_i hpc
  · split at h
    · cases h
    · obtain rfl := Option.some.inj h
      exact ⟨_, acts_search (by rw [hpc]; rfl) rfl rfl rfl rfl rfl (fun _ => ⟨rfl, rfl⟩)
        (by rw [hpc]; rfl) ⟨rfl, rfl, rfl⟩⟩
    · split at h
      · cases h
      · obtain rfl := Option.some.inj h
        exact ⟨_, acts_search (by rw [hpc]; rfl) rfl rfl rfl rfl rfl (setGroup_lists (by rfl) (by rfl))
          (by rw [hpc]; rfl) ⟨rfl, rfl, rfl⟩⟩
  · split at h
    · obtain rfl := Option.some.inj h
      exact ⟨_, acts_search (by rw [hpc]; rfl) rfl rfl rfl rfl rfl (setGroup_lists (by rfl) (by rfl))
        (by rw [hpc]; rfl) ⟨rfl, rfl, rfl⟩⟩
    · split at h
      · cases h
      obtain rfl := Option.some.inj h
      refine ⟨_, acts_search (by rw [hpc]; rfl) rfl rfl rfl rfl rfl (fun g => ?_)
        (by rw [hpc]; rfl) ⟨rfl, rfl, rfl⟩⟩
      have h1 : ∀ (u : State) (g : ℕ) (grp : Group), grp.used = (u.group g).used →
          grp.stage = (u.group g).stage → ∀ g', ((u.setGroup g grp).group g').used = (u.group g').used ∧
            ((u.setGroup g grp).group g').stage = (u.group g').stage := fun _ _ _ => setGroup_lists
      refine ⟨(h1 _ _ _ (by rfl) (by rfl) g).1.trans (h1 _ _ _ (by rfl) (by rfl) g).1,
        (h1 _ _ _ (by rfl) (by rfl) g).2.trans (h1 _ _ _ (by rfl) (by rfl) g).2⟩
  · split at h <;> obtain rfl := Option.some.inj h
    · exact ⟨_, acts_search (by rw [hpc]; rfl) rfl rfl rfl rfl rfl (fun _ => ⟨rfl, rfl⟩)
        (by rw [hpc]; rfl) ⟨rfl, rfl, rfl⟩⟩
    · rename_i hfree
      exact ⟨_, acts_takeBlock hl hfree (by rw [hpc]; rfl) (by rw [hpc]; rfl) (fun _ => Iff.rfl)
        rfl rfl rfl rfl rfl⟩
  · split at h
    · obtain rfl := Option.some.inj h
      exact ⟨_, acts_search (by rw [hpc]; rfl) rfl rfl rfl rfl rfl (fun _ => ⟨rfl, rfl⟩)
        (by rw [hpc]; rfl) ⟨rfl, rfl, rfl⟩⟩
    · cases h
  · have hpool : ∀ {call seq s'}, (s.tls t).pc = .popHead call seq → (if s.poolLock = none then
        some ({ s with poolLock := some t }.goto t (.newGroup call seq)) else none) = some s' →
        ∃ e, Acts s s' t e := by
      intro call seq s' hpc h
      split at h
      · obtain rfl := Option.some.inj h
        exact ⟨_, acts_search (by rw [hpc]; rfl) rfl rfl rfl rfl rfl (fun _ => ⟨rfl, rfl⟩)
          (by rw [hpc]; rfl) ⟨rfl, rfl, rfl⟩⟩
      · cases h
    split at h
    · exact hpool hpc h
    · split at h
      · exact hpool hpc h
      · rename_i hfree
        obtain rfl := Option.some.inj h
        exact ⟨_, acts_takeBlock hl hfree (by rw [hpc]; rfl) (by rw [hpc]; rfl) (fun _ => Iff.rfl)
          rfl rfl rfl rfl rfl⟩
  · split at h
    · cases h
    · rename_i call seq _ _ b rest hfree
      obtain rfl := Option.some.inj h
      have hr := hl.role t
      have hrole : (s.tls t).pc.role = .head := by rw [hpc]; rfl
      rw [hrole] at hr
      obtain ⟨-, -, -, hu⟩ := linkGroup_frame hl
      have h1 : (linkGroup s).lp = s.lp ∧ (linkGroup s).block = s.block ∧
          (linkGroup s).committed = s.committed := by
        unfold linkGroup
        split <;> exact ⟨rfl, rfl, rfl⟩
      exact ⟨_, acts_takeBlock (hl.linkGroup hr hrole) hfree (by rw [hpc]; rfl) (by rw [hpc]; rfl)
        (listed_linkGroup hl hp) h1.1 h1.2.1 h1.2.2 hu.tls hu.version⟩
  · obtain rfl := Option.some.inj h
    exact ⟨_, acts_stageBlock hl hpc⟩
  · cases h

/-- Every step of a writer has one of the effects. -/
theorem writer_effect {a : Act} (hl : ListsOk s) (hp : PoolOk s) (ha : a.writer = some t)
    (h : step cfg s a = some s') : ∃ e, Acts s s' t e := by
  cases a with
  | alloc t' call =>
    obtain rfl : t' = t := by simpa [Act.writer] using ha
    simp only [step] at h
    split at h
    · rename_i hpc
      split at h
      · obtain rfl := Option.some.inj h
        exact ⟨_, callAlloc_effect hpc⟩
      · cases h
    · cases h
  | write t' c =>
    obtain rfl : t' = t := by simpa [Act.writer] using ha
    simp only [step, writerStep] at h
    split at h
    all_goals first
      | exact newBlockStep_effect hl hp h
      | exact hpStep_effect h
      | exact lpStep_effect h
      | exact oversizeStep_effect h
      | exact exitStep_effect h
      | cases h
  | commit t' payload =>
    obtain rfl : t' = t := by simpa [Act.writer] using ha
    exact commitWriteChunk_effect h
  | exit t' =>
    obtain rfl : t' = t := by simpa [Act.writer] using ha
    simp only [step] at h
    split at h
    · rename_i hpc
      obtain rfl := Option.some.inj h
      exact ⟨_, Acts.goto ⟨rfl, rfl, rfl, rfl, rfl, rfl⟩ rfl rfl rfl rfl (by rw [hpc]; rfl)
        (by rw [hpc]; rfl) fun hn => by cases hn⟩
    · cases h
  | readChunk | read | returnReadChunk => cases ha

end QLog.LogBuffer
