import QLog.Buffer.Miso.Chunk

/-!
# The invariant of the multi-producer ring

The reservations lie one after the other: `pos k` is the unbounded position of the `k`-th of them.
The write cursor is the residue of the position behind the last reservation, the consumer's cursor
that of reservation `read`, the published read cursor that of reservation `released`, with

  `released ≤ read ≤ resv.length`.

Everything from `released` on that a producer was granted ends at most a ring after the published
read cursor (`RingOk.room`), so granted chunks share no block, what has not been released stays in
memory (`RingOk.kept`) and every other block of the ring is unused (`RingOk.free`).

A recovered ring may be completely full. Then the consumer, having passed everything, stands on the
first chunk again, and must find it unused; `Tight` is the reason why it does.
-/

namespace QLog.Miso

variable {N : BlockCount} {start : ℕ} {s : State}

/-! ## Phases -/

/-- The consumer may pass the reservation. -/
def Phase.settled : Phase → Bool
  | .reserved => false
  | .granted => false
  | .invalid => true
  | .committed _ => true

def Phase.isCommitted : Phase → Bool
  | .committed _ => true
  | _ => false

theorem Phase.settled_of_isCommitted {ph : Phase} (h : ph.isCommitted) : ph.settled := by
  cases ph <;> simp_all [Phase.isCommitted, Phase.settled]

/-- What the consumer is to be handed for a reservation. -/
def Resv.delivery (r : Resv) : Option Delivery :=
  match r.phase with
  | .committed payload => some ⟨r.size, payload⟩
  | _ => none

/-! ## Positions -/

namespace State

/-- The unbounded position of the `k`-th reservation. -/
def pos (s : State) (start k : ℕ) : ℕ := start + s.blocksBefore k

variable (s)

@[simp] theorem pos_zero (start : ℕ) : s.pos start 0 = start := by simp [pos, blocksBefore]

theorem pos_mono (start : ℕ) {k l : ℕ} (h : k ≤ l) : s.pos start k ≤ s.pos start l :=
  Nat.add_le_add_left (offset_mono _ h) _

theorem pos_succ (start : ℕ) {k : ℕ} {r : Resv} (h : s.resv[k]? = some r) :
    s.pos start (k + 1) = s.pos start k + r.blocks := by
  obtain ⟨hk, rfl⟩ := List.getElem?_eq_some_iff.mp h
  unfold pos blocksBefore
  rw [offset_succ (by simpa using hk)]
  simp [Nat.add_assoc]

/-- Every reservation before the `k`-th can be passed by the consumer. -/
def SettledBefore (k : ℕ) : Prop := ∀ j < k, ∃ r, s.resv[j]? = some r ∧ r.phase.settled

variable {s}

theorem SettledBefore.le_length {k : ℕ} (h : s.SettledBefore k) : k ≤ s.resv.length := by
  by_contra hlt
  obtain ⟨r, hr, -⟩ := h s.resv.length (by omega)
  simp at hr

theorem SettledBefore.le_of_not_settled {k j : ℕ} {r : Resv} (h : s.SettledBefore k)
    (hr : s.resv[j]? = some r) (hs : r.phase.settled = false) : k ≤ j := by
  by_contra hlt
  obtain ⟨r', hr', hs'⟩ := h j (by omega)
  rw [hr] at hr'
  cases hr'
  simp [hs] at hs'

theorem SettledBefore.succ {k : ℕ} {r : Resv} (h : s.SettledBefore k)
    (hr : s.resv[k]? = some r) (hs : r.phase.settled) : s.SettledBefore (k + 1) := by
  intro j hj
  by_cases hjk : j = k
  · subst hjk
    exact ⟨r, hr, hs⟩
  · exact h j (by omega)

theorem SettledBefore.mono {k l : ℕ} (h : s.SettledBefore l) (hkl : k ≤ l) : s.SettledBefore k :=
  fun j hj => h j (by omega)

end State

/-! ## Threads -/

/-- The local variables of a call that passed the size test. -/
structure CallOk (N : BlockCount) (call : Call) : Prop where
  need_pos : 0 < call.need
  need_le : call.need ≤ N.count
  need_lt : call.need < 2 ^ 24
  size_lt : call.size < 2 ^ 32
  fits : Fits call.size call.need

/-- The reservation at `slot` is the one of this call of thread `t`. -/
structure SlotOk (start : ℕ) (s : State) (t : ℕ) (call : Call) (cursor slot : ℕ) (ph : Phase) :
    Prop where
  resv : s.resv[slot]? = some ⟨t, call.size, call.need, ph⟩
  cursor : cursor = s.pos start slot % 2 ^ 32

/-- The thread-local copy of the read cursor is in use. -/
def Pc.hasCopy : Pc → Bool
  | .idle => false
  | .loadWrite _ => false
  | .loadRead _ _ => false
  | _ => true

/-- What holds where a producer stands. -/
def PcOk (N : BlockCount) (start : ℕ) (s : State) (t : ℕ) : Pc → Prop
  | .idle => True
  | .loadWrite call => CallOk N call
  | .loadRead call _ => CallOk N call
  | .reload call _ => CallOk N call
  | .reserve call => CallOk N call
  | .recheck call cursor slot => CallOk N call ∧ SlotOk start s t call cursor slot .reserved
  | .rollBack call cursor slot => CallOk N call ∧ SlotOk start s t call cursor slot .reserved
  | .setHead call cursor slot => CallOk N call ∧ SlotOk start s t call cursor slot .granted
  | .markInvalid call cursor slot => CallOk N call ∧ SlotOk start s t call cursor slot .granted ∧
      getBlockNum s.blocks (s.pos start slot % N.count) = call.need
  | .setSize call cursor slot => CallOk N call ∧ SlotOk start s t call cursor slot .granted ∧
      getBlockNum s.blocks (s.pos start slot % N.count) = call.need ∧
      s.pos start slot % N.count + call.need ≤ N.count
  | .lowSpace call cursor slot => CallOk N call ∧ SlotOk start s t call cursor slot .granted ∧
      getBlockNum s.blocks (s.pos start slot % N.count) = call.need ∧
      s.pos start slot % N.count + call.need ≤ N.count ∧
      dataSize s.blocks (s.pos start slot % N.count) = call.size
  | .holding call cursor slot _ => CallOk N call ∧ SlotOk start s t call cursor slot .granted ∧
      getBlockNum s.blocks (s.pos start slot % N.count) = call.need ∧
      s.pos start slot % N.count + call.need ≤ N.count ∧
      dataSize s.blocks (s.pos start slot % N.count) = call.size

/-- What holds of a producer. -/
structure ThreadOk (N : BlockCount) (start : ℕ) (s : State) (t : ℕ) (th : Thread) : Prop where
  copy : ∀ c, th.cache = some c → c = (start + th.loaded) % 2 ^ 32
  hasCopy : th.pc.hasCopy → th.cache.isSome
  loaded_le : start + th.loaded ≤ s.pos start s.released
  pcOk : PcOk N start s t th.pc

/-- What a producer relies on: its own open reservation, the blocks granted to it and that the
published read cursor does not move back. -/
theorem ThreadOk.frame {s' : State} {t : ℕ} {th : Thread} (h : ThreadOk N start s t th)
    (hrel : s.pos start s.released ≤ s'.pos start s'.released)
    (hslot : ∀ k r, s.resv[k]? = some r → r.owner = t → r.phase.settled = false → 0 < r.blocks →
      s'.resv[k]? = some r ∧ s'.pos start k = s.pos start k ∧
      (r.phase = .granted →
        AgreeOn s'.blocks s.blocks (ringBlocks N.count (s.pos start k) r.blocks))) :
    ThreadOk N start s' t th := by
  have hopen : ∀ {call cursor slot ph}, SlotOk start s t call cursor slot ph → ph.settled = false →
      CallOk N call → SlotOk start s' t call cursor slot ph ∧
      s'.pos start slot = s.pos start slot ∧ (ph = .granted →
        AgreeOn s'.blocks s.blocks (ringBlocks N.count (s.pos start slot) call.need)) := by
    intro call cursor slot ph hs hph hcall
    obtain ⟨hr, hp, hag⟩ := hslot slot _ hs.resv rfl hph hcall.need_pos
    exact ⟨⟨hr, hp ▸ hs.cursor⟩, hp, hag⟩
  have hmem : ∀ {call : Call} {slot : ℕ}, CallOk N call → s.pos start slot % N.count ∈
      ringBlocks N.count (s.pos start slot) call.need :=
    fun hcall => mod_mem_ringBlocks _ hcall.need_pos
  have hpc := h.pcOk
  refine ⟨h.copy, h.hasCopy, h.loaded_le.trans hrel, ?_⟩
  cases hth : th.pc with
  | idle => trivial
  | loadWrite call => simpa [hth, PcOk] using hpc
  | loadRead call cur => simpa [hth, PcOk] using hpc
  | reload call cur => simpa [hth, PcOk] using hpc
  | reserve call => simpa [hth, PcOk] using hpc
  | recheck call cursor slot =>
    simp only [hth, PcOk] at hpc
    exact ⟨hpc.1, (hopen hpc.2 rfl hpc.1).1⟩
  | rollBack call cursor slot =>
    simp only [hth, PcOk] at hpc
    exact ⟨hpc.1, (hopen hpc.2 rfl hpc.1).1⟩
  | setHead call cursor slot =>
    simp only [hth, PcOk] at hpc
    exact ⟨hpc.1, (hopen hpc.2 rfl hpc.1).1⟩
  | markInvalid call cursor slot =>
    simp only [hth, PcOk] at hpc
    obtain ⟨hcall, hs, hnum⟩ := hpc
    obtain ⟨hs', hp, hag⟩ := hopen hs rfl hcall
    refine ⟨hcall, hs', ?_⟩
    rw [hp, (hag rfl).getBlockNum (hmem hcall)]
    exact hnum
  | setSize call cursor slot =>
    simp only [hth, PcOk] at hpc
    obtain ⟨hcall, hs, hnum, hfit⟩ := hpc
    obtain ⟨hs', hp, hag⟩ := hopen hs rfl hcall
    refine ⟨hcall, hs', ?_⟩
    rw [hp, (hag rfl).getBlockNum (hmem hcall)]
    exact ⟨hnum, hfit⟩
  | lowSpace call cursor slot =>
    simp only [hth, PcOk] at hpc
    obtain ⟨hcall, hs, hnum, hfit, hsize⟩ := hpc
    obtain ⟨hs', hp, hag⟩ := hopen hs rfl hcall
    refine ⟨hcall, hs', ?_⟩
    rw [hp, (hag rfl).getBlockNum (hmem hcall), (hag rfl).dataSize (hmem hcall)]
    exact ⟨hnum, hfit, hsize⟩
  | holding call cursor slot flag =>
    simp only [hth, PcOk] at hpc
    obtain ⟨hcall, hs, hnum, hfit, hsize⟩ := hpc
    obtain ⟨hs', hp, hag⟩ := hopen hs rfl hcall
    refine ⟨hcall, hs', ?_⟩
    rw [hp, (hag rfl).getBlockNum (hmem hcall), (hag rfl).dataSize (hmem hcall)]
    exact ⟨hnum, hfit, hsize⟩

/-! ## The consumer -/

/-- The consumer is resetting and releasing blocks. -/
def Consumer.isFlushing : Consumer → Bool
  | .flushing _ => true
  | .restart => true
  | .release => true
  | _ => false

def Consumer.isSkipping : Consumer → Bool
  | .skipping _ => true
  | _ => false

def Consumer.isHolding : Consumer → Bool
  | .holding _ => true
  | _ => false

/-- The reservations whose chunks the consumer has been handed or has skipped. -/
def State.passed (s : State) : ℕ := if s.consumer.isHolding then s.read + 1 else s.read

/-- What holds where the consumer stands. -/
def ConsumerOk (N : BlockCount) (start : ℕ) (s : State) : Consumer → Prop
  | .clearing n => ∃ r, s.resv[s.read]? = some r ∧ r.phase = .invalid ∧ n = r.blocks
  | .skipping n => ∃ r, s.resv[s.read]? = some r ∧ r.phase = .invalid ∧ n = r.blocks ∧
      statusByte s.blocks (s.pos start s.read % N.count) = 0
  | .holding handle => ∃ r, s.resv[s.read]? = some r ∧ r.phase.isCommitted ∧
      handle = ⟨dataAddr (s.pos start s.read % N.count), .success, r.size⟩
  | .flushing i => i < s.pos start s.read - s.pos start s.released ∧
      ∀ j < i, statusByte s.blocks ((s.pos start s.released + j) % N.count) = 0
  | .restart => s.pos start s.released < s.pos start s.read ∧
      ∀ j < s.pos start s.read - s.pos start s.released,
        statusByte s.blocks ((s.pos start s.released + j) % N.count) = 0
  | .release => s.pos start s.released < s.pos start s.read ∧
      ∀ j < s.pos start s.read - s.pos start s.released,
        statusByte s.blocks ((s.pos start s.released + j) % N.count) = 0
  | .traversing cursor => ∃ k, s.released ≤ k ∧ s.SettledBefore k ∧
      cursor = s.pos start k % 2 ^ 32 ∧ s.pos start k < s.pos start s.released + N.count
  | _ => True

/-- Why the consumer will not run into a chunk that it has passed, on a ring that is full: it is
flushing, or will flush when it returns some chunk, or has reset the first block itself. -/
def Tight (N : BlockCount) (start : ℕ) (s : State) : Prop :=
  s.consumer.isFlushing ∨
  (∃ k r, s.read ≤ k ∧ s.resv[k]? = some r ∧ r.phase.isCommitted ∧
    N.count >>> 2 ≤ s.pos start (k + 1) - s.pos start s.released) ∨
  ∃ r, s.resv[s.released]? = some r ∧ r.phase = .invalid

/-- The `k`-th reservation leaves at least one block of the ring, unless the ring is tight. -/
def Room (N : BlockCount) (start : ℕ) (s : State) (k : ℕ) : Prop :=
  s.pos start (k + 1) < s.pos start s.released + N.count ∨
  (s.pos start (k + 1) = s.pos start s.released + N.count ∧ s.filled ∧ Tight N start s)

/-- The consumer has not yet reset the chunk of a reservation. -/
def State.Kept (s : State) (k : ℕ) (r : Resv) : Prop :=
  (s.read ≤ k ∧ (s.consumer.isSkipping → k ≠ s.read)) ∨
  (k < s.read ∧ r.phase.isCommitted ∧ s.consumer.isFlushing = false)

/-- A position that no granted reservation covers. -/
def State.Uncovered (s : State) (start q : ℕ) : Prop :=
  ∀ k r, s.released ≤ k → s.resv[k]? = some r → r.phase ≠ .reserved →
    ¬ (s.pos start k ≤ q ∧ q < s.pos start (k + 1))

/-! ## The invariant -/

/-- The invariant of the ring and the consumer. -/
structure RingOk (N : BlockCount) (start : ℕ) (s : State) : Prop where
  released_le : s.released ≤ s.read
  settled : s.SettledBefore s.read
  blocks_pos : ∀ (k : ℕ) (r : Resv), s.resv[k]? = some r → 0 < r.blocks
  write : s.writeCursor = s.pos start s.resv.length % 2 ^ 32
  readCursor : s.readCursor = s.pos start s.released % 2 ^ 32
  cache : s.readCursorCache = s.pos start s.read % 2 ^ 32
  startCache : s.readCursorStartCache =
    s.pos start (if s.consumer = .release then s.read else s.released) % 2 ^ 32
  span : s.pos start s.resv.length < s.pos start s.released + 2 ^ 32
  room : ∀ k r, s.released ≤ k → s.resv[k]? = some r → r.phase ≠ .reserved → Room N start s k
  kept : ∀ k r, s.released ≤ k → s.resv[k]? = some r → s.Kept k r →
    ChunkOk N s.blocks (s.pos start k) r
  cleared : ∀ k r, s.released ≤ k → k < s.read → s.resv[k]? = some r → r.phase = .invalid →
    statusByte s.blocks (s.pos start k % N.count) = 0
  free : ∀ q, s.pos start s.released ≤ q → q < s.pos start s.released + N.count →
    s.Uncovered start q → statusByte s.blocks (q % N.count) = 0
  consumerOk : ConsumerOk N start s s.consumer
  delivered : s.delivered = (s.resv.take s.passed).filterMap Resv.delivery

/-- The invariant. -/
structure Inv (N : BlockCount) (start : ℕ) (s : State) : Prop extends RingOk N start s where
  threads : ∀ t, ThreadOk N start s t (s.threads t)

namespace RingOk

/-- Positions from the published read cursor to the end of the reservations are less than `2 ^ 32`
apart, so their cursors differ by their distance. -/
theorem sub32_pos (h : RingOk N start s) {k l : ℕ} (hk : s.released ≤ k) (hkl : k ≤ l)
    (hl : l ≤ s.resv.length) :
    sub32 (s.pos start l % 2 ^ 32) (s.pos start k % 2 ^ 32) = s.pos start l - s.pos start k := by
  have h₁ := s.pos_mono start hk
  have h₂ := s.pos_mono start hkl
  have h₃ := s.pos_mono start hl
  have h₄ := h.span
  exact sub32_mod h₂ (by omega)

theorem read_le (h : RingOk N start s) : s.read ≤ s.resv.length := h.settled.le_length

theorem pos_lt (h : RingOk N start s) {k l : ℕ} (hkl : k < l) (hl : l ≤ s.resv.length) :
    s.pos start k < s.pos start l := by
  have hlt : k < s.resv.length := by omega
  have hk : s.resv[k]? = some s.resv[k] := List.getElem?_eq_getElem hlt
  have hpos := h.blocks_pos k _ hk
  have hsucc := s.pos_succ start hk
  have hmono := s.pos_mono start (show k + 1 ≤ l by omega)
  omega

/-- A granted reservation ends at most a ring after the published read cursor. -/
theorem pos_succ_le (h : RingOk N start s) {k : ℕ} {r : Resv} (hk : s.released ≤ k)
    (hr : s.resv[k]? = some r) (hg : r.phase ≠ .reserved) :
    s.pos start (k + 1) ≤ s.pos start s.released + N.count := by
  rcases h.room k r hk hr hg with hlt | ⟨he, -⟩ <;> omega

/-- **Granted reservations share no block.** -/
theorem disjoint (h : RingOk N start s) {k l : ℕ} {r r' : Resv} (hne : k ≠ l)
    (hk : s.released ≤ k) (hr : s.resv[k]? = some r) (hg : r.phase ≠ .reserved)
    (hl : s.released ≤ l) (hr' : s.resv[l]? = some r') (hg' : r'.phase ≠ .reserved) :
    Disjoint (ringBlocks N.count (s.pos start k) r.blocks)
      (ringBlocks N.count (s.pos start l) r'.blocks) := by
  have hend := h.pos_succ_le hk hr hg
  have hend' := h.pos_succ_le hl hr' hg'
  rw [s.pos_succ start hr] at hend
  rw [s.pos_succ start hr'] at hend'
  have hmk := s.pos_mono start hk
  have hml := s.pos_mono start hl
  rcases Nat.lt_or_gt_of_ne hne with hlt | hlt
  · have hmono := s.pos_mono start (show k + 1 ≤ l by omega)
    rw [s.pos_succ start hr] at hmono
    exact disjoint_ringBlocks hmono (by omega)
  · have hmono := s.pos_mono start (show l + 1 ≤ k by omega)
    rw [s.pos_succ start hr'] at hmono
    exact (disjoint_ringBlocks hmono (by omega)).symm

/-- The consumer's cursor is at most a ring ahead of the published one. -/
theorem pos_read_le (h : RingOk N start s) :
    s.pos start s.read ≤ s.pos start s.released + N.count := by
  rcases Nat.lt_or_ge s.released s.read with hlt | hge
  · obtain ⟨r, hr, hs⟩ := h.settled (s.read - 1) (by omega)
    have := h.pos_succ_le (show s.released ≤ s.read - 1 by omega) hr
      (by rintro he; rw [he] at hs; cases hs)
    rwa [show s.read - 1 + 1 = s.read by omega] at this
  · have := s.pos_mono start hge
    omega

/-- The block of a position in front of a granted reservation is none of its blocks. -/
theorem mod_not_mem (h : RingOk N start s) {k q : ℕ} {r : Resv} (hk : s.released ≤ k)
    (hr : s.resv[k]? = some r) (hg : r.phase ≠ .reserved)
    (hq : s.pos start s.released ≤ q) (hq' : q < s.pos start s.released + N.count)
    (hout : ¬ (s.pos start k ≤ q ∧ q < s.pos start (k + 1))) :
    q % N.count ∉ ringBlocks N.count (s.pos start k) r.blocks := by
  have hend := h.pos_succ_le hk hr hg
  have hmk := s.pos_mono start hk
  rw [s.pos_succ start hr] at hend hout
  rintro ⟨i, hi, he⟩
  rcases lt_trichotomy q (s.pos start k + i) with hlt | heq | hlt
  · exact mod_ne_mod hlt (by omega) he
  · omega
  · exact mod_ne_mod hlt (by omega) he.symm

theorem startCache_of_ne (h : RingOk N start s) (hc : s.consumer ≠ .release) :
    s.readCursorStartCache = s.pos start s.released % 2 ^ 32 := by
  rw [h.startCache, if_neg hc]

/-- Blocks passed since the last release. -/
theorem unflushed_eq (h : RingOk N start s) (hc : s.consumer ≠ .release) :
    s.unflushed = s.pos start s.read - s.pos start s.released := by
  unfold State.unflushed
  rw [h.cache, h.startCache_of_ne hc]
  exact h.sub32_pos le_rfl h.released_le h.read_le

theorem settled_passed (h : RingOk N start s) : s.SettledBefore s.passed := by
  unfold State.passed
  split
  · rename_i hhold
    have hc := h.consumerOk
    cases hcon : s.consumer <;> simp only [hcon, Consumer.isHolding] at hhold <;> try cases hhold
    rw [hcon] at hc
    obtain ⟨r, hr, hcm, -⟩ := hc
    exact h.settled.succ hr (Phase.settled_of_isCommitted hcm)
  · exact h.settled

theorem readBlock_eq (h : RingOk N start s) : s.readBlock N = s.pos start s.read % N.count := by
  rw [State.readBlock, h.cache, N.index_mod]

end RingOk

/-! ## The initial state -/

theorem threadOk_fresh (N : BlockCount) {start t : ℕ} {s : State}
    (h : start ≤ s.pos start s.released) : ThreadOk N start s t Thread.fresh where
  copy c hc := by cases hc
  hasCopy hc := by cases hc
  loaded_le := h
  pcOk := trivial

theorem inv_init (N : BlockCount) (start : ℕ) (m : Mem) : Inv N start (State.init N start m) where
  released_le := le_rfl
  settled j hj := absurd hj (Nat.not_lt_zero j)
  blocks_pos k r hr := by simp [State.init] at hr
  write := by simp [State.init]
  readCursor := by simp [State.init]
  cache := by simp [State.init]
  startCache := by simp [State.init]
  span := by simp [State.init]
  room k r _ hr := by simp [State.init] at hr
  kept k r _ hr := by simp [State.init] at hr
  cleared k r _ hk := absurd hk (Nat.not_lt_zero k)
  free q _ _ _ := by
    show statusByte (clearStatus m N.count) _ = 0
    rw [statusByte_clearStatus, if_pos (Nat.mod_lt _ N.count_pos)]
  consumerOk := trivial
  delivered := by simp [State.init]
  threads t := threadOk_fresh N (by simp [State.init])

end QLog.Miso
