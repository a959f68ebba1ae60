import QLog.Buffer.LogBuffer.Lives

/-!
# What the stores hold

The records in the low-performance ring, in the blocks and in the oversize buffers, counted as multisets,
and the chunk that the caller of `read_chunk` holds while it is still in its store. `Owned` ties the open
chunks of the ring to the writers that have them.
-/

namespace QLog.LogBuffer

variable {cfg : Config} {s s' u : State} {t g b i : ℕ} {F : Finset ℕ}

/-! ## What the stores hold -/

/-- The record in a chunk of the low-performance ring. -/
def Slot.record : Slot → Multiset (List UInt8)
  | committed _ c data => if c.isThreadFinished || c.isExternalRef then 0 else {data}
  | _ => 0

/-- The records in the low-performance ring. -/
def ringData (l : List Slot) : Multiset (List UInt8) := (l.map Slot.record).sum

/-- The records in some blocks. -/
def blockData (block : ℕ → Block) (F : Finset ℕ) : Multiset (List UInt8) :=
  ∑ b ∈ F, ((block b).records : Multiset (List UInt8))

/-- The first chunk of the buffers of a name is passed over. -/
def returnFirst (index : ℕ) (l : List OversizeBuffer) : List OversizeBuffer :=
  l.map fun buf => if buf.index = index then { buf with chunks := buf.chunks.tail } else buf

namespace Lent

/-- The low-performance ring without the chunk in the hands of the caller of `read_chunk`. -/
def slots (lent : Lent) (lp : List Slot) : List Slot := lp.drop (if lent = .ring then 1 else 0)

/-- The oversize buffers without that chunk. -/
def buffers (l : List OversizeBuffer) : Lent → List OversizeBuffer
  | buffer index => returnFirst index l
  | _ => l

end Lent

/-- The records in the stores but for the chunk `lent`; of the blocks those in `F` are counted. -/
def State.leftOf (s : State) (lent : Lent) (F : Finset ℕ) : Multiset (List UInt8) :=
  ringData (lent.slots s.lp) + blockData s.block F + chunkData (lent.buffers s.oversize)

/-- The records in the stores that are still to be handed out. -/
def State.left (s : State) (F : Finset ℕ) : Multiset (List UInt8) := s.leftOf s.rt.pc.lent F

/-- The records that the reader was handed. -/
def State.handed (s : State) : Multiset (List UInt8) := s.delivered.map Delivery.payload

/-! ## Sums -/

theorem ringData_cons (sl : Slot) (l : List Slot) : ringData (sl :: l) = sl.record + ringData l := by
  simp [ringData]

theorem ringData_append (l l' : List Slot) : ringData (l ++ l') = ringData l + ringData l' := by
  simp [ringData]

theorem ringData_sublist {l l' : List Slot} (h : l.Sublist l') : ringData l ≤ ringData l' := by
  induction h with
  | slnil => exact le_refl _
  | cons sl _ ih =>
    rw [ringData_cons]
    exact ih.trans (Multiset.le_add_left _ _)
  | cons_cons sl _ ih =>
    rw [ringData_cons, ringData_cons]
    exact add_le_add_right ih _

/-- Chunks that hold no record before and after are changed. -/
theorem ringData_map {f : Slot → Slot} {l : List Slot} (h : ∀ sl ∈ l, (f sl).record = sl.record) :
    ringData (l.map f) = ringData l := by
  rw [ringData, ringData, List.map_map]
  exact congrArg List.sum (List.map_congr_left h)

theorem chunkData_returnFirst_le (index : ℕ) (l : List OversizeBuffer) :
    chunkData (returnFirst index l) ≤ chunkData l := by
  induction l with
  | nil => exact le_refl _
  | cons buf l ih =>
    rw [returnFirst, List.map_cons, chunkData_cons, chunkData_cons]
    refine add_le_add ?_ ih
    split
    · exact Multiset.map_le_map (Multiset.coe_le.mpr (List.tail_sublist _).subperm)
    · exact le_refl _

/-- A chunk handed out is not among those left. -/
theorem chunkData_handOut {l : List OversizeBuffer} {buf : OversizeBuffer} {c : OversizeChunk}
    {rest : List OversizeChunk} (hl : l[i]? = some buf) (hc : buf.chunks = c :: rest) :
    chunkData (returnFirst buf.index l) + {c.data} ≤ chunkData l := by
  induction l generalizing i with
  | nil => simp at hl
  | cons x l ih =>
    rw [returnFirst, List.map_cons, chunkData_cons, chunkData_cons, ← returnFirst]
    cases i with
    | zero =>
      obtain rfl : x = buf := by simpa using hl
      rw [if_pos rfl, add_right_comm]
      refine add_le_add ?_ (chunkData_returnFirst_le _ _)
      rw [hc, List.tail_cons, List.map_cons, ← Multiset.cons_coe, ← Multiset.singleton_add, add_comm]
    | succ i =>
      rw [add_assoc]
      refine add_le_add ?_ (ih (by simpa using hl))
      split
      · exact Multiset.map_le_map (Multiset.coe_le.mpr (List.tail_sublist _).subperm)
      · exact le_refl _

/-- The names and the chunks of some oversize buffers. -/
def bufferView (l : List OversizeBuffer) : List (ℕ × List OversizeChunk) :=
  l.map fun buf => (buf.index, buf.chunks)

theorem bufferView_buffers (lent : Lent) (l : List OversizeBuffer) :
    bufferView (lent.buffers l) = (bufferView l).map fun p =>
      if lent = .buffer p.1 then (p.1, p.2.tail) else p := by
  rw [bufferView, bufferView, List.map_map]
  cases lent with
  | none | ring => simp [Lent.buffers]
  | buffer index =>
    rw [Lent.buffers, returnFirst, List.map_map]
    refine List.map_congr_left fun buf _ => ?_
    by_cases h : buf.index = index
    · simp [h]
    · simp [h, Ne.symm h]

/-- The records in the chunks of some oversize buffers depend on their chunks only. -/
theorem chunkData_view {l l' : List OversizeBuffer} (lent : Lent) (h : bufferView l = bufferView l') :
    chunkData (lent.buffers l) = chunkData (lent.buffers l') := by
  have hdata : ∀ l, chunkData l = ((bufferView l).map fun p =>
      (p.2.map OversizeChunk.data : Multiset (List UInt8))).sum := fun l => by
    rw [chunkData, bufferView, List.map_map]
    rfl
  rw [hdata, hdata, bufferView_buffers, bufferView_buffers, h]

theorem Lent.buffers_append (lent : Lent) (l l' : List OversizeBuffer) :
    lent.buffers (l ++ l') = lent.buffers l ++ lent.buffers l' := by
  cases lent with
  | none | ring => rfl
  | buffer => simp [buffers, returnFirst]

/-- A chunk is put behind those of the buffers of a name. -/
def pushChunk (index : ℕ) (c : OversizeChunk) (l : List OversizeBuffer) : List OversizeBuffer :=
  l.map fun buf => if buf.index = index then { buf with chunks := buf.chunks ++ [c] } else buf

theorem pushChunk_of_not_mem {index : ℕ} {c : OversizeChunk} {l : List OversizeBuffer}
    (h : index ∉ l.map OversizeBuffer.index) : pushChunk index c l = l := by
  rw [pushChunk]
  conv_rhs => rw [← List.map_id l]
  refine List.map_congr_left fun buf hbuf => if_neg fun he => h ?_
  rw [← he]
  exact List.mem_map_of_mem hbuf

theorem tail_append_le (l : List OversizeChunk) (c : OversizeChunk) :
    (((l ++ [c]).tail.map OversizeChunk.data : List (List UInt8)) : Multiset (List UInt8)) ≤
      (l.tail.map OversizeChunk.data : Multiset (List UInt8)) + {c.data} := by
  cases l with
  | nil => exact Multiset.zero_le _
  | cons x l => simp [← Multiset.coe_add]

theorem chunkData_pushChunk_le {index : ℕ} {c : OversizeChunk} {l : List OversizeBuffer} (lent : Lent)
    (h : (l.map OversizeBuffer.index).Nodup) :
    chunkData (lent.buffers (pushChunk index c l)) ≤ chunkData (lent.buffers l) + {c.data} := by
  induction l with
  | nil =>
    cases lent <;> exact Multiset.zero_le _
  | cons buf l ih =>
    obtain ⟨hout, hnd⟩ := List.nodup_cons.mp h
    rw [pushChunk, List.map_cons, ← List.singleton_append, ← List.singleton_append (l := l),
      lent.buffers_append, lent.buffers_append, chunkData_append, chunkData_append]
    rw [← pushChunk]
    by_cases he : buf.index = index
    · rw [if_pos he, pushChunk_of_not_mem (he ▸ hout), add_right_comm]
      refine add_le_add_left ?_ _
      cases lent with
      | none | ring => simp [Lent.buffers, chunkData, ← Multiset.coe_add]
      | buffer i =>
        by_cases hi : buf.index = i
        · simpa [Lent.buffers, returnFirst, chunkData, hi] using tail_append_le buf.chunks c
        · simp [Lent.buffers, returnFirst, chunkData, hi, ← Multiset.coe_add]
    · rw [if_neg he, add_assoc]
      exact add_le_add_right (ih hnd) _

/-! ## Open chunks -/

/-- The writer that has a chunk open. -/
def Slot.owner : Slot → Option ℕ
  | reserved t | granted t _ _ => some t
  | _ => none

/-- An open chunk is what its writer takes it for. -/
def Slot.Suits (o : OpenSlot) : Slot → Prop
  | reserved _ => o = .reserved
  | granted _ size c => o = .granted size c.isThreadFinished c.isExternalRef
  | _ => True

/-- A writer has at most one chunk open, and it knows which. -/
structure Owned (s : State) : Prop where
  once : ∀ t, s.lp.countP (fun sl => sl.owner = some t) ≤ 1
  suits : ∀ sl ∈ s.lp, ∀ t, sl.owner = some t → sl.Suits (s.tls t).pc.openSlot

theorem Owned.sublist (h : Owned s) (hl : s'.lp.Sublist s.lp)
    (hpc : ∀ t, (s'.tls t).pc.openSlot = (s.tls t).pc.openSlot) : Owned s' where
  once t := (hl.countP_le).trans (h.once t)
  suits sl hsl t ht := by
    rw [hpc]
    exact h.suits sl (hl.subset hsl) t ht

/-- The open chunk of writer `t` is changed or settled. -/
theorem Owned.map {f : Slot → Slot} (h : Owned s) (hl : s'.lp = s.lp.map f)
    (hpc : ∀ t', t' ≠ t → (s'.tls t').pc = (s.tls t').pc)
    (hother : ∀ sl, sl.owner ≠ some t → f sl = sl)
    (hself : ∀ sl, sl.owner = some t → sl.Suits (s.tls t).pc.openSlot → (f sl).owner = none ∨
      (f sl).owner = some t ∧ (f sl).Suits (s'.tls t).pc.openSlot) : Owned s' where
  once t' := by
    rw [hl, List.countP_map]
    refine (List.countP_mono_left fun sl hsl hp => ?_).trans (h.once t')
    have hp : (f sl).owner = some t' := by simpa using hp
    by_cases ho : sl.owner = some t
    · rcases hself sl ho (h.suits sl hsl t ho) with hn | ⟨hs, -⟩
      · rw [hn] at hp
        cases hp
      · rw [hs] at hp
        simpa [ho] using hp
    · rw [hother sl ho] at hp
      simpa using hp
  suits sl hsl t' ht' := by
    rw [hl] at hsl
    obtain ⟨x, hx, rfl⟩ := List.mem_map.mp hsl
    by_cases ho : x.owner = some t
    · rcases hself x ho (h.suits x hx t ho) with hn | ⟨hs, hsuits⟩
      · rw [hn] at ht'
        cases ht'
      · obtain rfl : t = t' := Option.some.inj (hs.symm.trans ht')
        exact hsuits
    · rw [hother x ho] at ht' ⊢
      have hne : t' ≠ t := by
        rintro rfl
        exact ho ht'
      rw [hpc t' hne]
      exact h.suits x hx t' ht'

/-- A writer that believes to have no open chunk has none. -/
theorem Owned.count_eq_zero (h : Owned s) (ho : (s.tls t).pc.openSlot = .none) :
    s.lp.countP (fun sl => sl.owner = some t) = 0 := by
  rw [List.countP_eq_zero]
  intro sl hsl hp
  have hsuits := h.suits sl hsl t (by simpa using hp)
  rw [ho] at hsuits
  cases sl with
  | reserved | granted => cases hsuits
  | void | committed => simp [Slot.owner] at hp

theorem grant_owner {size : ℕ} {c : Context} {sl : Slot} (h : sl.owner ≠ some t) :
    sl.grant t size c = sl := by
  cases sl with
  | reserved owner => exact if_neg fun he => h (congrArg some he)
  | granted | void | committed => rfl

theorem leave_owner {sl : Slot} (h : sl.owner ≠ some t) : sl.leave t = sl := by
  cases sl with
  | reserved owner => exact if_neg fun he => h (congrArg some he)
  | granted | void | committed => rfl

theorem commit_owner {data : List UInt8} {sl : Slot} (h : sl.owner ≠ some t) : sl.commit t data = sl := by
  cases sl with
  | granted owner => exact if_neg fun he => h (congrArg some he)
  | reserved | void | committed => rfl

theorem abort_owner {v : Version} {sl : Slot} (h : sl.owner ≠ some t) : sl.abort t v = sl := by
  cases sl with
  | granted owner => exact if_neg fun he => h (congrArg some he)
  | reserved | void | committed => rfl

theorem Owned.writer {e : Effect} (h : Owned s) (ha : Acts s s' t e) (hw : WriterFrame s s' t) :
    Owned s' := by
  have hother : ∀ t', t' ≠ t → (s'.tls t').pc = (s.tls t').pc := fun t' ht => by rw [hw.tls t' ht]
  have hsame : s'.lp = s.lp → (s'.tls t).pc.openSlot = (s.tls t).pc.openSlot → Owned s' := by
    intro hlp hpc
    refine h.sublist (hlp ▸ List.Sublist.refl _) fun t' => ?_
    rcases eq_or_ne t' t with rfl | ht
    · exact hpc
    · rw [hother t' ht]
  have hlp := ha.lp
  have hleads := ha.leads
  cases e with
  | move => exact hsame hlp hleads.2.1
  | drop => exact hsame hlp hleads.2.2
  | take => exact hsame hlp (hleads.2.2.2.1.trans hleads.2.1.symm)
  | init => exact hsame hlp (hleads.2.2.2.1.trans hleads.2.1.symm)
  | stage => exact hsame hlp (hleads.2.2.2.1.trans hleads.2.1.symm)
  | commitHp =>
    obtain ⟨hpc, -, hpc'⟩ := hleads
    exact hsame hlp (by rw [hpc, hpc']; rfl)
  | finish =>
    obtain ⟨hpc, -, hpc'⟩ := hleads
    exact hsame hlp (by rw [hpc, hpc']; rfl)
  | reserve =>
    obtain ⟨use, hpc, hpc'⟩ := hleads
    have hzero := h.count_eq_zero (t := t) (by rw [hpc]; rfl)
    change s'.lp = s.lp ++ [.reserved t] at hlp
    refine ⟨fun t' => ?_, fun sl hsl t' ht' => ?_⟩
    · rw [hlp, List.countP_append]
      rcases eq_or_ne t' t with rfl | ht
      · rw [hzero]
        simp [Slot.owner]
      · simpa [Slot.owner, Ne.symm ht] using h.once t'
    · rw [hlp] at hsl
      rcases List.mem_append.mp hsl with hin | hsl
      · rcases eq_or_ne t' t with rfl | ht
        · exact absurd (by simpa using ht') (List.countP_eq_zero.mp hzero sl hin)
        · rw [hother t' ht]
          exact h.suits sl hin t' ht'
      · obtain rfl := List.mem_singleton.mp hsl
        obtain rfl : t = t' := Option.some.inj ht'
        rw [hpc']
        rfl
  | unreserve =>
    obtain ⟨hlast, use, hpc, hpc'⟩ := hleads
    change s'.lp = s.lp.dropLast at hlp
    have hsplit : s.lp.dropLast ++ [.reserved t] = s.lp := List.dropLast_append_getLast? _ hlast
    have hone := h.once t
    rw [← hsplit, List.countP_append] at hone
    have hzero : s.lp.dropLast.countP (fun sl => sl.owner = some t) = 0 := by
      have hself : [Slot.reserved t].countP (fun sl => sl.owner = some t) = 1 := by simp [Slot.owner]
      omega
    refine ⟨fun t' => ?_, fun sl hsl t' ht' => ?_⟩
    · rw [hlp]
      exact ((List.dropLast_sublist _).countP_le).trans (h.once t')
    · rw [hlp] at hsl
      rcases eq_or_ne t' t with rfl | ht
      · exact absurd (by simpa using ht') (List.countP_eq_zero.mp hzero sl hsl)
      · rw [hother t' ht]
        exact h.suits sl ((List.dropLast_sublist _).subset hsl) t' ht'
  | leave =>
    obtain ⟨use, hpc, hpc'⟩ := hleads
    refine h.map hlp hother (fun sl => leave_owner) fun sl ho hs => .inl ?_
    rw [hpc] at hs
    cases sl with
    | reserved owner =>
      obtain rfl : owner = t := Option.some.inj ho
      simp [Slot.leave, Slot.owner]
    | granted => cases hs
    | void | committed => cases ho
  | grant use =>
    obtain ⟨hpc, hpc'⟩ := hleads
    refine h.map hlp hother (fun sl => grant_owner) fun sl ho hs => .inr ?_
    rw [hpc] at hs
    cases sl with
    | reserved owner =>
      obtain rfl : owner = t := Option.some.inj ho
      rw [Slot.grant, if_pos rfl, hpc']
      refine ⟨rfl, ?_⟩
      cases use <;> rfl
    | granted => cases hs
    | void | committed => cases ho
  | commitSlot data log =>
    refine h.map hlp hother (fun sl => commit_owner) fun sl ho hs => .inl ?_
    have hopen : (s.tls t).pc.openSlot ≠ .reserved := by
      rcases hleads with ⟨-, hpc, -⟩ | ⟨-, -, payload, hpc, -⟩ | ⟨-, -, hpc, -⟩ <;> rw [hpc] <;>
        simp [WriterPc.openSlot]
    cases sl with
    | granted owner =>
      obtain rfl : owner = t := Option.some.inj ho
      simp [Slot.commit, Slot.owner]
    | reserved => exact absurd hs hopen
    | void | committed => cases ho
  | abort =>
    obtain ⟨hpc, hpc'⟩ := hleads
    refine h.map hlp hother (fun sl => abort_owner) fun sl ho hs => .inl ?_
    rw [hpc] at hs
    cases sl with
    | granted owner =>
      obtain rfl : owner = t := Option.some.inj ho
      simp [Slot.abort, Slot.owner]
    | reserved => cases hs
    | void | committed => cases ho

end QLog.LogBuffer
