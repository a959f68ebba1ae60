import QLog.Io.FileHandles

/-!
# The counts of file handles

The invariant `Consistent`: a live handle is cleared or refers to an open descriptor, and an open
descriptor counts its handles. The references of a descriptor change in three ways, and each has its lemma:
a handle is copied (`Consistent.increased`), given back (`closeObject_spec`), or goes from one object to
another one (`Consistent.of_objects`).
-/

namespace QLog.Io

/-! ## The invariant -/

/-- A handle that holds a reference. -/
structure Holds (s : State) (h : FileHandle) : Prop where
  seq_ne : h.seq ≠ 0
  descriptor : ∃ d p, s.fileDescriptors[h.idx.toNat]? = some d ∧ d.seq = h.seq ∧ d.handlePtr = some p ∧
    h.handlePtr = some p

/-- A descriptor with an open file and the right count. -/
structure Counts (s : State) (i : ℕ) (d : FileDescriptor) : Prop where
  cell : ∃ p f, d.handlePtr = some p ∧ s.heap p = some f ∧ isPlatformHandleValid f = true
  seq_ne : d.seq ≠ 0
  count_eq : d.refCout.toInt = (s.live i d.seq : ℤ)
  live_pos : 0 < s.live i d.seq

/-- The invariant: handles and descriptors are cleared or belong together. -/
structure Consistent (s : State) : Prop where
  length_le : s.fileDescriptors.length ≤ 2 ^ 31
  handle : ∀ o h, s.object o = some h → h = .cleared ∨ Holds s h
  descriptor : ∀ i d, s.fileDescriptors[i]? = some d → d = .cleared ∨ Counts s i d
  cell_inj : ∀ (i j : ℕ) (d e : FileDescriptor) (p : ℕ),
    s.fileDescriptors[i]? = some d → s.fileDescriptors[j]? = some e →
    d.handlePtr = some p → e.handlePtr = some p → i = j

section Invariant

variable {s t : State} {o i : ℕ} {h : FileHandle} {d : FileDescriptor}

theorem Consistent.lt_of_getElem? (hs : Consistent s) (hd : s.fileDescriptors[i]? = some d) : i < 2 ^ 31 :=
  (List.getElem?_eq_some_iff.1 hd).1.trans_le hs.length_le

theorem refers_cleared (hi : i < 2 ^ 31) (q : UInt32) : FileHandle.cleared.refers i q = false := by
  have hne : FileHandle.cleared.idx.toNat ≠ i := by
    change 4294967295 ≠ i
    omega
  rw [FileHandle.refers, beq_eq_false_iff_ne.2 hne, Bool.false_and]

theorem Holds.idx_ne (hh : Holds s h) (hs : Consistent s) : h.idx ≠ invalidIdx := by
  intro hidx
  obtain ⟨d, p, hd, -⟩ := hh.descriptor
  have := hs.lt_of_getElem? hd
  rw [hidx] at this
  exact absurd this (by decide)

theorem Consistent.new : Consistent State.new where
  length_le := Nat.zero_le _
  handle o h ho := by simp [State.object, State.new] at ho
  descriptor i d hd := by simp [State.new] at hd
  cell_inj i j d e p hd := by simp [State.new] at hd

/-! ## Objects -/

theorem object_construct (s : State) (h : FileHandle) (o : ℕ) :
    (s.construct h).object o = if o = s.objects.length then some h else s.object o := by
  unfold State.object State.construct
  split
  · rename_i ho
    rw [ho, List.getElem?_concat_length]
    rfl
  · rename_i ho
    rw [List.getElem?_append]
    split
    · rfl
    · rename_i hlt
      rw [List.getElem?_eq_none (by simp; omega), List.getElem?_eq_none (by omega)]

theorem object_assign (ho : o < s.objects.length) (x : Option FileHandle) (o' : ℕ) :
    (s.assign o x).object o' = if o' = o then x else s.object o' := by
  unfold State.object State.assign
  rw [List.getElem?_set]
  by_cases h : o = o'
  · rw [if_pos h, if_pos ho, if_pos h.symm]
    rfl
  · rw [if_neg h, if_neg (Ne.symm h)]

theorem lt_of_object (ho : s.object o = some h) : o < s.objects.length := by
  by_contra hge
  rw [State.object, List.getElem?_eq_none (not_lt.1 hge)] at ho
  cases ho

theorem getElem_of_object (ho : s.object o = some h) :
    s.objects.get ⟨o, lt_of_object ho⟩ = some h := by
  rw [State.object, List.getElem?_eq_getElem (lt_of_object ho)] at ho
  exact ho

theorem live_construct (s : State) (h : FileHandle) (i : ℕ) (q : UInt32) :
    (s.construct h).live i q = s.live i q + if h.refers i q then 1 else 0 := by
  rw [State.live, State.construct, List.countP_append, List.countP_singleton]
  rfl

theorem live_assign (ho : s.object o = some h) (x : Option FileHandle) (i : ℕ) (q : UInt32) :
    (s.assign o x).live i q + (if h.refers i q then 1 else 0) =
      s.live i q + if x.any (·.refers i q) then 1 else 0 := by
  have hpos : (if h.refers i q then 1 else 0) ≤ s.live i q := by
    split
    · rename_i hr
      refine List.countP_pos_iff.2 ⟨some h, ?_, hr⟩
      exact getElem_of_object ho ▸ List.getElem_mem (lt_of_object ho)
    · exact Nat.zero_le _
  have hset : (s.assign o x).live i q = s.live i q - (if h.refers i q then 1 else 0) +
      if x.any (·.refers i q) then 1 else 0 := by
    have hlt := lt_of_object ho
    have hget : s.objects[o] = some h := getElem_of_object ho
    rw [State.live, State.assign, List.countP_set hlt, hget]
    rfl
  omega

theorem setDescriptor_getElem? (hi : i < s.fileDescriptors.length) (d : FileDescriptor) (j : ℕ) :
    (s.setDescriptor i d).fileDescriptors[j]? = if j = i then some d else s.fileDescriptors[j]? := by
  rw [State.setDescriptor, List.getElem?_set]
  by_cases h : i = j
  · rw [if_pos h, if_pos hi, if_pos h.symm]
  · rw [if_neg h, if_neg (Ne.symm h)]

/-! ## Functions on handles -/

theorem isTrue_cleared (heap : ℕ → Option Int32) : FileHandle.cleared.isTrue heap = some false :=
  if_neg fun h => absurd rfl h.1

theorem descriptorIndex_cleared (hs : Consistent s) : descriptorIndex s .cleared = none := by
  have hidx : s.fileDescriptors[FileHandle.cleared.idx.toNat]? = none := by
    refine List.getElem?_eq_none (hs.length_le.trans ?_)
    decide
  rw [descriptorIndex, hidx]

/-- A cleared handle adds no reference. -/
theorem incRef_cleared (hs : Consistent s) : incRef s .cleared = s := by
  rw [incRef, descriptorIndex_cleared hs]

/-- What a handle that holds a reference finds. -/
theorem Holds.spec (hs : Consistent s) (hh : Holds s h) :
    ∃ d p f, s.fileDescriptors[h.idx.toNat]? = some d ∧ Counts s h.idx.toNat d ∧ d.seq = h.seq ∧
      d.handlePtr = some p ∧ s.heap p = some f ∧ h.isTrue s.heap = some true ∧
      descriptorIndex s h = some h.idx.toNat := by
  obtain ⟨d, p, hd, hseq, hp, hp'⟩ := hh.descriptor
  rcases hs.descriptor _ d hd with rfl | hc
  · cases hp
  obtain ⟨p₁, f, hp₁, hf, hvalid⟩ := hc.cell
  obtain rfl := Option.some.inj (hp.symm.trans hp₁)
  have hpos : 0 < h.seq := by
    rw [UInt32.lt_iff_toNat_lt]
    exact Nat.pos_of_ne_zero fun h0 => hh.seq_ne (UInt32.toNat_inj.1 h0)
  refine ⟨d, p, f, hd, hc, hseq, hp, hf, ?_, ?_⟩
  · rw [FileHandle.isTrue, if_pos ⟨hh.idx_ne hs, hpos⟩, hp', Option.bind_some, hf, Option.map_some, hvalid]
  · simp only [descriptorIndex, hd]
    rw [if_neg (not_not.2 hseq.symm), if_pos (hs.lt_of_getElem? hd)]

/-- **Handles that go from object to object** leave the counts as they are. -/
theorem Consistent.of_objects (hs : Consistent s) (hds : t.fileDescriptors = s.fileDescriptors)
    (hheap : t.heap = s.heap) (hobj : ∀ o h, t.object o = some h → h = .cleared ∨ ∃ o', s.object o' = some h)
    (hlive : ∀ i q, i < 2 ^ 31 → t.live i q = s.live i q) : Consistent t where
  length_le := hds ▸ hs.length_le
  handle o h ho := by
    rcases hobj o h ho with hclear | ⟨o', ho'⟩
    · exact .inl hclear
    · exact (hs.handle o' h ho').imp_right fun hh => ⟨hh.seq_ne, hds ▸ hh.descriptor⟩
  descriptor i d hd := by
    rw [hds] at hd
    refine (hs.descriptor i d hd).imp_right fun hc => ?_
    have hl := hlive i d.seq (hs.lt_of_getElem? hd)
    exact ⟨hheap ▸ hc.cell, hc.seq_ne, hl ▸ hc.count_eq, hl ▸ hc.live_pos⟩
  cell_inj := hds ▸ hs.cell_inj

theorem live_pos_of_object (ho : s.object o = some h) {q : UInt32} (hr : h.refers i q = true) :
    0 < s.live i q :=
  List.countP_pos_iff.2 ⟨some h, getElem_of_object ho ▸ List.getElem_mem (lt_of_object ho), hr⟩

theorem refers_iff {q : UInt32} : h.refers i q = true ↔ h.idx.toNat = i ∧ h.seq = q := by
  rw [FileHandle.refers, Bool.and_eq_true, beq_iff_eq, beq_iff_eq]

/-- **One descriptor changes**: the others keep their cells and their handles. -/
theorem Consistent.replace (hs : Consistent s) (hlen : t.fileDescriptors.length ≤ 2 ^ 31)
    (hget : ∀ j, t.fileDescriptors[j]? = if j = i then some d else s.fileDescriptors[j]?)
    (hd : d = .cleared ∨ Counts t i d)
    (hcell : ∀ j e p, j ≠ i → s.fileDescriptors[j]? = some e → e.handlePtr = some p →
      d.handlePtr ≠ some p ∧ t.heap p = s.heap p)
    (hobj : ∀ o g, t.object o = some g →
      g = .cleared ∨ Holds t g ∨ ∃ o', s.object o' = some g ∧ g.idx.toNat ≠ i)
    (hlive : ∀ j q, j ≠ i → j < 2 ^ 31 → t.live j q = s.live j q) : Consistent t where
  length_le := hlen
  handle o g ho := by
    rcases hobj o g ho with hclear | hg | ⟨o', ho', hne⟩
    · exact .inl hclear
    · exact .inr hg
    · refine (hs.handle o' g ho').imp_right fun hg => ⟨hg.seq_ne, ?_⟩
      obtain ⟨e, p, he, hrest⟩ := hg.descriptor
      exact ⟨e, p, (hget _).trans ((if_neg hne).trans he), hrest⟩
  descriptor j e he := by
    rw [hget] at he
    split at he
    · rename_i hj
      obtain rfl := Option.some.inj he
      exact hj ▸ hd
    · rename_i hj
      refine (hs.descriptor j e he).imp_right fun hc => ?_
      have hl := hlive j e.seq hj (hs.lt_of_getElem? he)
      obtain ⟨p, f, hp, hf, hvalid⟩ := hc.cell
      exact ⟨⟨p, f, hp, (hcell j e p hj he hp).2.trans hf, hvalid⟩, hc.seq_ne, hl ▸ hc.count_eq,
        hl ▸ hc.live_pos⟩
  cell_inj j k d₁ d₂ p h₁ h₂ hp₁ hp₂ := by
    rw [hget] at h₁ h₂
    split at h₁ <;> split at h₂
    · omega
    · rename_i hj hk
      obtain rfl := Option.some.inj h₁
      exact absurd hp₁ (hcell k d₂ p hk h₂ hp₂).1
    · rename_i hj hk
      obtain rfl := Option.some.inj h₂
      exact absurd hp₂ (hcell j d₁ p hj h₁ hp₁).1
    · exact hs.cell_inj j k d₁ d₂ p h₁ h₂ hp₁ hp₂

/-- A descriptor that keeps its sequence number and its cell keeps its handles. -/
theorem Holds.replace (hh : Holds s h)
    (hget : ∀ j, t.fileDescriptors[j]? = if j = i then some d else s.fileDescriptors[j]?)
    {d' : FileDescriptor} (hd' : s.fileDescriptors[i]? = some d') (hseq : d.seq = d'.seq)
    (hptr : d.handlePtr = d'.handlePtr) : Holds t h := by
  obtain ⟨e, p, he, hrest⟩ := hh.descriptor
  refine ⟨hh.seq_ne, ?_⟩
  rw [hget]
  split
  · rename_i hj
    rw [hj] at he
    obtain rfl := Option.some.inj (hd'.symm.trans he)
    exact ⟨d, p, rfl, hseq.trans hrest.1, hptr.trans hrest.2.1, hrest.2.2⟩
  · exact ⟨e, p, he, hrest⟩

/-- The other descriptors do not share the cell of this one. -/
theorem Consistent.cell_ne (hs : Consistent s) {j : ℕ} {e : FileDescriptor} {p : ℕ} (hj : j ≠ i)
    (hd : s.fileDescriptors[i]? = some d) (he : s.fileDescriptors[j]? = some e)
    (hp : e.handlePtr = some p) : d.handlePtr ≠ some p :=
  fun hp' => hj (hs.cell_inj j i e d p he hd hp hp')

/-- **A copied handle.** The count of its descriptor follows unless it is at its maximum. -/
theorem Consistent.increased (hs : Consistent s) (hh : Holds s h)
    (hds : t.fileDescriptors = (incRef s h).fileDescriptors) (hheap : t.heap = s.heap)
    (hmax : ∀ d, s.fileDescriptors[h.idx.toNat]? = some d → d.refCout.toInt < 2 ^ 31 - 1)
    (hobj : ∀ o g, t.object o = some g → g = .cleared ∨ ∃ o', s.object o' = some g)
    (hlive : ∀ i q, i < 2 ^ 31 → t.live i q = s.live i q + if h.refers i q then 1 else 0) :
    Consistent t := by
  obtain ⟨d, p, f, hd, hc, hseq, hp, hf, -, hidx⟩ := hh.spec hs
  have hlt : h.idx.toNat < s.fileDescriptors.length := (List.getElem?_eq_some_iff.1 hd).1
  have hinc : (incRef s h).fileDescriptors =
      (s.setDescriptor h.idx.toNat { d with refCout := d.refCout + 1 }).fileDescriptors := by
    rw [incRef, hidx]
    simp only [hd]
  have hget := setDescriptor_getElem? hlt { d with refCout := d.refCout + 1 }
  rw [← hinc, ← hds] at hget
  have hcount : (d.refCout + 1).toInt = d.refCout.toInt + 1 := by
    have hb := hmax d hd
    have hnn : 0 ≤ d.refCout.toInt := hc.count_eq ▸ Int.natCast_nonneg _
    rw [Int32.toInt_add]
    change Int.bmod (d.refCout.toInt + 1) (2 ^ 32) = _
    rw [Int.bmod_eq_of_le (by omega) (by omega)]
  have hl : t.live h.idx.toNat d.seq = s.live h.idx.toNat d.seq + 1 := by
    rw [hlive _ _ (hs.lt_of_getElem? hd), if_pos (refers_iff.2 ⟨rfl, hseq.symm⟩)]
  refine hs.replace ?_ hget (.inr ⟨hheap ▸ hc.cell, hc.seq_ne, ?_, hl ▸ Nat.succ_pos _⟩)
    (fun j e p' hj he hp' =>
      ⟨show d.handlePtr ≠ some p' from hs.cell_ne hj hd he hp', by rw [hheap]⟩)
    (fun o g ho => ?_) fun j q hj hj' => ?_
  · rw [hds, hinc]
    exact (List.length_set ..).trans_le hs.length_le
  · rw [hcount, hc.count_eq, hl]
    rfl
  · rcases hobj o g ho with hclear | ⟨o', ho'⟩
    · exact .inl hclear
    · exact (hs.handle o' g ho').imp_right fun hg => .inl (hg.replace hget hd rfl rfl)
  · rw [hlive j q hj', if_neg fun hr => hj (refers_iff.1 hr).1.symm, Nat.add_zero]

/-- **A reference that is given back.** At the last one the file is closed. -/
theorem Consistent.decreased (hs : Consistent s) (hh : Holds s h)
    (hd : s.fileDescriptors[h.idx.toNat]? = some d) :
    ∃ u, decRef s h.idx.toNat d = some u ∧ u.objects = s.objects ∧
      ∀ t : State, t.fileDescriptors = u.fileDescriptors → t.heap = u.heap →
        (∀ o g, t.object o = some g → g = .cleared ∨ ∃ o', s.object o' = some g) →
        (∀ i q, i < 2 ^ 31 → t.live i q + (if h.refers i q then 1 else 0) = s.live i q) → Consistent t := by
  obtain ⟨d', p, f, hd', hc, hseq, hp, hf, -, -⟩ := hh.spec hs
  obtain rfl := Option.some.inj (hd.symm.trans hd')
  have hlt : h.idx.toNat < s.fileDescriptors.length := (List.getElem?_eq_some_iff.1 hd).1
  have hpos := hc.live_pos
  have hcount : (d.refCout - 1).toInt = (s.live h.idx.toNat d.seq : ℤ) - 1 := by
    have hle := Int32.toInt_lt d.refCout
    rw [Int32.toInt_sub, hc.count_eq] at *
    change Int.bmod ((s.live h.idx.toNat d.seq : ℤ) - 1) (2 ^ 32) = _
    rw [Int.bmod_eq_of_le (by omega) (by omega)]
  have hnn : ¬d.refCout - 1 < 0 := by
    rw [Int32.lt_iff_toInt_lt, hcount]
    change ¬_ < (0 : ℤ)
    omega
  have hlast : d.refCout - 1 = 0 ↔ s.live h.idx.toNat d.seq = 1 := by
    rw [← Int32.toInt_inj, hcount]
    change _ = (0 : ℤ) ↔ _
    omega
  -- what holds of the handles of this descriptor behind the step
  have hlive_of : ∀ t : State,
      (∀ i q, i < 2 ^ 31 → t.live i q + (if h.refers i q then 1 else 0) = s.live i q) →
      t.live h.idx.toNat d.seq + 1 = s.live h.idx.toNat d.seq ∧
        ∀ j q, j ≠ h.idx.toNat → j < 2 ^ 31 → t.live j q = s.live j q := by
    intro t hlive
    refine ⟨?_, fun j q hj hj' => ?_⟩
    · rw [← hlive _ _ (hs.lt_of_getElem? hd), if_pos (refers_iff.2 ⟨rfl, hseq.symm⟩)]
    · rw [← hlive j q hj', if_neg fun hr => hj (refers_iff.1 hr).1.symm, Nat.add_zero]
  rw [decRef, if_neg hnn]
  by_cases hone : d.refCout - 1 = 0
  · rw [if_pos hone, hp, Option.bind_some, hf, Option.map_some]
    refine ⟨_, rfl, rfl, fun t hds hheap hobj hlive => ?_⟩
    obtain ⟨hl, hother⟩ := hlive_of t hlive
    have hheap' : t.heap = Function.update s.heap p none := hheap
    have hget := setDescriptor_getElem? hlt .cleared
    rw [← hds] at hget
    refine hs.replace (hds ▸ (List.length_set ..).trans_le hs.length_le) hget (.inl rfl)
      (fun j e p' hj he hp' => ⟨fun hn => (by cases hn), ?_⟩) (fun o g ho => ?_) hother
    · have hne : p' ≠ p := fun heq => hs.cell_ne hj hd he hp' (heq ▸ hp)
      rw [hheap', Function.update_of_ne hne]
    · rcases hobj o g ho with hclear | ⟨o', ho'⟩
      · exact .inl hclear
      refine (hs.handle o' g ho').imp_right fun hg => .inr ⟨o', ho', fun hidx => ?_⟩
      -- no handle is left for the descriptor
      obtain ⟨e, p', he, hseq', -⟩ := hg.descriptor
      rw [hidx] at he
      obtain rfl := Option.some.inj (hd.symm.trans he)
      have := live_pos_of_object ho (refers_iff.2 ⟨hidx, hseq'.symm⟩)
      have := hlast.1 hone
      omega
  · rw [if_neg hone]
    refine ⟨_, rfl, rfl, fun t hds hheap hobj hlive => ?_⟩
    obtain ⟨hl, hother⟩ := hlive_of t hlive
    have hget := setDescriptor_getElem? hlt { d with refCout := d.refCout - 1 }
    rw [← hds] at hget
    have hheap' : t.heap = s.heap := hheap
    have hmore := mt hlast.2 hone
    refine hs.replace (hds ▸ (List.length_set ..).trans_le hs.length_le) hget
      (.inr ⟨hheap' ▸ hc.cell, hc.seq_ne, ?_, ?_⟩)
      (fun j e p' hj he hp' =>
        ⟨show d.handlePtr ≠ some p' from hs.cell_ne hj hd he hp', by rw [hheap']⟩)
      (fun o g ho => ?_) hother
    · change (d.refCout - 1).toInt = (t.live h.idx.toNat d.seq : ℤ)
      omega
    · change 0 < t.live h.idx.toNat d.seq
      omega
    · rcases hobj o g ho with hclear | ⟨o', ho'⟩
      · exact .inl hclear
      · exact (hs.handle o' g ho').imp_right fun hg => .inl (hg.replace hget hd rfl rfl)

/-! ## Objects that are closed and moved -/

/-- Objects behind an assignment are old ones or the assigned one. -/
theorem object_assign_cases (ho : o < s.objects.length) {x : Option FileHandle} {o' : ℕ} {g : FileHandle}
    (hg : (s.assign o x).object o' = some g) : x = some g ∨ s.object o' = some g := by
  rw [object_assign ho] at hg
  split at hg
  · exact .inl hg
  · exact .inr hg

/-- **`close_file` of an object.** -/
theorem closeObject_spec (hs : Consistent s) (ho : s.object o = some h)
    (after : FileHandle → Option FileHandle)
    (hafter : after .cleared = none ∨ after .cleared = some .cleared) :
    ∃ t, closeObject s o after = some t ∧ t.objects = s.objects.set o (after .cleared) ∧ Consistent t := by
  have hlt := lt_of_object ho
  have hobj : ∀ o' g, (s.assign o (after .cleared)).object o' = some g →
      g = .cleared ∨ ∃ o', s.object o' = some g := by
    intro o' g hg
    rcases object_assign_cases hlt hg with hx | hold
    · rcases hafter with h0 | h0
      · rw [h0] at hx
        cases hx
      · rw [h0] at hx
        exact .inl (Option.some.inj hx).symm
    · exact .inr ⟨o', hold⟩
  have hnone : ∀ i q, i < 2 ^ 31 → (after .cleared).any (·.refers i q) = false := by
    intro i q hi
    rcases hafter with h0 | h0
    · rw [h0]
      rfl
    · rw [h0]
      exact refers_cleared hi q
  have hlive : ∀ i q, i < 2 ^ 31 → (s.assign o (after .cleared)).live i q +
      (if h.refers i q then 1 else 0) = s.live i q := by
    intro i q hi
    rw [live_assign ho, hnone i q hi, if_neg Bool.false_ne_true, Nat.add_zero]
  rw [closeObject, ho, Option.bind_some]
  rcases hs.handle o h ho with rfl | hh
  · rw [closeFile, isTrue_cleared, Option.bind_some, if_neg Bool.false_ne_true, Option.map_some]
    refine ⟨_, rfl, rfl, hs.of_objects rfl rfl hobj fun i q hi => ?_⟩
    have := hlive i q hi
    rwa [refers_cleared hi, if_neg Bool.false_ne_true, Nat.add_zero] at this
  · obtain ⟨d, p, f, hd, -, -, -, -, htrue, hidx⟩ := hh.spec hs
    obtain ⟨u, hu, hobjs, hcons⟩ := hs.decreased hh hd
    have hclose : closeFile s h = some (true, .cleared, u) := by
      rw [closeFile, htrue, Option.bind_some, if_pos rfl, hidx]
      simp only [hd, hu, Option.map_some]
    rw [hclose, Option.map_some]
    have hassign : (u.assign o (after .cleared)).objects = (s.assign o (after .cleared)).objects := by
      rw [State.assign, State.assign, hobjs]
    refine ⟨_, rfl, by rw [hassign]; rfl, hcons _ rfl rfl (fun o' g hg => hobj o' g ?_) fun i q hi => ?_⟩
    · rw [State.object, hassign] at hg
      exact hg
    · rw [← hlive i q hi, State.live, hassign]
      rfl

/-- **A handle is moved** to an object that holds no reference. -/
theorem moveObject_spec (hs : Consistent s) {this rhs : ℕ} (hthis : s.object this = some .cleared)
    (hrhs : s.object rhs = some h) :
    ∃ t, moveObject s this rhs = some t ∧ t.objects = (s.objects.set this (some h)).set rhs (some .cleared) ∧
      Consistent t := by
  rw [moveObject, hrhs, Option.map_some]
  refine ⟨_, rfl, rfl, hs.of_objects rfl rfl (fun o g hg => ?_) fun i q hi => ?_⟩
  · have hlt : rhs < (s.assign this (some h)).objects.length := by
      rw [State.assign, List.length_set]
      exact lt_of_object hrhs
    rcases object_assign_cases hlt hg with hx | hg
    · exact .inl (Option.some.inj hx).symm
    rcases object_assign_cases (lt_of_object hthis) hg with hx | hg
    · exact .inr ⟨rhs, Option.some.inj hx ▸ hrhs⟩
    · exact .inr ⟨o, hg⟩
  · -- the reference of `rhs` is counted twice in between
    have hmid : (s.assign this (some h)).object rhs = some h := by
      rw [object_assign (lt_of_object hthis)]
      split
      · rfl
      · exact hrhs
    have h1 := live_assign hthis (some h) i q
    have h2 := live_assign hmid (some .cleared) i q
    rw [refers_cleared hi, if_neg Bool.false_ne_true, Option.any_some] at h1
    rw [Option.any_some, refers_cleared hi, if_neg Bool.false_ne_true] at h2
    omega

theorem exists_object_of_live_pos {q : UInt32} (hpos : 0 < s.live i q) :
    ∃ o h, s.object o = some h ∧ h.refers i q = true := by
  obtain ⟨x, hx, hr⟩ := List.countP_pos_iff.1 hpos
  obtain ⟨o, ho, rfl⟩ := List.getElem_of_mem hx
  cases hxo : s.objects[o] with
  | none =>
    rw [hxo] at hr
    cases hr
  | some h =>
    rw [hxo] at hr
    refine ⟨o, h, ?_, hr⟩
    rw [State.object, List.getElem?_eq_getElem ho, hxo]
    rfl

/-- **The invariant implies what is promised.** -/
theorem Consistent.balanced (hs : Consistent s) : Balanced s where
  count_eq i d hd hptr := by
    rcases hs.descriptor i d hd with rfl | hc
    · exact absurd rfl hptr
    · exact hc.count_eq
  open_iff i q hi := by
    constructor
    · rintro ⟨d, p, f, hd, rfl, hp, -⟩
      rcases hs.descriptor i d hd with rfl | hc
      · cases hp
      · exact hc.live_pos
    · intro hpos
      obtain ⟨o, h, ho, hr⟩ := exists_object_of_live_pos hpos
      obtain ⟨rfl, rfl⟩ := refers_iff.1 hr
      rcases hs.handle o h ho with rfl | hh
      · exact absurd rfl hi
      · obtain ⟨d, p, f, hd, -, hseq, hp, hf, -⟩ := hh.spec hs
        exact ⟨d, p, f, hd, hseq, hp, hf⟩

/-! ## Files that are opened -/

/-- The loop of `open_file` finds a cleared descriptor if it finds one. -/
theorem firstEmptyIdx_spec (heap : ℕ → Option Int32) (ds : List FileDescriptor)
    (hds : ∀ d ∈ ds, d = .cleared ∨ d.isEmpty heap = some false) (k : ℕ) :
    ∃ r, firstEmptyIdx heap ds k = some r ∧ ∀ i, r = some i → k ≤ i ∧ ds[i - k]? = some .cleared := by
  induction ds generalizing k with
  | nil => exact ⟨none, rfl, fun i hi => by cases hi⟩
  | cons d ds ih =>
    obtain ⟨hd, hrest⟩ := List.forall_mem_cons.1 hds
    rw [firstEmptyIdx]
    rcases hd with rfl | hd
    · refine ⟨some k, rfl, fun i hi => ?_⟩
      obtain rfl := Option.some.inj hi
      rw [Nat.sub_self]
      exact ⟨le_refl _, rfl⟩
    · obtain ⟨r, hr, hfound⟩ := ih hrest (k + 1)
      rw [hd, Option.bind_some, if_neg Bool.false_ne_true]
      refine ⟨r, hr, fun i hi => ?_⟩
      obtain ⟨hle, hget⟩ := hfound i hi
      rw [show i - k = i - (k + 1) + 1 by omega, List.getElem?_cons_succ]
      exact ⟨by omega, hget⟩

theorem Counts.isEmpty_eq (hc : Counts s i d) : d.isEmpty s.heap = some false := by
  obtain ⟨p, f, hp, hf, hvalid⟩ := hc.cell
  simp only [FileDescriptor.isEmpty, hp, hf, Option.map_some, hvalid]
  rfl

/-- A new object without a reference. -/
theorem Consistent.construct_cleared (hs : Consistent s) : Consistent (s.construct .cleared) := by
  refine hs.of_objects rfl rfl (fun o h ho => ?_) fun i q hi => ?_
  · rw [object_construct] at ho
    split at ho
    · exact .inl (Option.some.inj ho).symm
    · exact .inr ⟨o, ho⟩
  · rw [live_construct, refers_cleared hi, if_neg Bool.false_ne_true, Nat.add_zero]

/-- Nothing refers to a descriptor that is not open. -/
theorem Consistent.idx_ne (hs : Consistent s) (hi : i < 2 ^ 31)
    (hfree : ∀ d, s.fileDescriptors[i]? = some d → d = .cleared) (ho : s.object o = some h) :
    h.idx.toNat ≠ i := by
  rintro rfl
  rcases hs.handle o h ho with rfl | hh
  · exact absurd hi (by decide)
  · obtain ⟨d, p, hd, -, hp, -⟩ := hh.descriptor
    rw [hfree d hd] at hp
    cases hp

theorem Consistent.live_eq_zero (hs : Consistent s) (hi : i < 2 ^ 31)
    (hfree : ∀ d, s.fileDescriptors[i]? = some d → d = .cleared) (q : UInt32) : s.live i q = 0 := by
  by_contra hne
  obtain ⟨o, h, ho, hr⟩ := exists_object_of_live_pos (Nat.pos_of_ne_zero hne)
  exact hs.idx_ne hi hfree ho (refers_iff.1 hr).1

/-- **A new file** and the handle that is constructed from it. -/
theorem Consistent.opened (hs : Consistent s) (hi : i < 2 ^ 31) (hlen : t.fileDescriptors.length ≤ 2 ^ 31)
    (hfree : ∀ d, s.fileDescriptors[i]? = some d → d = .cleared) {seq : UInt32} (hseq : seq ≠ 0) {cell : ℕ}
    (hcell : s.heap cell = none) {f : Int32} (hf : isPlatformHandleValid f = true) {path : List Char}
    (hget : ∀ j, t.fileDescriptors[j]? =
      if j = i then some ⟨some cell, seq, 1, path⟩ else s.fileDescriptors[j]?)
    (hheap : t.heap = Function.update s.heap cell (some f))
    (hobjs : t.objects = s.objects ++ [some ⟨UInt32.ofNat i, seq, some cell, path⟩]) : Consistent t := by
  have hidx : (UInt32.ofNat i).toNat = i := by
    rw [UInt32.toNat_ofNat']
    omega
  have hsame : ∀ o, t.object o = (s.construct ⟨UInt32.ofNat i, seq, some cell, path⟩).object o := by
    intro o
    rw [State.object, hobjs]
    rfl
  have hlive : ∀ j q, t.live j q =
      s.live j q + if j = i ∧ q = seq then 1 else 0 := by
    intro j q
    have hcons : t.live j q = (s.construct ⟨UInt32.ofNat i, seq, some cell, path⟩).live j q := by
      rw [State.live, hobjs]
      rfl
    rw [hcons, live_construct]
    simp only [refers_iff, hidx, eq_comm (a := i), eq_comm (a := seq)]
  have hone : t.live i seq = 1 := by
    rw [hlive, hs.live_eq_zero hi hfree, if_pos ⟨rfl, rfl⟩]
  refine hs.replace hlen hget (.inr ⟨⟨cell, f, rfl, ?_, hf⟩, hseq, ?_, ?_⟩)
    (fun j e p hj he hp => ?_) (fun o g ho => ?_) fun j q hj _ => ?_
  · rw [hheap, Function.update_self]
  · change (1 : Int32).toInt = (t.live i seq : ℤ)
    rw [hone]
    rfl
  · exact hone ▸ Nat.one_pos
  · have hne : p ≠ cell := by
      rintro rfl
      rcases hs.descriptor j e he with rfl | hc
      · cases hp
      · obtain ⟨p', f', hp', hf', -⟩ := hc.cell
        obtain rfl := Option.some.inj (hp.symm.trans hp')
        rw [hcell] at hf'
        cases hf'
    refine ⟨fun heq => hne (Option.some.inj heq).symm, ?_⟩
    rw [hheap, Function.update_of_ne hne]
  · rw [hsame, object_construct] at ho
    split at ho
    · obtain rfl := Option.some.inj ho
      refine .inr (.inl ⟨hseq, ⟨some cell, seq, 1, path⟩, cell, ?_, rfl, rfl, rfl⟩)
      change t.fileDescriptors[(UInt32.ofNat i).toNat]? = _
      rw [hidx, hget, if_pos rfl]
    · exact .inr (.inr ⟨o, ho, hs.idx_ne hi hfree ho⟩)
  · rw [hlive, if_neg fun h => hj h.1, Nat.add_zero]

/-- **`open_file`.** -/
theorem openFile_spec (hs : Consistent s) {o : Opened} (hpossible : Possible s (.openFile o))
    (hsafe : Safe s (.openFile o)) :
    ∃ r, openFile s o = some r ∧ Consistent (r.2.construct r.1) := by
  have hempty : ∀ d ∈ s.fileDescriptors, d = .cleared ∨ d.isEmpty s.heap = some false := by
    intro d hd
    obtain ⟨i, hi, rfl⟩ := List.getElem_of_mem hd
    exact (hs.descriptor i _ (List.getElem?_eq_getElem hi)).imp_right Counts.isEmpty_eq
  obtain ⟨first, hfirst, hfound⟩ := firstEmptyIdx_spec s.heap s.fileDescriptors hempty 0
  rw [openFile, hfirst, Option.bind_some]
  by_cases hdir : o.hasDirectory = false
  · rw [if_pos hdir]
    exact ⟨_, rfl, hs.construct_cleared⟩
  rw [if_neg hdir]
  by_cases hfail : isPlatformHandleValid o.platformHandle = false ∨ o.errno ≠ 0
  · rw [if_pos hfail]
    exact ⟨_, rfl, hs.construct_cleared⟩
  rw [if_neg hfail]
  rw [not_or, not_not, Bool.not_eq_false] at hfail
  have hok : o.Succeeds := ⟨Bool.not_eq_false _ ▸ hdir, hfail.1, hfail.2⟩
  obtain ⟨hseq, hlen⟩ := hsafe hok
  have hcell := hpossible hok
  rw [if_neg (not_not.2 hcell)]
  cases first with
  | none =>
    have hget : (s.fileDescriptors ++ [.cleared])[s.fileDescriptors.length]? =
        some FileDescriptor.cleared := List.getElem?_concat_length
    simp only [if_true, Option.getD_none, hget]
    refine ⟨_, rfl, hs.opened (i := s.fileDescriptors.length) hlen ?_ ?_ hseq hcell hfail.1 (fun j => ?_) rfl
      rfl⟩
    · change ((s.fileDescriptors ++ [FileDescriptor.cleared]).set _ _).length ≤ 2 ^ 31
      rw [List.length_set, List.length_append]
      exact hlen
    · intro d hd
      rw [List.getElem?_eq_none (le_refl _)] at hd
      cases hd
    · change ((s.fileDescriptors ++ [FileDescriptor.cleared]).set _ _)[j]? = _
      rw [List.getElem?_set]
      split
      · rename_i hj
        rw [if_pos (by simp), if_pos hj.symm]
        rfl
      · rename_i hj
        rw [if_neg (Ne.symm hj)]
        by_cases hlt : j < s.fileDescriptors.length
        · rw [List.getElem?_append_left hlt]
        · rw [List.getElem?_eq_none (by simp; omega), List.getElem?_eq_none (by omega)]
  | some i =>
    obtain ⟨-, hget⟩ := hfound i rfl
    rw [Nat.sub_zero] at hget
    have hi : i < s.fileDescriptors.length := (List.getElem?_eq_some_iff.1 hget).1
    simp only [reduceCtorEq, if_false, Option.getD_some, hget]
    refine ⟨_, rfl, hs.opened (hi.trans hlen) ((List.length_set ..).trans_le hs.length_le) (fun d hd => ?_)
      hseq hcell hfail.1 (setDescriptor_getElem? hi _) rfl rfl⟩
    exact (Option.some.inj (hget.symm.trans hd)).symm

/-! ## Runs -/

/-- A copy of a handle, at the end of the objects or over an object without a reference. -/
theorem Consistent.copied (hs : Consistent s) {rhs : ℕ} (hrhs : s.object rhs = some h) (hmax : BelowMax s rhs)
    (hds : t.fileDescriptors = (incRef s h).fileDescriptors) (hheap : t.heap = s.heap)
    (hobj : ∀ o g, t.object o = some g → g = .cleared ∨ ∃ o', s.object o' = some g)
    (hlive : ∀ i q, i < 2 ^ 31 → t.live i q = s.live i q + if h.refers i q then 1 else 0) :
    Consistent t := by
  rcases hs.handle rhs h hrhs with rfl | hh
  · rw [incRef_cleared hs] at hds
    refine hs.of_objects hds hheap hobj fun i q hi => ?_
    rw [hlive i q hi, refers_cleared hi, if_neg Bool.false_ne_true, Nat.add_zero]
  · obtain ⟨-, -, -, -, -, -, -, -, -, hidx⟩ := hh.spec hs
    refine hs.increased hh hds hheap (fun d hd => ?_) hobj hlive
    have hne := hmax h _ d hrhs hidx hd
    have hlt := Int32.toInt_lt d.refCout
    rw [Ne, ← Int32.toInt_inj] at hne
    change d.refCout.toInt ≠ 2147483647 at hne
    omega

theorem incRef_objects (s : State) (h : FileHandle) : (incRef s h).objects = s.objects := by
  unfold incRef
  split
  · rfl
  · split <;> rfl

theorem incRef_heap (s : State) (h : FileHandle) : (incRef s h).heap = s.heap := by
  unfold incRef
  split
  · rfl
  · split <;> rfl

theorem fileDescriptors_incRef_assign (s : State) (o : ℕ) (x : Option FileHandle) (h : FileHandle) :
    (incRef (s.assign o x) h).fileDescriptors = (incRef s h).fileDescriptors := by
  have hidx : descriptorIndex (s.assign o x) h = descriptorIndex s h := rfl
  have hfiles : (s.assign o x).fileDescriptors = s.fileDescriptors := rfl
  simp only [incRef, hidx, hfiles]
  split
  · rfl
  · split <;> rfl

theorem live_congr (hobjs : t.objects = s.objects) (i : ℕ) (q : UInt32) : t.live i q = s.live i q := by
  rw [State.live, hobjs]
  rfl

theorem object_congr (hobjs : t.objects = s.objects) (o : ℕ) : t.object o = s.object o := by
  rw [State.object, hobjs]
  rfl

/-- **Every possible action that is safe** runs through, and handles and descriptors still belong
together. -/
theorem step_spec (hs : Consistent s) {a : Action} (hpossible : Possible s a) (hsafe : Safe s a) :
    ∃ t, step s a = some t ∧ Consistent t := by
  cases a with
  | openFile o =>
    obtain ⟨r, hr, hcons⟩ := openFile_spec hs hpossible hsafe
    exact ⟨_, by rw [step, hr, Option.map_some], hcons⟩
  | construct => exact ⟨_, rfl, hs.construct_cleared⟩
  | copyConstruct rhs =>
    obtain ⟨h, hrhs⟩ := Option.isSome_iff_exists.1 hpossible
    refine ⟨(incRef s h).construct h, by rw [step, hrhs, Option.map_some],
      hs.copied hrhs hsafe rfl (incRef_heap s h) (fun o g hg => ?_) fun i q hi => ?_⟩
    · rw [object_construct] at hg
      split at hg
      · exact .inr ⟨rhs, Option.some.inj hg ▸ hrhs⟩
      · exact .inr ⟨o, object_congr (incRef_objects s h) o ▸ hg⟩
    · rw [live_construct, live_congr (incRef_objects s h)]
  | moveConstruct rhs =>
    obtain ⟨h, hrhs⟩ := Option.isSome_iff_exists.1 hpossible
    have hnew : (s.construct .cleared).object s.objects.length = some .cleared := by
      rw [object_construct, if_pos rfl]
    have hold : (s.construct .cleared).object rhs = some h := by
      rw [object_construct, if_neg (lt_of_object hrhs).ne, hrhs]
    obtain ⟨t, ht, -, hcons⟩ := moveObject_spec hs.construct_cleared hnew hold
    exact ⟨t, by rw [step, hrhs, Option.bind_some, ht], hcons⟩
  | copyAssign this rhs =>
    obtain ⟨h₀, hthis⟩ := Option.isSome_iff_exists.1 hpossible.1
    obtain ⟨h, hrhs⟩ := Option.isSome_iff_exists.1 hpossible.2
    -- the object that is overwritten holds no reference
    have hclear : h₀ = .cleared := by
      refine (hs.handle this h₀ hthis).resolve_right fun hh => ?_
      obtain ⟨-, -, -, -, -, -, -, -, htrue, -⟩ := hh.spec hs
      rw [hsafe.1 h₀ hthis] at htrue
      cases htrue
    subst hclear
    refine ⟨incRef (s.assign this (some h)) h,
      by rw [step, hthis, Option.bind_some, hrhs, Option.map_some],
      hs.copied hrhs hsafe.2 (fileDescriptors_incRef_assign ..) (incRef_heap _ h) (fun o g hg => ?_) fun i q hi => ?_⟩
    · rw [object_congr (incRef_objects _ h)] at hg
      rcases object_assign_cases (lt_of_object hthis) hg with hx | hg
      · exact .inr ⟨rhs, Option.some.inj hx ▸ hrhs⟩
      · exact .inr ⟨o, hg⟩
    · have h1 := live_assign hthis (some h) i q
      rw [refers_cleared hi, if_neg Bool.false_ne_true, Nat.add_zero, Option.any_some] at h1
      rw [live_congr (incRef_objects _ h), h1]
  | moveAssign this rhs =>
    obtain ⟨h₀, hthis⟩ := Option.isSome_iff_exists.1 hpossible.1
    obtain ⟨h, hrhs⟩ := Option.isSome_iff_exists.1 hpossible.2
    obtain ⟨u, hu, hobjs, hcons⟩ := closeObject_spec hs hthis some (.inr rfl)
    have hclosed : ∀ o, u.object o = (s.assign this (some .cleared)).object o := by
      intro o
      rw [State.object, hobjs]
      rfl
    have hnew : u.object this = some .cleared := by
      rw [hclosed, object_assign (lt_of_object hthis), if_pos rfl]
    -- the object may be moved to itself
    obtain ⟨g, hold⟩ : ∃ g, u.object rhs = some g := by
      rw [hclosed, object_assign (lt_of_object hthis)]
      split
      · exact ⟨_, rfl⟩
      · exact ⟨h, hrhs⟩
    obtain ⟨t, ht, -, hcons⟩ := moveObject_spec hcons hnew hold
    exact ⟨t, by rw [step, hu, Option.bind_some, ht], hcons⟩
  | closeFile this =>
    obtain ⟨h, hthis⟩ := Option.isSome_iff_exists.1 hpossible
    obtain ⟨t, ht, -, hcons⟩ := closeObject_spec hs hthis some (.inr rfl)
    exact ⟨t, ht, hcons⟩
  | invalid this =>
    obtain ⟨h, hthis⟩ := Option.isSome_iff_exists.1 hpossible
    obtain ⟨t, ht, -, hcons⟩ := closeObject_spec hs hthis (fun _ => some .cleared) (.inr rfl)
    exact ⟨t, ht, hcons⟩
  | destruct this =>
    obtain ⟨h, hthis⟩ := Option.isSome_iff_exists.1 hpossible
    obtain ⟨t, ht, -, hcons⟩ := closeObject_spec hs hthis (fun _ => none) (.inl rfl)
    exact ⟨t, ht, hcons⟩

theorem isSome_of_closeObject {after : FileHandle → Option FileHandle}
    (h : closeObject s o after = some t) : (s.object o).isSome = true := by
  obtain ⟨h, ho, -⟩ := Option.bind_eq_some_iff.1 h
  exact ho ▸ rfl

/-- An action that runs through was possible. -/
theorem possible_of_step (hs : Consistent s) {a : Action} (h : step s a = some t) : Possible s a := by
  cases a with
  | openFile o =>
    intro hok
    by_contra hcell
    obtain ⟨r, hr, -⟩ := Option.map_eq_some_iff.1 h
    obtain ⟨first, -, hr⟩ := Option.bind_eq_some_iff.1 hr
    rw [if_neg (by rw [hok.hasDirectory]; decide),
      if_neg (not_or.2 ⟨by rw [hok.valid]; decide, not_not.2 hok.errno⟩), if_pos hcell] at hr
    cases hr
  | construct => trivial
  | copyConstruct rhs =>
    obtain ⟨h, ho, -⟩ := Option.map_eq_some_iff.1 h
    exact Option.isSome_iff_exists.2 ⟨h, ho⟩
  | moveConstruct rhs =>
    obtain ⟨h, ho, -⟩ := Option.bind_eq_some_iff.1 h
    exact Option.isSome_iff_exists.2 ⟨h, ho⟩
  | copyAssign this rhs =>
    obtain ⟨h₀, ho, h⟩ := Option.bind_eq_some_iff.1 h
    obtain ⟨h, ho', -⟩ := Option.map_eq_some_iff.1 h
    exact ⟨ho ▸ rfl, ho' ▸ rfl⟩
  | moveAssign this rhs =>
    obtain ⟨u, hu, h⟩ := Option.bind_eq_some_iff.1 h
    have hthis := isSome_of_closeObject hu
    obtain ⟨h₀, ho⟩ := Option.isSome_iff_exists.1 hthis
    obtain ⟨u', hu', hobjs, -⟩ := closeObject_spec hs ho some (.inr rfl)
    obtain rfl := Option.some.inj (hu.symm.trans hu')
    obtain ⟨h, hrhs, -⟩ := Option.map_eq_some_iff.1 h
    refine ⟨hthis, ?_⟩
    have hassign : u.object rhs = (s.assign this (some .cleared)).object rhs := by
      rw [State.object, hobjs]
      rfl
    rw [hassign] at hrhs
    rcases object_assign_cases (lt_of_object ho) hrhs with hx | hold
    · rw [object_assign (lt_of_object ho)] at hrhs
      by_cases hself : rhs = this
      · exact hself ▸ hthis
      · rw [if_neg hself] at hrhs
        exact hrhs ▸ rfl
    · exact hold ▸ rfl
  | closeFile this => exact isSome_of_closeObject h
  | invalid this =>
    exact isSome_of_closeObject (show closeObject s this (fun _ => some .cleared) = some t from h)
  | destruct this => exact isSome_of_closeObject (show closeObject s this (fun _ => none) = some t from h)

theorem consistent_of_runs (h : Runs step Safe State.new s) : Consistent s := by
  refine h.invariant Consistent.new fun u v a hu hsafe hstep => ?_
  obtain ⟨t, ht, hcons⟩ := step_spec hu (possible_of_step hu hstep) hsafe
  exact Option.some.inj (ht.symm.trans hstep) ▸ hcons

end Invariant

/-- **File handles.** In every run in which no copy is assigned to a handle that holds a file and no number
runs over, the count of an open descriptor is the number of its live handles, a file is open exactly as
long as there are such handles, and no step reads a freed cell or fails an assertion. -/
theorem file_handles_balanced {s : State} (h : Runs step Safe State.new s) :
    Balanced s ∧ ∀ a, Possible s a → Safe s a → ∃ t, step s a = some t := by
  have hs := consistent_of_runs h
  refine ⟨hs.balanced, fun a hpossible hsafe => ?_⟩
  obtain ⟨t, ht, -⟩ := step_spec hs hpossible hsafe
  exact ⟨t, ht⟩

/-- A file that can be opened, with its cell. -/
def aFile (platformHandle : Int32) (cell : ℕ) : Opened := ⟨['f'], true, 0, platformHandle, cell⟩

/-- A file is opened, its handle is copied, and the first handle is destroyed. -/
theorem file_handles_balanced_copy : ∃ s, run step State.new
    [.openFile (aFile 3 0), .copyConstruct 0, .destruct 0] = some s ∧
      Balanced s ∧ ∀ a, Possible s a → Safe s a → ∃ t, step s a = some t := by
  have hopen : Safe State.new (.openFile (aFile 3 0)) := fun _ => ⟨by decide, by decide⟩
  obtain ⟨s, hs⟩ : ∃ s, step State.new (.openFile (aFile 3 0)) = some s := ⟨_, rfl⟩
  have hcopy : Safe s (.copyConstruct 0) := by
    obtain rfl := Option.some.inj hs
    intro h i d ho hi hd
    obtain rfl := Option.some.inj ho
    obtain rfl := Option.some.inj hi
    obtain rfl := Option.some.inj hd
    decide
  obtain ⟨t, ht⟩ : ∃ t, step s (.copyConstruct 0) = some t := by
    obtain rfl := Option.some.inj hs
    exact ⟨_, rfl⟩
  obtain ⟨u, hu⟩ : ∃ u, step t (.destruct 0) = some u := by
    obtain rfl := Option.some.inj hs
    obtain rfl := Option.some.inj ht
    exact ⟨_, rfl⟩
  refine ⟨u, ?_, file_handles_balanced ((((Runs.refl _).tail hopen hs).tail hcopy ht).tail
    (show Safe t (.destruct 0) from trivial) hu)⟩
  rw [run_cons_of_step hs, run_cons_of_step ht, run_cons_of_step hu, run_nil]

/-- Two files are opened, and a copy of the second handle is assigned to the first one. When both handles
are destroyed the first file is still open. -/
theorem copy_assignment_leaks : ∃ t, run step State.new
    [.openFile (aFile 3 0), .openFile (aFile 4 1), .copyAssign 0 1, .destruct 0, .destruct 1] = some t ∧
      t.objects = [none, none] ∧ t.fileDescriptors[0]? = some ⟨some 0, 1, 1, ['f']⟩ ∧ ¬Balanced t := by
  refine ⟨_, rfl, rfl, rfl, fun h => ?_⟩
  have := h.count_eq 0 _ rfl (by decide)
  exact absurd this (by decide)

/-- The descriptor that a handle finds. -/
theorem descriptorIndex_eq_some_iff {s : State} {h : FileHandle} {i : ℕ} : descriptorIndex s h = some i ↔
    h.idx.toNat = i ∧ i < 2 ^ 31 ∧ ∃ d, s.fileDescriptors[i]? = some d ∧ d.seq = h.seq := by
  unfold descriptorIndex
  cases hd : s.fileDescriptors[h.idx.toNat]? with
  | none =>
    refine iff_of_false (fun h => by cases h) ?_
    rintro ⟨rfl, -, d, hd', -⟩
    rw [hd] at hd'
    cases hd'
  | some d =>
    simp only
    constructor
    · intro hi
      split at hi
      · cases hi
      rename_i hseq
      split at hi
      · rename_i hlt
        obtain rfl := Option.some.inj hi
        exact ⟨rfl, hlt, d, hd, (not_not.1 hseq).symm⟩
      · cases hi
    · rintro ⟨rfl, hlt, d', hd', hseq⟩
      obtain rfl := Option.some.inj (hd.symm.trans hd')
      rw [if_neg (not_not.2 hseq.symm), if_pos hlt]

/-- **A copy that is assigned to a handle with a file** leaves the count of this file too high. -/
theorem not_balanced_of_copyAssign {s t : State} (hs : Consistent s) {this rhs : ℕ} {h₀ : FileHandle}
    (hthis : s.object this = some h₀) (hholds : h₀.isTrue s.heap = some true)
    (h : step s (.copyAssign this rhs) = some t) : ¬Balanced t := by
  rw [step, hthis, Option.bind_some] at h
  obtain ⟨g, hrhs, rfl⟩ := Option.map_eq_some_iff.1 h
  have hh : Holds s h₀ := by
    refine (hs.handle this h₀ hthis).resolve_left ?_
    rintro rfl
    rw [isTrue_cleared] at hholds
    cases hholds
  obtain ⟨d, p, f, hd, hc, hseq, hp, -⟩ := hh.spec hs
  have hlt : h₀.idx.toNat < s.fileDescriptors.length := (List.getElem?_eq_some_iff.1 hd).1
  have hlive := live_assign hthis (some g) h₀.idx.toNat d.seq
  rw [if_pos (refers_iff.2 ⟨rfl, hseq.symm⟩), Option.any_some] at hlive
  intro hbal
  have hcount := hc.count_eq
  by_cases hg : g.refers h₀.idx.toNat d.seq = true
  · -- the copy refers to the same file: one reference more, and no handle more
    have hidx : descriptorIndex (s.assign this (some g)) g = some h₀.idx.toNat :=
      descriptorIndex_eq_some_iff.2
        ⟨(refers_iff.1 hg).1, hs.lt_of_getElem? hd, d, hd, (refers_iff.1 hg).2.symm⟩
    have hinc : incRef (s.assign this (some g)) g =
        (s.assign this (some g)).setDescriptor h₀.idx.toNat { d with refCout := d.refCout + 1 } := by
      have hfiles : (s.assign this (some g)).fileDescriptors[h₀.idx.toNat]? = some d := hd
      simp only [incRef, hidx, hfiles]
    rw [hinc] at hbal
    have hnew := hbal.count_eq h₀.idx.toNat _
      ((setDescriptor_getElem? (s := s.assign this (some g)) hlt _ _).trans (if_pos rfl))
      (by rw [hp]; exact Option.some_ne_none p)
    change (d.refCout + 1).toInt = ((s.assign this (some g)).live h₀.idx.toNat d.seq : ℤ) at hnew
    rw [if_pos hg] at hlive
    have hsame : (d.refCout + 1).toInt = d.refCout.toInt := by omega
    rw [Int32.toInt_inj] at hsame
    exact absurd (Int32.add_eq_left.1 hsame) (by decide)
  · -- the copy refers to another file or to none: one handle less, and no reference less
    have hother : (incRef (s.assign this (some g)) g).fileDescriptors[h₀.idx.toNat]? = some d := by
      cases hidx : descriptorIndex (s.assign this (some g)) g with
      | none =>
        rw [incRef, hidx]
        exact hd
      | some i =>
        obtain ⟨hgi, -, d', hd', hseq'⟩ := descriptorIndex_eq_some_iff.1 hidx
        have hne : h₀.idx.toNat ≠ i := by
          rintro rfl
          obtain rfl := Option.some.inj (hd.symm.trans hd')
          exact hg (refers_iff.2 ⟨hgi, hseq'.symm⟩)
        rw [incRef, hidx]
        simp only [hd']
        rw [setDescriptor_getElem? (List.getElem?_eq_some_iff.1 hd').1, if_neg hne]
        exact hd
    have hnew := hbal.count_eq h₀.idx.toNat d hother (by rw [hp]; exact Option.some_ne_none p)
    rw [live_congr (incRef_objects _ g)] at hnew
    rw [if_neg hg] at hlive
    omega

end QLog.Io
