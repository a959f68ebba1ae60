import QLog.Buffer.LogBuffer.Stores

/-!
# No record is invented and none is delivered twice

`Lived cfg old new s`: the state `s` is reached by some lives of a log buffer, `new` are the records that
were committed in the last of them and `old` those of the lives before. What the reader was handed in the
last life, together with what the stores still hold for it, are no more than these records, each counted as
often as it was committed (`records_conserved`).
-/

namespace QLog.LogBuffer

variable {cfg : Config} {s s' u : State} {t g b i : ℕ} {F : Finset ℕ}

/-- The record that is committed by an action. -/
def Act.record : Act → Multiset (List UInt8)
  | commit _ payload => {payload}
  | _ => 0

/-- A record has room in a chunk whose size is a number of 32 bits. -/
def Act.Fits : Act → Prop
  | commit _ payload => payload.length + contextSize < 2 ^ 32
  | _ => True

instance : DecidablePred Act.Fits
  | .commit _ payload => inferInstanceAs (Decidable (payload.length + contextSize < 2 ^ 32))
  | .alloc _ _ | .write _ _ | .exit _ | .readChunk | .read _ | .returnReadChunk =>
    inferInstanceAs (Decidable True)

/-- The states reached over some lives, with the records committed before and in the last life. -/
inductive Lived (cfg : Config) : Multiset (List UInt8) → Multiset (List UInt8) → State → Prop
  | create {s : State} : s.Created cfg → Lived cfg 0 0 s
  | step {old new : Multiset (List UInt8)} {s s' : State} {a : Act} :
      Lived cfg old new s → a.Fits → step cfg s a = some s' → Lived cfg old (new + a.record) s'
  | reopen {old new : Multiset (List UInt8)} {s s' : State} {rejected : Bool} :
      cfg.needRecovery = true → Lived cfg old new s → Reopens s s' rejected → Lived cfg (old + new) 0 s'

theorem Lived.lives {old new : Multiset (List UInt8)} (h : Lived cfg old new s) :
    Lives cfg (fun _ _ => True) (fun _ _ => True) s := by
  induction h with
  | create h => exact .create h
  | step _ _ hs ih => exact .step ih trivial hs
  | reopen hr _ hs ih => exact .reopen hr ih hs trivial

/-! ## Steps of the writers -/

theorem Lent.slots_sublist (lent : Lent) (l : List Slot) : (lent.slots l).Sublist l := List.drop_sublist _ _

theorem Lent.slots_map (lent : Lent) (f : Slot → Slot) (l : List Slot) :
    lent.slots (l.map f) = (lent.slots l).map f := List.map_drop.symm

/-- A step of a writer that holds no record commits none in the ring. -/
theorem ring_quiet {e : Effect} (lent : Lent) (h : Owned s) (ha : Acts s s' t e)
    (hpc : ∀ n, (s.tls t).pc ≠ .holdingLp n) : ringData (lent.slots s'.lp) ≤ ringData (lent.slots s.lp) := by
  have hmap : ∀ f : Slot → Slot, s'.lp = s.lp.map f → (∀ sl ∈ s.lp, (f sl).record = sl.record) →
      ringData (lent.slots s'.lp) ≤ ringData (lent.slots s.lp) := fun f hlp hf => by
    rw [hlp, lent.slots_map, ringData_map fun sl hsl => hf sl ((lent.slots_sublist _).subset hsl)]
  have hlp := ha.lp
  have hleads := ha.leads
  cases e with
  | move | drop | take | init | stage | commitHp | finish => rw [show s'.lp = s.lp from hlp]
  | reserve =>
    rw [show s'.lp = s.lp ++ [.reserved t] from hlp, Lent.slots, Lent.slots, List.drop_append,
      ringData_append]
    have hzero : ∀ n, ringData ([Slot.reserved t].drop n) = 0 := fun n => by
      cases n <;> simp [ringData, Slot.record]
    rw [hzero, add_zero]
  | unreserve =>
    rw [show s'.lp = s.lp.dropLast from hlp]
    exact ringData_sublist ((List.dropLast_sublist _).drop _)
  | leave =>
    refine hmap _ hlp fun sl _ => ?_
    cases sl with
    | reserved owner => simp only [Slot.leave]; split <;> rfl
    | granted | void | committed => rfl
  | grant use =>
    refine hmap _ hlp fun sl _ => ?_
    cases sl with
    | reserved owner => simp only [Slot.grant]; split <;> rfl
    | granted | void | committed => rfl
  | commitSlot data log =>
    refine hmap _ hlp fun sl hsl => ?_
    cases sl with
    | granted owner size c =>
      by_cases ho : owner = t
      · subst ho
        -- the chunk is a reference to an oversize chunk or the mark of a finished thread
        have hs := h.suits _ hsl owner rfl
        have hbare : c.isThreadFinished || c.isExternalRef := by
          rcases hleads with ⟨-, hp, -⟩ | ⟨-, -, payload, hp, -⟩ | ⟨-, -, hp, -⟩
          · exact absurd hp (hpc _)
          · rw [hp] at hs
            injection hs with _ _ he
            simp [← he]
          · rw [hp] at hs
            injection hs with _ hf _
            simp [← hf]
        simp [Slot.commit, Slot.record, hbare]
      · rw [commit_owner (show (Slot.granted owner size c).owner ≠ some t by simpa [Slot.owner] using ho)]
    | reserved | void | committed => rfl
  | abort =>
    refine hmap _ hlp fun sl hsl => ?_
    cases sl with
    | granted owner size c =>
      by_cases ho : owner = t
      · subst ho
        have hs := h.suits _ hsl owner rfl
        rw [hleads.1] at hs
        injection hs with _ _ he
        simp [Slot.abort, Slot.record, ← he]
      · rw [abort_owner (show (Slot.granted owner size c).owner ≠ some t by simpa [Slot.owner] using ho)]
    | reserved | void | committed => rfl

theorem blockData_le {block block' : ℕ → Block} (F : Finset ℕ)
    (h : ∀ b, (block' b).records.Sublist (block b).records) : blockData block' F ≤ blockData block F :=
  Finset.sum_le_sum fun b _ => Multiset.coe_le.mpr (h b).subperm

/-- A step of a writer that holds no record commits none in a block. -/
theorem block_quiet {e : Effect} (ha : Acts s s' t e) (hpc : ∀ n, (s.tls t).pc ≠ .holdingHp n) (b : ℕ) :
    (s'.block b).records.Sublist (s.block b).records := by
  have hremove : ((removeCurBlock s t).block b).records = (s.block b).records := by
    unfold removeCurBlock
    split
    · rfl
    · rename_i b' _
      rcases eq_or_ne b b' with rfl | hne
      · simp [State.markBlockRemoved, State.setBlock]
      · simp [State.markBlockRemoved, State.setBlock, hne]
  have hleads := ha.leads
  rw [ha.block]
  cases e with
  | move | stage | reserve | leave | unreserve | grant | commitSlot | abort => exact List.Sublist.refl _
  | drop | take => exact hremove ▸ List.Sublist.refl _
  | init b' =>
    simp only [Effect.block]
    rcases eq_or_ne b b' with rfl | hne
    · rw [Function.update_self]
      exact List.nil_sublist _
    · rw [Function.update_of_ne hne]
  | commitHp => exact absurd hleads.1 (hpc _)
  | finish b' =>
    simp only [Effect.block]
    rcases eq_or_ne b b' with rfl | hne
    · rw [Function.update_self]
    · rw [Function.update_of_ne hne]

/-- The oversize buffers have different names, and the next name is new. -/
structure Named (s : State) : Prop where
  nodup : (s.oversize.map OversizeBuffer.index).Nodup
  le : ∀ i ∈ s.oversize.map OversizeBuffer.index, i ≤ s.oversizeIndex

/-- A step leaves the names and the chunks of the oversize buffers alone, or adds an empty buffer. -/
def KeepsBuffers (s s' : State) : Prop :=
  (bufferView s'.oversize = bufferView s.oversize ∧ s.oversizeIndex ≤ s'.oversizeIndex) ∨
    (bufferView s'.oversize = bufferView s.oversize ++ [(s.oversizeIndex + 1, [])] ∧
      s'.oversizeIndex = s.oversizeIndex + 1)

theorem names_view (l : List OversizeBuffer) : l.map OversizeBuffer.index = (bufferView l).map Prod.fst := by
  rw [bufferView, List.map_map]
  rfl

theorem KeepsBuffers.named (h : KeepsBuffers s s') (hn : Named s) : Named s' := by
  obtain ⟨hnd, hle⟩ := hn
  rcases h with ⟨hv, hi⟩ | ⟨hv, hi⟩
  · refine ⟨by rwa [names_view, hv, ← names_view], fun i hin => (hle i ?_).trans hi⟩
    rwa [names_view, hv, ← names_view] at hin
  · have hnames : s'.oversize.map OversizeBuffer.index =
        s.oversize.map OversizeBuffer.index ++ [s.oversizeIndex + 1] := by
      rw [names_view, hv, List.map_append, ← names_view]
      rfl
    refine ⟨?_, fun i hin => ?_⟩
    · rw [hnames, List.nodup_append]
      refine ⟨hnd, List.nodup_singleton _, fun i hin j hj => ?_⟩
      have := hle i hin
      obtain rfl := List.mem_singleton.mp hj
      omega
    · rw [hnames] at hin
      rcases List.mem_append.mp hin with hin | hin
      · have := hle i hin
        omega
      · obtain rfl := List.mem_singleton.mp hin
        exact hi.ge

theorem KeepsBuffers.chunkData_eq (h : KeepsBuffers s s') (lent : Lent) :
    chunkData (lent.buffers s'.oversize) = chunkData (lent.buffers s.oversize) := by
  rcases h with ⟨hv, -⟩ | ⟨hv, -⟩
  · exact chunkData_view lent hv
  · have hview : bufferView s'.oversize = bufferView (s.oversize ++
        [⟨s.oversizeIndex + 1, Context.zero, false, [], []⟩]) := by
      rw [hv, bufferView, bufferView, List.map_append]
      rfl
    rw [chunkData_view lent hview, lent.buffers_append, chunkData_append]
    refine add_eq_left.mpr ?_
    cases lent with
    | none | ring => rfl
    | buffer i =>
      by_cases hi : s.oversizeIndex + 1 = i <;> simp [Lent.buffers, returnFirst, chunkData, hi]

theorem KeepsBuffers.of_eq (h : s'.oversize = s.oversize) (hi : s'.oversizeIndex = s.oversizeIndex) :
    KeepsBuffers s s' := .inl ⟨by rw [h], hi.ge⟩

theorem newBlockStep_oversize (hs : newBlockStep cfg s t = some s') : KeepsBuffers s s' := by
  have hlink : (linkGroup s).oversize = s.oversize ∧ (linkGroup s).oversizeIndex = s.oversizeIndex := by
    unfold linkGroup
    split <;> exact ⟨rfl, rfl⟩
  have hpool : ∀ {call seq s'}, (if s.poolLock = none then
      some ({ s with poolLock := some t }.goto t (.newGroup call seq)) else none) = some s' →
      KeepsBuffers s s' := by
    intro call seq s' hs
    split at hs
    · obtain rfl := Option.some.inj hs
      exact .of_eq rfl rfl
    · cases hs
  unfold newBlockStep at hs
  split at hs
  · split at hs
    · cases hs
    · obtain rfl := Option.some.inj hs
      exact .of_eq rfl rfl
    · split at hs
      · cases hs
      · obtain rfl := Option.some.inj hs
        exact .of_eq rfl rfl
  · split at hs
    · obtain rfl := Option.some.inj hs
      exact .of_eq rfl rfl
    · split at hs
      · cases hs
      · obtain rfl := Option.some.inj hs
        exact .of_eq rfl rfl
  · split at hs <;> obtain rfl := Option.some.inj hs <;> exact .of_eq rfl rfl
  · split at hs
    · obtain rfl := Option.some.inj hs
      exact .of_eq rfl rfl
    · cases hs
  · split at hs
    · exact hpool hs
    · split at hs
      · exact hpool hs
      · obtain rfl := Option.some.inj hs
        exact .of_eq rfl rfl
  · split at hs
    · cases hs
    · obtain rfl := Option.some.inj hs
      exact .of_eq hlink.1 hlink.2
  · rename_i call g b head hpc
    obtain rfl := Option.some.inj hs
    cases head <;> exact .of_eq rfl rfl
  · cases hs

theorem removeCurBlock_oversize (s : State) (t : ℕ) : (removeCurBlock s t).oversize = s.oversize ∧
    (removeCurBlock s t).oversizeIndex = s.oversizeIndex := by
  unfold removeCurBlock
  split <;> exact ⟨rfl, rfl⟩

theorem KeepsBuffers.remove : KeepsBuffers s (removeCurBlock s t) :=
  .of_eq (removeCurBlock_oversize s t).1 (removeCurBlock_oversize s t).2

theorem hpStep_oversize {c : Choice} (hs : hpStep cfg s t c = some s') : KeepsBuffers s s' := by
  unfold hpStep at hs
  split at hs
  · split at hs
    · obtain rfl := Option.some.inj hs
      exact .of_eq rfl rfl
    · split at hs <;> obtain rfl := Option.some.inj hs <;> exact .of_eq rfl rfl
  · split at hs
    · obtain rfl := Option.some.inj hs
      exact .of_eq rfl rfl
    · obtain rfl := Option.some.inj hs
      exact .of_eq rfl rfl
    · obtain rfl := Option.some.inj hs
      exact .of_eq rfl rfl
    · cases hs
  · obtain rfl := Option.some.inj hs
    exact KeepsBuffers.remove
  · cases hs

theorem lpStep_oversize {c : Choice} (hs : lpStep cfg s t c = some s') : KeepsBuffers s s' := by
  unfold lpStep at hs
  split at hs
  · split at hs
    · obtain rfl := Option.some.inj hs
      exact .of_eq rfl rfl
    · obtain rfl := Option.some.inj hs
      exact .of_eq rfl rfl
    · obtain rfl := Option.some.inj hs
      exact .of_eq rfl rfl
    · cases hs
  · split at hs
    · obtain rfl := Option.some.inj hs
      exact .of_eq rfl rfl
    · obtain rfl := Option.some.inj hs
      exact .of_eq rfl rfl
    · split at hs
      · obtain rfl := Option.some.inj hs
        exact .of_eq rfl rfl
      · cases hs
    · cases hs
  · obtain rfl := Option.some.inj hs
    unfold lpFailedStep
    split
    · split
      · exact .of_eq rfl rfl
      · exact KeepsBuffers.remove
    · exact .of_eq rfl rfl
    · exact .of_eq rfl rfl
  · obtain rfl := Option.some.inj hs
    exact KeepsBuffers.remove
  · cases hs

/-- Locks and marks of oversize buffers change. -/
theorem bufferView_map {f : OversizeBuffer → OversizeBuffer} (l : List OversizeBuffer)
    (h : ∀ buf, (f buf).index = buf.index ∧ (f buf).chunks = buf.chunks) :
    bufferView (l.map f) = bufferView l := by
  rw [bufferView, bufferView, List.map_map]
  refine List.map_congr_left fun buf _ => ?_
  rw [Function.comp_apply, (h buf).1, (h buf).2]

theorem bufferView_lockOversize (s : State) (i t : ℕ) :
    bufferView (lockOversize s i t).oversize = bufferView s.oversize := by
  refine List.ext_getElem? fun j => ?_
  simp only [bufferView, lockOversize, List.getElem?_map, List.getElem?_modify]
  cases s.oversize[j]? with
  | none => rfl
  | some buf => by_cases h : i = j <;> simp [h]

theorem oversizeStep_oversize {c : Choice} (hs : oversizeStep s t c = some s') : KeepsBuffers s s' := by
  unfold oversizeStep at hs
  split at hs
  · obtain rfl := Option.some.inj hs
    exact KeepsBuffers.remove
  · split at hs
    · obtain rfl := Option.some.inj hs
      exact .of_eq rfl rfl
    · cases hs
  · split at hs
    · obtain rfl := Option.some.inj hs
      exact .of_eq rfl rfl
    · split at hs <;> obtain rfl := Option.some.inj hs
      · exact .inl ⟨bufferView_lockOversize s _ t, le_refl _⟩
      · exact .of_eq rfl rfl
  · split at hs
    · obtain rfl := Option.some.inj hs
      exact .of_eq rfl rfl
    · cases hs
  · split at hs <;> obtain rfl := Option.some.inj hs
    · refine .inr ⟨?_, rfl⟩
      change bufferView (s.oversize ++ _) = _
      rw [bufferView, List.map_append]
      rfl
    · exact .inl ⟨rfl, Nat.le_succ _⟩
  · obtain rfl := Option.some.inj hs
    exact .of_eq rfl rfl
  · obtain rfl := Option.some.inj hs
    refine .inl ⟨bufferView_map s.oversize fun buf => ?_, le_refl _⟩
    split <;> exact ⟨rfl, rfl⟩
  · obtain rfl := Option.some.inj hs
    exact .of_eq rfl rfl
  · cases hs

theorem exitStep_oversize (hs : exitStep s t = some s') : KeepsBuffers s s' := by
  unfold exitStep at hs
  split at hs
  · split at hs
    · obtain rfl := Option.some.inj hs
      exact .of_eq rfl rfl
    · cases hs
  · obtain rfl := Option.some.inj hs
    refine .inl ⟨bufferView_map s.oversize fun buf => ?_, le_refl _⟩
    split <;> exact ⟨rfl, rfl⟩
  · split at hs
    · cases hs
    · obtain rfl := Option.some.inj hs
      exact .of_eq rfl rfl
  · obtain rfl := Option.some.inj hs
    exact .of_eq rfl rfl
  · cases hs

/-- A step of a writer other than a commit: it holds no record, and the oversize buffers keep their
chunks. -/
theorem quiet_of_not_commit {a : Act} (ha : a.writer = some t) (hc : ∀ payload, a ≠ .commit t payload)
    (hs : step cfg s a = some s') : KeepsBuffers s s' ∧
      (∀ n, (s.tls t).pc ≠ .holdingLp n) ∧ ∀ n, (s.tls t).pc ≠ .holdingHp n := by
  cases a with
  | alloc t' call =>
    obtain rfl : t' = t := by simpa [Act.writer] using ha
    simp only [step] at hs
    split at hs
    · rename_i hpc
      split at hs
      · obtain rfl := Option.some.inj hs
        exact ⟨.of_eq rfl rfl, by simp [hpc], by simp [hpc]⟩
      · cases hs
    · cases hs
  | write t' c =>
    obtain rfl : t' = t := by simpa [Act.writer] using ha
    refine ⟨?_, fun n hpc => ?_, fun n hpc => ?_⟩
    · simp only [step, writerStep] at hs
      split at hs
      all_goals first
        | exact newBlockStep_oversize hs
        | exact hpStep_oversize hs
        | exact lpStep_oversize hs
        | exact oversizeStep_oversize hs
        | exact exitStep_oversize hs
        | cases hs
    · simp [step, writerStep, hpc] at hs
    · simp [step, writerStep, hpc] at hs
  | commit t' payload =>
    obtain rfl : t' = t := by simpa [Act.writer] using ha
    exact absurd rfl (hc payload)
  | exit t' =>
    obtain rfl : t' = t := by simpa [Act.writer] using ha
    simp only [step] at hs
    split at hs
    · rename_i hpc
      obtain rfl := Option.some.inj hs
      exact ⟨.of_eq rfl rfl, by simp [hpc], by simp [hpc]⟩
    · cases hs
  | readChunk | read | returnReadChunk => cases ha

theorem quiet_left {e : Effect} (lent : Lent) (F : Finset ℕ) (h : Owned s) (ha : Acts s s' t e)
    (hb : KeepsBuffers s s') (hlp : ∀ n, (s.tls t).pc ≠ .holdingLp n)
    (hhp : ∀ n, (s.tls t).pc ≠ .holdingHp n) : s'.leftOf lent F ≤ s.leftOf lent F := by
  refine add_le_add (add_le_add (ring_quiet lent h ha hlp) ?_) (hb.chunkData_eq lent).le
  exact blockData_le F fun b => block_quiet ha hhp b

/-- The commit of a record makes one chunk of the ring a record. -/
theorem ringData_commit_le {size : ℕ} {data : List UInt8} {l : List Slot}
    (hcount : l.countP (fun sl => sl.owner = some t) ≤ 1)
    (hsuits : ∀ sl ∈ l, sl.owner = some t → sl.Suits (.granted size false false)) :
    ringData (l.map (Slot.commit t data)) ≤ ringData l + {data.take (size - contextSize)} := by
  induction l with
  | nil => exact Multiset.zero_le _
  | cons sl l ih =>
    rw [List.map_cons, ringData_cons, ringData_cons]
    by_cases ho : sl.owner = some t
    · -- the others are not open for this writer
      have hzero : ∀ x ∈ l, x.owner ≠ some t := fun x hx hx' => by
        rw [List.countP_cons_of_pos (by simpa using ho)] at hcount
        have : l.countP (fun sl => sl.owner = some t) = 0 := by omega
        exact List.countP_eq_zero.mp this x hx (by simpa using hx')
      rw [ringData_map fun x hx => by rw [commit_owner (hzero x hx)], add_comm, add_comm sl.record, add_assoc]
      refine add_le_add_right ?_ _
      cases sl with
      | granted owner size' c =>
        obtain rfl : owner = t := Option.some.inj ho
        have hs := hsuits _ List.mem_cons_self rfl
        injection hs with hsize hf he
        simp [Slot.commit, Slot.record, ← hsize, ← hf, ← he]
      | reserved => cases hsuits _ List.mem_cons_self ho
      | void | committed => cases ho
    · rw [commit_owner ho, add_assoc]
      refine add_le_add_right (ih ?_ fun x hx => hsuits x (List.mem_cons_of_mem _ hx)) _
      rwa [List.countP_cons_of_neg (by simpa using ho)] at hcount

theorem blockData_push_le (block : ℕ → Block) (b : ℕ) (payload : List UInt8) (F : Finset ℕ) :
    blockData (Function.update block b { block b with records := (block b).records ++ [payload] }) F ≤
      blockData block F + {payload} := by
  rw [blockData, blockData]
  by_cases hb : b ∈ F
  · rw [← Finset.add_sum_erase F _ hb, ← Finset.add_sum_erase F _ hb, Function.update_self]
    have hrest : ∀ x ∈ F.erase b, ((Function.update block b { block b with
        records := (block b).records ++ [payload] } x).records : Multiset (List UInt8)) =
        ((block x).records : Multiset (List UInt8)) := fun x hx => by
      rw [Function.update_of_ne (Finset.ne_of_mem_erase hx)]
    rw [Finset.sum_congr rfl hrest, ← Multiset.coe_add, Multiset.coe_singleton, add_right_comm]
  · have hsame : ∀ x ∈ F, ((Function.update block b { block b with
        records := (block b).records ++ [payload] } x).records : Multiset (List UInt8)) =
        ((block x).records : Multiset (List UInt8)) := fun x hx => by
      have hne : x ≠ b := by
        rintro rfl
        exact hb hx
      rw [Function.update_of_ne hne]
    rw [Finset.sum_congr rfl hsame]
    exact Multiset.le_add_right _ _

theorem State.leftOf_ring {lent : Lent} {x : Multiset (List UInt8)} (hblock : s'.block = s.block)
    (hoversize : s'.oversize = s.oversize)
    (h : ringData (lent.slots s'.lp) ≤ ringData (lent.slots s.lp) + x) :
    s'.leftOf lent F ≤ s.leftOf lent F + x := by
  rw [leftOf, leftOf, hblock, hoversize, add_right_comm _ _ x, add_right_comm _ _ x]
  exact add_le_add_left (add_le_add_left h _) _

theorem State.leftOf_block {lent : Lent} {x : Multiset (List UInt8)} (hlp : s'.lp = s.lp)
    (hoversize : s'.oversize = s.oversize) (h : blockData s'.block F ≤ blockData s.block F + x) :
    s'.leftOf lent F ≤ s.leftOf lent F + x := by
  rw [leftOf, leftOf, hlp, hoversize, add_right_comm _ _ x, add_assoc _ _ x]
  exact add_le_add_left (add_le_add_right h _) _

theorem State.leftOf_chunk {lent : Lent} {x : Multiset (List UInt8)} (hlp : s'.lp = s.lp)
    (hblock : s'.block = s.block)
    (h : chunkData (lent.buffers s'.oversize) ≤ chunkData (lent.buffers s.oversize) + x) :
    s'.leftOf lent F ≤ s.leftOf lent F + x := by
  rw [leftOf, leftOf, hlp, hblock, add_assoc _ _ x]
  exact add_le_add_right h _

/-- The room of a chunk is that of its record. -/
theorem take_room {payload : List UInt8} (h : payload.length + contextSize < 2 ^ 32) :
    payload.take ((payload.length + contextSize) % 2 ^ 32 - contextSize) = payload := by
  rw [Nat.mod_eq_of_lt h, Nat.add_sub_cancel, List.take_length]

/-- `commit_write_chunk` adds one record to the stores. -/
theorem commit_left {payload : List UInt8} (lent : Lent) (F : Finset ℕ) (h : Owned s) (hn : Named s)
    (hfit : payload.length + contextSize < 2 ^ 32) (hs : commitWriteChunk s t payload = some s') :
    s'.leftOf lent F ≤ s.leftOf lent F + {payload} ∧ Named s' := by
  unfold commitWriteChunk at hs
  split at hs <;> rename_i hpc
  · split at hs
    · cases hs
    · rename_i b _
      split at hs
      · obtain rfl := Option.some.inj hs
        refine ⟨?_, ⟨hn.nodup, hn.le⟩⟩
        exact State.leftOf_block rfl rfl (blockData_push_le s.block b payload F)
      · cases hs
  · split at hs
    · rename_i hsize
      obtain rfl := Option.some.inj hs
      refine ⟨?_, ⟨hn.nodup, hn.le⟩⟩
      have hring : ringData (lent.slots (s.lp.map (Slot.commit t payload))) ≤
          ringData (lent.slots s.lp) + {payload} := by
        rw [lent.slots_map]
        conv_rhs => rw [← take_room hfit]
        refine ringData_commit_le (((lent.slots_sublist _).countP_le).trans (h.once t)) fun sl hsl ho => ?_
        have := h.suits sl ((lent.slots_sublist _).subset hsl) t ho
        rwa [hpc, WriterPc.openSlot, ← hsize] at this
      exact State.leftOf_ring rfl rfl hring
    · cases hs
  · split at hs
    · rename_i size buffer hsize
      obtain rfl := Option.some.inj hs
      subst hsize
      have hpush : (modifyOversize s buffer fun buf => { buf with chunks := buf.chunks ++
          [⟨(payload.length + contextSize) % 2 ^ 32, oversizeContext s t,
            payload.take ((payload.length + contextSize) % 2 ^ 32 - contextSize)⟩] }).oversize =
          pushChunk buffer ⟨(payload.length + contextSize) % 2 ^ 32, oversizeContext s t, payload⟩
            s.oversize := by
        rw [modifyOversize, pushChunk, take_room hfit]
      refine ⟨?_, ?_⟩
      · refine State.leftOf_chunk rfl rfl ?_
        change chunkData (lent.buffers (modifyOversize s buffer _).oversize) ≤ _
        rw [hpush]
        exact chunkData_pushChunk_le lent hn.nodup
      · have hnames : (modifyOversize s buffer fun buf => { buf with chunks := buf.chunks ++
            [⟨(payload.length + contextSize) % 2 ^ 32, oversizeContext s t,
              payload.take ((payload.length + contextSize) % 2 ^ 32 - contextSize)⟩] }).oversize.map
            OversizeBuffer.index = s.oversize.map OversizeBuffer.index := by
          rw [modifyOversize, List.map_map]
          refine List.map_congr_left fun buf _ => ?_
          rw [Function.comp_apply]
          split <;> rfl
        exact ⟨hnames ▸ hn.nodup, hnames ▸ hn.le⟩
    · cases hs
  · cases hs

/-! ## Steps of the reader -/

theorem blockData_pop (block : ℕ → Block) {b : ℕ} {payload : List UInt8} {rest : List (List UInt8)}
    (F : Finset ℕ) (h : (block b).records = payload :: rest) :
    {payload} + blockData (Function.update block b { block b with records := rest }) F ≤
      blockData block (insert b F) := by
  have hself : ((block b).records : Multiset (List UInt8)) = {payload} + (rest : Multiset (List UInt8)) := by
    rw [h, ← Multiset.cons_coe, ← Multiset.singleton_add]
  have hrest : ∀ x ∈ F.erase b, ((Function.update block b { block b with records := rest } x).records :
      Multiset (List UInt8)) = ((block x).records : Multiset (List UInt8)) := fun x hx => by
    rw [Function.update_of_ne (Finset.ne_of_mem_erase hx)]
  rw [blockData, blockData, ← Finset.insert_erase (Finset.mem_insert_self b F), Finset.erase_insert_eq_erase,
    Finset.sum_insert (Finset.notMem_erase b F), hself, add_assoc]
  refine add_le_add_right ?_ _
  by_cases hb : b ∈ F
  · rw [← Finset.add_sum_erase F _ hb, Finset.sum_congr rfl hrest, Function.update_self]
  · rw [Finset.erase_eq_of_notMem hb] at hrest ⊢
    rw [Finset.sum_congr rfl hrest]
    exact Multiset.le_add_left _ _

theorem Still.leftOf_eq (h : Still s s') (lent : Lent) (F : Finset ℕ) :
    s'.leftOf lent F = s.leftOf lent F := by
  have hblock : blockData s'.block F = blockData s.block F :=
    Finset.sum_congr rfl fun b _ => by rw [h.records]
  rw [State.leftOf, State.leftOf, h.lp, hblock, h.oversize]

/-- The stores lose what the effect hands out. -/
theorem ReaderEffect.stored_le {e : ReaderEffect} {pc' : ReaderPc} (h : e.Leads s pc') (F : Finset ℕ) :
    (e.apply s).leftOf .none F ≤ s.leftOf .none F := by
  cases e with
  | move | handLp | handOversize | lockArray | lockRecycle | unlockRecycle | group | unlinkGroup | pushPool =>
    exact le_refl _
  | pop | missOversize =>
    exact add_le_add_left (add_le_add_left (ringData_sublist ((List.tail_sublist _).drop _)) _) _
  | handHp b rest d =>
    obtain ⟨-, -, -, -, -, hrec⟩ := h
    refine add_le_add_left (add_le_add_right (blockData_le F fun x => ?_) _) _
    rcases eq_or_ne x b with rfl | hne
    · change ((Function.update s.block x { s.block x with records := rest }) x).records.Sublist _
      rw [Function.update_self, hrec]
      exact List.sublist_cons_self _ _
    · change ((Function.update s.block b { s.block b with records := rest }) x).records.Sublist _
      rw [Function.update_of_ne hne]
  | returnOversize index => exact add_le_add_right (chunkData_returnFirst_le index s.oversize) _
  | oversize l => exact add_le_add_right h.2.2.2.1 _

/-- What the caller holds moves from the stores to what was handed out. -/
theorem ReaderEffect.left_le {e : ReaderEffect} {pc' : ReaderPc} (h : e.Leads s pc') (F : Finset ℕ) :
    ∃ G, (e.apply s).handed + (e.apply s).leftOf pc'.lent F ≤ s.handed + s.leftOf s.rt.pc.lent G := by
  have hsame : pc'.lent = .none → s.rt.pc.lent = .none → (e.apply s).handed = s.handed →
      ∃ G, (e.apply s).handed + (e.apply s).leftOf pc'.lent F ≤ s.handed + s.leftOf s.rt.pc.lent G := by
    intro h1 h2 h3
    rw [h1, h2, h3]
    exact ⟨F, add_le_add_right (ReaderEffect.stored_le h F) _⟩
  have hhand : ∀ {d : Delivery}, (s.delivered ++ [d]).map Delivery.payload =
      s.delivered.map Delivery.payload ++ [d.payload] := by simp
  cases e with
  | move => exact hsame h.2.1 h.2.2 rfl
  | lockArray => exact hsame h.2.2.2.1 h.2.2.2.2 rfl
  | missOversize => exact hsame h.2.2.1 h.2.2.2 rfl
  | lockRecycle => exact hsame h.2.2.2.2.1 h.2.2.2.2.2 rfl
  | unlockRecycle => exact hsame h.2.2.1 h.2.2.2 rfl
  | oversize => exact hsame h.2.1 h.2.2.1 rfl
  | group => exact hsame h.2.2.1 h.2.2.2.1 rfl
  | unlinkGroup => exact hsame h.2.2.1 h.2.2.2.1 rfl
  | pushPool => exact hsame h.2.2.1 h.2.2.2.1 rfl
  | pop =>
    obtain ⟨-, -, hlent', hlent | hlent⟩ := h
    · exact hsame hlent' hlent rfl
    · refine ⟨F, le_of_eq ?_⟩
      rw [hlent', hlent]
      simp [State.leftOf, ReaderEffect.apply, popSlot, Lent.slots, Lent.buffers, State.handed]
  | handLp d =>
    obtain ⟨-, -, hlent', hlent, size, c, rest, hlp, hf, he⟩ := h
    refine ⟨F, le_of_eq ?_⟩
    rw [hlent', hlent, State.handed, State.handed, ReaderEffect.apply, hhand, ← Multiset.coe_add, add_assoc]
    refine congrArg _ ?_
    simp only [State.leftOf, Lent.slots, Lent.buffers, hlp, if_true, List.drop_succ_cons, List.drop_zero,
      reduceCtorEq, if_false, ringData_cons, Slot.record, hf, he, Bool.or_self, Bool.false_eq_true,
      Multiset.coe_singleton, add_assoc]
  | handHp b rest d =>
    obtain ⟨-, -, hlent', hlent, -, hrec⟩ := h
    refine ⟨insert b F, ?_⟩
    rw [hlent', hlent, State.handed, State.handed, ReaderEffect.apply, hhand, ← Multiset.coe_add, add_assoc]
    refine add_le_add_right ?_ _
    have hshuffle : ∀ x y z w : Multiset (List UInt8), x + (y + z + w) = y + (x + z) + w :=
      fun x y z w => by abel
    rw [State.leftOf, State.leftOf, Multiset.coe_singleton, hshuffle]
    exact add_le_add_left (add_le_add_right (blockData_pop s.block F hrec) _) _
  | handOversize d =>
    obtain ⟨-, -, hlent, i, buf, c, rest, hbuf, hchunks, hd, hlent'⟩ := h
    refine ⟨F, ?_⟩
    rw [hlent', hlent, State.handed, State.handed, ReaderEffect.apply, hhand, ← Multiset.coe_add, add_assoc]
    refine add_le_add_right ?_ _
    rw [State.leftOf, State.leftOf, add_comm, add_assoc]
    refine add_le_add_right ?_ _
    rw [Multiset.coe_singleton, hd]
    exact chunkData_handOut hbuf hchunks
  | returnOversize index =>
    obtain ⟨-, -, hlent', hlent⟩ := h
    refine ⟨F, le_of_eq ?_⟩
    rw [hlent', hlent]
    simp [State.leftOf, ReaderEffect.apply, Lent.slots, Lent.buffers, State.handed, returnFirst]

theorem Owned.reads {e : ReaderEffect} (ho : Owned s) (h : Reads s s' e) : Owned s' := by
  obtain ⟨hst, hleads⟩ := h
  have hpc : ∀ t, (s'.tls t).pc.openSlot = (s.tls t).pc.openSlot := fun t => by
    rw [hst.pcs]
    cases e <;> rfl
  refine ho.sublist ?_ hpc
  rw [hst.lp]
  cases e with
  | pop | missOversize => exact List.tail_sublist _
  | _ => exact List.Sublist.refl _

theorem Named.reads {e : ReaderEffect} (hn : Named s) (h : Reads s s' e) : Named s' := by
  obtain ⟨hst, hleads⟩ := h
  have hi : s'.oversizeIndex = s.oversizeIndex := by
    rw [hst.oversizeIndex]
    cases e <;> rfl
  have hsub : (s'.oversize.map OversizeBuffer.index).Subperm (s.oversize.map OversizeBuffer.index) := by
    rw [hst.oversize]
    cases e with
    | oversize => exact hleads.2.2.2.2
    | returnOversize index =>
      refine List.Perm.subperm (List.Perm.of_eq ?_)
      simp only [ReaderEffect.apply, List.map_map]
      refine List.map_congr_left fun buf _ => ?_
      rw [Function.comp_apply]
      split <;> rfl
    | _ => exact List.Subperm.refl _
  refine ⟨?_, fun i hin => hi ▸ hn.le i (hsub.subset hin)⟩
  obtain ⟨l, hl, hsl⟩ := hsub
  exact hl.nodup_iff.mp (hn.nodup.sublist hsl)

/-! ## All lives -/

/-- The invariant: the records in the stores, and those handed out with those left, are no more than the
records that were committed. -/
structure Conserved (total : Multiset (List UInt8)) (s : State) : Prop where
  owned : Owned s
  named : Named s
  stored : ∀ F, s.leftOf .none F ≤ total
  left : ∀ F, s.handed + s.leftOf s.rt.pc.lent F ≤ total

theorem Conserved.writer {total : Multiset (List UInt8)} {a : Act} (h : Conserved total s) (hw : Whole s)
    (ha : a.writer = some t) (hfit : a.Fits) (hs : step cfg s a = some s') :
    Conserved (total + a.record) s' := by
  obtain ⟨e, he⟩ := writer_effect hw.shape.lists hw.pool ha hs
  have hframe := (writer_frame hw.shape.lists ha hs).2.1
  have hleft : (∀ lent F, s'.leftOf lent F ≤ s.leftOf lent F + a.record) ∧ Named s' := by
    by_cases hc : ∃ payload, a = .commit t payload
    · obtain ⟨payload, rfl⟩ := hc
      exact ⟨fun lent F => (commit_left lent F h.owned h.named hfit hs).1,
        (commit_left .none ∅ h.owned h.named hfit hs).2⟩
    · obtain ⟨hb, hlp, hhp⟩ := quiet_of_not_commit ha (fun payload hp => hc ⟨payload, hp⟩) hs
      exact ⟨fun lent F => (quiet_left lent F h.owned he hb hlp hhp).trans (Multiset.le_add_right _ _),
        hb.named h.named⟩
  refine ⟨h.owned.writer he hframe, hleft.2, fun F => ?_, fun F => ?_⟩
  · exact (hleft.1 .none F).trans (add_le_add_left (h.stored F) _)
  · rw [State.handed, hframe.delivered, hframe.rt]
    refine (add_le_add_right (hleft.1 _ F) _).trans ?_
    rw [← add_assoc]
    exact add_le_add_left (h.left F) _

theorem Conserved.reads {total : Multiset (List UInt8)} {e : ReaderEffect} (h : Conserved total s)
    (he : Reads s s' e) : Conserved total s' := by
  refine ⟨h.owned.reads he, h.named.reads he, fun F => ?_, fun F => ?_⟩ <;> obtain ⟨hst, hleads⟩ := he
  · rw [hst.leftOf_eq]
    exact (ReaderEffect.stored_le hleads F).trans (h.stored F)
  · obtain ⟨G, hG⟩ := ReaderEffect.left_le hleads F
    rw [hst.leftOf_eq, State.handed, hst.delivered]
    exact hG.trans (h.left G)

theorem fixSlot_record (version : Version) (sl : Slot) : (fixSlot version sl).record = sl.record := by
  cases sl with
  | committed size c data =>
    simp only [fixSlot, Slot.record, fixContext]
    split <;> rfl
  | reserved | granted | void => rfl

theorem fixSlot_owner (version : Version) (sl : Slot) : (fixSlot version sl).owner = sl.owner := by
  cases sl <;> rfl

/-- The ring of a log buffer opened from files: it holds settled chunks only. -/
theorem settled_owner {l : List Slot} {sl : Slot} (h : sl ∈ settledSlots l) : sl.owner = none := by
  have hs := List.mem_takeWhile_imp h
  cases sl with
  | void | committed => rfl
  | reserved | granted => cases hs

theorem loadBlock_records (version : Version) (grp : Group) (blk : Block) (b : ℕ) :
    (loadBlock version grp blk b).records.Sublist blk.records := by
  unfold loadBlock
  split
  · exact List.Sublist.refl _
  · exact List.nil_sublist _

theorem chunkData_sublist {l l' : List OversizeBuffer} (h : l.Sublist l') : chunkData l ≤ chunkData l' := by
  induction h with
  | slnil => exact le_refl _
  | cons buf _ ih =>
    rw [chunkData_cons]
    exact ih.trans (Multiset.le_add_left _ _)
  | cons_cons buf _ ih =>
    rw [chunkData_cons, chunkData_cons]
    exact add_le_add_right ih _

theorem chunkData_perm {l l' : List OversizeBuffer} (h : l.Perm l') : chunkData l = chunkData l' :=
  (h.map _).sum_eq

/-- A log buffer that is opened holds no more than its files. -/
theorem Conserved.reopen {total : Multiset (List UInt8)} {rejected : Bool} (h : Conserved total s)
    (hs : Reopens s s' rejected) : Conserved total s' := by
  obtain ⟨groups, oversize, v, -, hperm, rfl⟩ := hs
  -- what the two kinds of openings have in common
  suffices hopen : ∀ img : Image, (img.lp = settledSlots s.lp ∨ img.lp = []) → img.block = s.block →
      img.oversize = oversize → img.oversizeIndex = s.oversizeIndex →
      Conserved total (State.opened img v) by
    split
    · exact hopen _ (.inr rfl) rfl rfl rfl
    · exact hopen _ (.inl rfl) rfl rfl rfl
  intro img hlp hblock hover hindex
  have hmem : ∀ sl ∈ (State.opened img v).lp, sl.owner = none := by
    intro sl hsl
    obtain ⟨x, hx, rfl⟩ := List.mem_map.mp hsl
    rw [fixSlot_owner]
    rcases hlp with hlp | hlp <;> rw [hlp] at hx
    · exact settled_owner hx
    · cases hx
  have hnames : ((State.opened img v).oversize.map OversizeBuffer.index).Sublist
      (oversize.map OversizeBuffer.index) := by
    change ((List.map _ (img.oversize.filter _)).map _).Sublist _
    rw [List.map_map, hover]
    exact (List.filter_sublist).map _
  have hperm' := hperm.map OversizeBuffer.index
  have hstored : ∀ F, (State.opened img v).leftOf .none F ≤ total := fun F => by
    refine le_trans (add_le_add (add_le_add ?_ ?_) ?_) (h.stored F)
    · change ringData (img.lp.map _) ≤ ringData s.lp
      rw [ringData_map fun sl _ => fixSlot_record _ sl]
      rcases hlp with hlp | hlp <;> rw [hlp]
      · exact ringData_sublist (List.takeWhile_sublist _)
      · exact Multiset.zero_le _
    · refine blockData_le F fun b => ?_
      simp only [State.opened, hblock]
      split
      · exact loadBlock_records _ _ _ b
      · exact List.nil_sublist _
    · change chunkData (List.map _ (img.oversize.filter _)) ≤ chunkData s.oversize
      have hview : bufferView (List.map (fun buf : OversizeBuffer => { buf with
          isThreadFinished := false, readers := [] }) (img.oversize.filter
            (loadsOversize (img.savedVersion + 1)))) =
          bufferView (img.oversize.filter (loadsOversize (img.savedVersion + 1))) :=
        bufferView_map _ fun _ => ⟨rfl, rfl⟩
      rw [← chunkData_perm hperm, ← hover]
      exact (chunkData_view .none hview).le.trans (chunkData_sublist List.filter_sublist)
  refine ⟨⟨fun t => ?_, fun sl hsl t ht => ?_⟩, ⟨?_, fun i hin => ?_⟩, hstored, fun F => ?_⟩
  · refine (List.countP_eq_zero.mpr fun sl hsl hp => ?_).le.trans (Nat.zero_le 1)
    rw [hmem sl hsl] at hp
    cases hp
  · rw [hmem sl hsl] at ht
    cases ht
  · exact (hperm'.nodup_iff.mpr h.named.nodup).sublist hnames
  · change i ≤ img.oversizeIndex
    rw [hindex]
    exact h.named.le i (hperm'.subset (hnames.subset hin))
  · rw [State.handed]
    exact (zero_add _).le.trans (hstored F)

theorem Conserved.of_created (h : s.Created cfg) : Conserved 0 s := by
  have hblank : ∀ s : State, s.lp = [] → (∀ b, s.block b = Block.fresh) → s.oversize = [] →
      s.delivered = [] → s.rt.pc = .idle → Conserved 0 s := by
    intro s hlp hblock hover hdel hpc
    have hnone : ∀ F, s.leftOf .none F = 0 := fun F => by
      simp [State.leftOf, Lent.slots, Lent.buffers, hlp, hover, ringData, chunkData, blockData, hblock,
        Block.fresh]
    refine ⟨⟨fun t => ?_, fun sl hsl => ?_⟩, ⟨?_, fun i hin => ?_⟩, fun F => (hnone F).le, fun F => ?_⟩
    · simp [hlp]
    · simp [hlp] at hsl
    · simp [hover]
    · simp [hover] at hin
    · rw [State.handed, hdel, hpc]
      exact (zero_add _).le.trans (hnone F).le
  obtain ⟨v, rfl⟩ := h
  split
  · exact hblank _ rfl (fun _ => rfl) rfl rfl rfl
  · exact hblank _ rfl (fun _ => rfl) rfl rfl rfl

theorem Lived.conserved {old new : Multiset (List UInt8)} (h : Lived cfg old new s) :
    Conserved (old + new) s := by
  induction h with
  | create h => exact Conserved.of_created h
  | @step old new s s' a hs hfit hstep ih =>
    have hw := hs.lives.whole
    rw [← add_assoc]
    cases ha : a.writer with
    | some t => exact ih.writer hw ha hfit hstep
    | none =>
      obtain ⟨e, he⟩ := reader_effect hw.shape ha hstep
      have hrecord : a.record = 0 := by
        cases a <;> first | rfl | cases ha
      rw [hrecord, add_zero]
      exact ih.reads he
  | reopen _ _ hs ih =>
    rw [add_zero]
    exact ih.reopen hs

/-- **Conservation of records**: the records handed out in the last life, together with those that the
stores still hold for the reader, are no more than the records committed in this life and the lives before,
each counted as often as it was committed. -/
theorem records_conserved {old new : Multiset (List UInt8)} (h : Lived cfg old new s) (F : Finset ℕ) :
    s.handed + s.left F ≤ old + new := h.conserved.left F

theorem Lived.run {old new : Multiset (List UInt8)} {as : List Act} (h : Lived cfg old new s)
    (hfit : ∀ a ∈ as, a.Fits) (hrun : QLog.run (LogBuffer.step cfg) s as = some s') :
    Lived cfg old (new + (as.map Act.record).sum) s' := by
  induction as generalizing s new with
  | nil =>
    obtain rfl : s = s' := Option.some.inj hrun
    simpa using h
  | cons a as ih =>
    rw [QLog.run, Option.bind_eq_some_iff] at hrun
    obtain ⟨u, hu, hrun⟩ := hrun
    have := ih (h.step (hfit a List.mem_cons_self) hu) (fun b hb => hfit b (List.mem_cons_of_mem _ hb)) hrun
    rwa [add_assoc, ← List.sum_cons, ← List.map_cons] at this

theorem records_conserved_oneRecord : ∃ s : State, s.handed = {[7]} ∧
    ∀ F, s.handed + s.left F ≤ 0 + {[7]} := by
  have hrun : ∃ s, QLog.run (step memoryConfig) (State.created .valid) (oneRecord [7]) = some s ∧
      s.delivered.map Delivery.payload = [[7]] := ⟨_, rfl, rfl⟩
  obtain ⟨s, hs, hd⟩ := hrun
  have hlived : Lived memoryConfig 0 (0 + ((oneRecord [7]).map Act.record).sum) s :=
    (Lived.create ⟨.valid, rfl⟩).run (by decide) hs
  have hrecord : ((oneRecord [7]).map Act.record).sum = {[7]} := by simp [oneRecord, Act.record]
  rw [hrecord, zero_add] at hlived
  exact ⟨s, congrArg _ hd, records_conserved hlived⟩

end QLog.LogBuffer
