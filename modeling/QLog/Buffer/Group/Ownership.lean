import QLog.Buffer.Group.Model

/-!
# Every block has one owner

The invariant of the lists of a group (`Inv`): the lists are chains, the lists and the hands of the
threads are a partition of the blocks, and a thread between its load of a head and its compare-and-swap
knows the head and the link of the first block, unless the head was updated since (`Knows`). A mark that is
found unchanged says so, because the head was updated fewer than `2 ^ 16` times.

Every step of a thread is invisible on the lists, or it is one of the moves (`exists_move`).
-/

namespace QLog.Group

variable {ι : Type*} {n : ℕ} {s s' : State ι} {L L' : Places ι}

/-! ## What the threads know -/

/-- A copy of a head, maybe of an earlier one. -/
structure Copied (h copy : Head) : Prop where
  le : copy.version ≤ h.version
  mark : copy.abaMark % 2 ^ 16 = copy.version % 2 ^ 16
  current : copy.version = h.version → copy.index = h.index

/-- The mark of a head counts its updates. -/
def Head.Marked (h : Head) : Prop := h.abaMark % 2 ^ 16 = h.version % 2 ^ 16

namespace Copied

variable {h copy : Head}

theorem refl (hmark : h.Marked) : Copied h h := ⟨le_rfl, hmark, fun _ => rfl⟩

/-- The copy of an updated head is an earlier one. -/
theorem updated (hc : Copied h copy) {h' : Head} (hlt : h.version < h'.version) : Copied h' copy :=
  ⟨hc.le.trans hlt.le, hc.mark, fun heq => absurd hc.le (by omega)⟩

/-- **A mark found unchanged**: the head was not updated since. -/
theorem version_eq (hc : Copied h copy) (hmark : h.Marked) (heq : h.abaMark = copy.abaMark)
    (hfew : h.version < copy.version + 2 ^ 16) : copy.version = h.version := by
  have hle := hc.le
  have hcopy := hc.mark
  unfold Head.Marked at hmark
  omega

end Copied

/-- What a compare-and-swap does. -/
theorem cas_cases (h copy : Head) (desired : Option ℕ) :
    (h.index = copy.index ∧ h.abaMark = copy.abaMark ∧
      h.cas copy desired = some ⟨desired, (copy.abaMark + 1) % 2 ^ 16, h.version + 1⟩) ∨
    h.cas copy desired = none := by
  unfold Head.cas
  split
  · rename_i heq
    exact .inl ⟨heq.1, heq.2, rfl⟩
  · exact .inr rfl

/-- The new head is marked again. -/
theorem marked_cas {h copy : Head} {desired : Option ℕ} (hmark : h.Marked) (heq : h.abaMark = copy.abaMark) :
    Head.Marked ⟨desired, (copy.abaMark + 1) % 2 ^ 16, h.version + 1⟩ := by
  unfold Head.Marked at hmark ⊢
  dsimp only
  omega

/-- What a writer knows between its actions. -/
def Writer.Knows (next : ℕ → Option ℕ) (free : Head) : Writer → Prop
  | .idle | .pushLoad _ | .pushLink _ _ => True
  | .popLink copy => copy.index ≠ none ∧ Copied free copy
  | .popCas copy desired => copy.index ≠ none ∧ Copied free copy ∧
      (copy.version = free.version → copy.index.bind next = desired)
  | .pushCas b copy => next b = copy.index

/-- Where the reader stands on the used list: its last block is in front of the current one, or its visit
ended with the removal of the current block. -/
def OnUsed (U : List ℕ) (lastBlock : Option ℕ) (marked : Bool) : Option ℕ → Prop
  | none => lastBlock = none
  | some c => Follows U lastBlock (some c) ∨ lastBlock = some c ∧ c ∈ U ∧ marked = false

/-- The position of the reader in a state. -/
def State.OnUsed (s : State ι) (U : List ℕ) : Prop :=
  Group.OnUsed U s.lastBlock s.isBlockMarkedRemoved s.curBlock

/-- What the reader knows between its actions. -/
def State.ReaderKnows (s : State ι) (U : List ℕ) : Prop :=
  match s.reader with
  | .idle => s.OnUsed U
  | .popLoad => s.OnUsed U ∧ Follows U s.curBlock none
  | .popLink copy => s.OnUsed U ∧ Follows U s.curBlock none ∧ copy.index ≠ none ∧ Copied s.stage copy
  | .popCas copy desired => s.OnUsed U ∧ Follows U s.curBlock none ∧ copy.index ≠ none ∧
      Copied s.stage copy ∧ (copy.version = s.stage.version → copy.index.bind s.next = desired)
  | .insertLink _ => s.OnUsed U ∧ Follows U s.curBlock none
  | .insertHook b => s.OnUsed U ∧ Follows U s.curBlock none ∧ s.next b = none
  | .settle nextBlock => s.OnUsed U ∧ Follows U s.curBlock nextBlock
  | .pushLoad _ nextBlock => Follows U s.lastBlock nextBlock
  | .pushLink _ nextBlock _ => Follows U s.lastBlock nextBlock
  | .pushCas b nextBlock copy => Follows U s.lastBlock nextBlock ∧ s.next b = copy.index
  | .finish nextBlock true => Follows U s.lastBlock nextBlock
  | .finish nextBlock false => s.OnUsed U ∧ Follows U s.curBlock nextBlock

/-- The lists of a state are those of the places, and the hands as well. -/
structure Rep (s : State ι) (L : Places ι) : Prop where
  free : IsChain s.next s.free.index (L .free)
  stage : IsChain s.next s.stage.index (L .stage)
  used : IsChain s.next s.used (L .used)
  writer (i : ι) : L (.writer i) = (s.writers i).hand
  reader : L .reader = s.reader.hand

/-- The invariant. -/
structure Inv (n : ℕ) (s : State ι) (L : Places ι) : Prop where
  rep : Rep s L
  partition : IsPartition (· < n) L
  free : s.free.Marked
  stage : s.stage.Marked
  writer (i : ι) : (s.writers i).Knows s.next s.free
  reader : s.ReaderKnows (L .used)

/-! ## Stores that nobody else looks at -/

/-- The links of the blocks of a list, of the hands, and the heads that the others know. -/
theorem Writer.Knows.frame {next next' : ℕ → Option ℕ} {free free' : Head} {w : Writer}
    (h : w.Knows next free)
    (hfree : (free' = free ∧ ∀ b, free.index = some b → next' b = next b) ∨ free.version < free'.version)
    (hhand : ∀ b ∈ w.hand, next' b = next b) : w.Knows next' free' := by
  cases w with
  | idle => trivial
  | pushLoad b => trivial
  | pushLink b copy => trivial
  | popLink copy =>
    rcases hfree with ⟨rfl, -⟩ | hlt
    · exact h
    · exact ⟨h.1, h.2.updated hlt⟩
  | popCas copy desired =>
    obtain ⟨hindex, hcopied, hlink⟩ := h
    rcases hfree with ⟨rfl, hnext⟩ | hlt
    · refine ⟨hindex, hcopied, fun heq => ?_⟩
      rw [← hlink heq, hcopied.current heq]
      cases hhead : free'.index with
      | none => rfl
      | some b => exact hnext b hhead
    · exact ⟨hindex, hcopied.updated hlt, fun heq => absurd hcopied.le (by omega)⟩
  | pushCas b copy => exact (hhand b List.mem_cons_self).trans h

/-- What the reader knows does not depend on the other links. -/
theorem State.ReaderKnows.frame {U : List ℕ} (h : s.ReaderKnows U) {next' : ℕ → Option ℕ} {free' stage' : Head}
    {writers' : ι → Writer}
    (hstage : (stage' = s.stage ∧ ∀ b, s.stage.index = some b → next' b = s.next b) ∨
      s.stage.version < stage'.version)
    (hhand : ∀ b ∈ s.reader.hand, next' b = s.next b) :
    State.ReaderKnows { s with next := next', free := free', stage := stage', writers := writers' } U := by
  unfold State.ReaderKnows at h ⊢
  dsimp only
  cases hreader : s.reader with
  | idle | popLoad | insertLink b | settle nextBlock | pushLoad b nextBlock | pushLink b nextBlock copy =>
    rw [hreader] at h
    exact h
  | finish nextBlock removed =>
    rw [hreader] at h
    cases removed <;> exact h
  | popLink copy =>
    rw [hreader] at h
    obtain ⟨hon, hend, hindex, hcopied⟩ := h
    refine ⟨hon, hend, hindex, ?_⟩
    rcases hstage with ⟨rfl, -⟩ | hlt
    · exact hcopied
    · exact hcopied.updated hlt
  | popCas copy desired =>
    rw [hreader] at h
    obtain ⟨hon, hend, hindex, hcopied, hlink⟩ := h
    rcases hstage with ⟨rfl, hnext⟩ | hlt
    · refine ⟨hon, hend, hindex, hcopied, fun heq => ?_⟩
      rw [← hlink heq, hcopied.current heq]
      cases hhead : s.stage.index with
      | none => rfl
      | some b => exact hnext b hhead
    · exact ⟨hon, hend, hindex, hcopied.updated hlt, fun heq => absurd hcopied.le (by omega)⟩
  | insertHook b =>
    rw [hreader] at h hhand
    exact ⟨h.1, h.2.1, (hhand b List.mem_cons_self).trans h.2.2⟩
  | pushCas b nextBlock copy =>
    rw [hreader] at h hhand
    exact ⟨h.1, (hhand b List.mem_cons_self).trans h.2⟩

/-! ## One step -/

section Step

variable {next' : ℕ → Option ℕ} {free' stage' : Head} {writers' : ι → Writer}

/-- The first block of a chain is in the list. -/
theorem mem_of_index {next : ℕ → Option ℕ} {p : Option ℕ} {l : List ℕ} (h : IsChain next p l) {b : ℕ}
    (hb : p = some b) : b ∈ l :=
  List.mem_of_head? (h.head?_eq.trans hb)

/-- **The actions of a writer** change the links of the blocks in its hand only. -/
theorem Inv.of_writer (h : Inv n s L) (i : ι) (hpartition : IsPartition (· < n) L')
    (hrep : Rep { s with next := next', free := free', stage := stage', writers := writers' } L')
    (hused : L' .used = L .used) (hnext : ∀ b ∉ L (.writer i), next' b = s.next b)
    (hother : ∀ j ≠ i, writers' j = s.writers j) (hself : (writers' i).Knows next' free')
    (hfree : free' = s.free ∨ s.free.version < free'.version) (hfreeMark : free'.Marked)
    (hstage : stage' = s.stage ∨ s.stage.version < stage'.version) (hstageMark : stage'.Marked) :
    Inv n { s with next := next', free := free', stage := stage', writers := writers' } L' where
  rep := hrep
  partition := hpartition
  free := hfreeMark
  stage := hstageMark
  writer j := by
    rcases eq_or_ne j i with rfl | hj
    · exact hself
    · change (writers' j).Knows next' free'
      rw [hother j hj]
      refine (h.writer j).frame (hfree.imp_left fun heq => ⟨heq, fun b hb => hnext b ?_⟩) fun b hb => hnext b ?_
      · exact h.partition.not_mem (mem_of_index h.rep.free hb) nofun
      · rw [← h.rep.writer j] at hb
        exact h.partition.not_mem hb fun heq => hj (Place.writer.inj heq)
  reader := by
    rw [hused]
    refine h.reader.frame (hstage.imp_left fun heq => ⟨heq, fun b hb => hnext b ?_⟩) fun b hb => hnext b ?_
    · exact h.partition.not_mem (mem_of_index h.rep.stage hb) nofun
    · rw [← h.rep.reader] at hb
      exact h.partition.not_mem hb nofun

/-- **The actions of the reader** change the links of the used list and of the block in its hand only. -/
theorem Inv.of_reader (h : Inv n s L) (hpartition : IsPartition (· < n) L') (hrep : Rep s' L')
    (hwriters : s'.writers = s.writers) (hnext : ∀ b, b ∉ L .reader → b ∉ L .used → s'.next b = s.next b)
    (hfree : s'.free = s.free ∨ s.free.version < s'.free.version) (hfreeMark : s'.free.Marked)
    (hstageMark : s'.stage.Marked) (hknows : s'.ReaderKnows (L' .used)) : Inv n s' L' where
  rep := hrep
  partition := hpartition
  free := hfreeMark
  stage := hstageMark
  reader := hknows
  writer j := by
    rw [hwriters]
    refine (h.writer j).frame (hfree.imp_left fun heq => ⟨heq, fun b hb => ?_⟩) fun b hb => ?_
    · have hmem := mem_of_index h.rep.free hb
      exact hnext b (h.partition.not_mem hmem nofun) (h.partition.not_mem hmem nofun)
    · rw [← h.rep.writer j] at hb
      exact hnext b (h.partition.not_mem hb nofun) (h.partition.not_mem hb nofun)

/-- A list of the group that holds no block whose link changes. -/
theorem chain_frame {next : ℕ → Option ℕ} {p : Option ℕ} {b : ℕ} {q r : Place ι} (hL : IsPartition (· < n) L)
    (h : IsChain next p (L q)) (hb : b ∈ L r) (hqr : r ≠ q) (link : Option ℕ) :
    IsChain (Function.update next b link) p (L q) :=
  h.update_of_not_mem link (hL.not_mem hb hqr)

/-! ### Moves -/

variable [DecidableEq ι]

/-- A move transfers one block. -/
theorem Move.transfer (h : Move L L') (hL : (L .used).Nodup) : ∃ b p q, Transfer L L' b p q := by
  cases h with
  | popFree hfree hhand => exact ⟨_, _, _, .of_update nofun (.of_eq hfree) (.of_eq (by rw [hhand]))⟩
  | pushStage hhand => exact ⟨_, _, _, .of_update nofun (.of_eq hhand) (.of_eq rfl)⟩
  | popStage hstage hhand => exact ⟨_, _, _, .of_update nofun (.of_eq hstage) (.of_eq (by rw [hhand]))⟩
  | pushAfter hhand hprev =>
    refine ⟨_, _, _, .of_update nofun (.of_eq hhand) ?_⟩
    rw [hprev.pushAfter_eq hL]
    exact List.perm_append_singleton _ _
  | remove hhand hprev =>
    exact ⟨_, _, _, .of_update nofun (hprev.perm_removeAfter hL) (.of_eq (by rw [hhand]))⟩
  | pushFree hhand => exact ⟨_, _, _, .of_update nofun (.of_eq hhand) (.of_eq rfl)⟩

theorem Inv.partition_move (h : Inv n s L) (hmove : Move L L') : IsPartition (· < n) L' := by
  obtain ⟨b, p, q, htransfer⟩ := hmove.transfer (h.partition.nodup .used)
  exact htransfer.isPartition h.partition

/-- The hands after an action of one writer. -/
theorem Rep.writer_update (h : Rep s L) {i : ι} {w : Writer} (hself : L' (.writer i) = w.hand)
    (hother : ∀ j ≠ i, L' (.writer j) = L (.writer j)) (j : ι) :
    L' (.writer j) = (Function.update s.writers i w j).hand := by
  rcases eq_or_ne j i with rfl | hj
  · rw [Function.update_self, hself]
  · rw [Function.update_of_ne hj, hother j hj, h.writer j]

/-! ### Writers -/

/-- A writer that changes nothing but its own place in the program. -/
theorem Inv.writer_moves_on (h : Inv n s L) {i : ι} {w : Writer} (hhand : (s.writers i).hand = w.hand)
    (hknows : w.Knows s.next s.free) : Inv n { s with writers := Function.update s.writers i w } L := by
  refine h.of_writer i h.partition ?_ rfl (fun _ _ => rfl) (fun j hj => Function.update_of_ne hj ..) ?_ (.inl rfl)
    h.free (.inl rfl) h.stage
  · exact ⟨h.rep.free, h.rep.stage, h.rep.used,
      h.rep.writer_update ((h.rep.writer i).trans hhand) fun _ _ => rfl, h.rep.reader⟩
  · rw [Function.update_self]
    exact hknows

theorem Inv.writerPop (h : Inv n s L) {i : ι} (hhand : (s.writers i).hand = []) :
    Inv n { s with writers := Function.update s.writers i (writerPop s.free) } L := by
  unfold Group.writerPop
  split
  · exact h.writer_moves_on hhand trivial
  · rename_i hindex
    exact h.writer_moves_on hhand ⟨hindex, .refl h.free⟩

/-- **A writer's action is invisible or a move.** -/
theorem exists_move_writer (h : Inv n s L) (i : ι) (hfew : FewUpdates s (.writer i)) :
    ∃ L', Inv n (writerStep s i) L' ∧ (L' = L ∨ Move L L') := by
  have hknows := h.writer i
  have hhand := h.rep.writer i
  unfold writerStep
  cases hw : s.writers i with
  | idle => exact ⟨L, h.writerPop (by rw [hw]; rfl), .inl rfl⟩
  | popLink copy =>
    rw [hw] at hknows
    exact ⟨L, h.writer_moves_on (by rw [hw]; rfl) ⟨hknows.1, hknows.2, fun _ => rfl⟩, .inl rfl⟩
  | popCas copy desired =>
    rw [hw] at hknows hhand
    obtain ⟨hindex, hcopied, hlink⟩ := hknows
    rcases cas_cases s.free copy desired with ⟨heq, hmark, hcas⟩ | hcas
    · -- The copy is the head, so the link that was read is the second block.
      have hversion := hcopied.version_eq h.free hmark (hfew copy (by rw [hw]; rfl))
      obtain ⟨b, hb⟩ := Option.ne_none_iff_exists'.1 hindex
      have hchain := h.rep.free
      rw [heq, hb] at hchain
      obtain ⟨rest, hrest, hchain⟩ := hchain.exists_cons
      have hdesired : desired = s.next b := by rw [← hlink hversion, hb, Option.bind_some]
      dsimp only
      rw [hcas, hb]
      have hmove : Move L (Function.update (Function.update L .free rest) (.writer i) [b]) := .popFree hrest hhand
      refine ⟨_, h.of_writer i (h.partition_move hmove) ?_ ?_ (fun _ _ => rfl)
        (fun j hj => Function.update_of_ne hj ..) ?_ (.inr (Nat.lt_succ_self _)) (marked_cas h.free hmark)
        (.inl rfl) h.stage, .inr hmove⟩
      · refine ⟨?_, ?_, ?_, h.rep.writer_update ?_ fun j hj => ?_, ?_⟩
        · simpa [hdesired] using hchain
        · simpa using h.rep.stage
        · simpa using h.rep.used
        · simp [writerPopped, Writer.hand]
        · simp [hj]
        · simpa using h.rep.reader
      · simp
      · simp [writerPopped, Writer.Knows]
    · dsimp only
      rw [hcas]
      exact ⟨L, h.writerPop (by rw [hw]; rfl), .inl rfl⟩
  | pushLoad b => exact ⟨L, h.writer_moves_on (by rw [hw]; rfl) trivial, .inl rfl⟩
  | pushLink b copy =>
    rw [hw] at hhand
    have hb : b ∈ L (.writer i) := by simp [hhand, Writer.hand]
    refine ⟨L, h.of_writer i h.partition ?_ rfl (fun c hc => ?_) (fun j hj => Function.update_of_ne hj ..) ?_
      (.inl rfl) h.free (.inl rfl) h.stage, .inl rfl⟩
    · exact ⟨chain_frame h.partition h.rep.free hb nofun _, chain_frame h.partition h.rep.stage hb nofun _,
        chain_frame h.partition h.rep.used hb nofun _, h.rep.writer_update hhand fun _ _ => rfl, h.rep.reader⟩
    · exact Function.update_of_ne (fun hcb : c = b => hc (hcb ▸ hb)) ..
    · simp [Writer.Knows]
  | pushCas b copy =>
    rw [hw] at hknows hhand
    rcases cas_cases s.stage copy (some b) with ⟨heq, hmark, hcas⟩ | hcas
    · dsimp only
      rw [hcas]
      have hmove : Move L (Function.update (Function.update L (.writer i) []) .stage (b :: L .stage)) :=
        .pushStage hhand
      refine ⟨_, h.of_writer i (h.partition_move hmove) ?_ ?_ (fun _ _ => rfl)
        (fun j hj => Function.update_of_ne hj ..) ?_ (.inl rfl) h.free (.inr (Nat.lt_succ_self _))
        (marked_cas h.stage hmark), .inr hmove⟩
      · refine ⟨?_, ?_, ?_, h.rep.writer_update ?_ fun j hj => ?_, ?_⟩
        · simpa using h.rep.free
        · have hlink : s.next b = s.stage.index := hknows.trans heq.symm
          simpa [hlink] using h.rep.stage
        · simpa using h.rep.used
        · simp [Writer.hand]
        · simp [hj]
        · simpa using h.rep.reader
      · simp
      · simp [Writer.Knows]
    · dsimp only
      rw [hcas]
      exact ⟨L, h.writer_moves_on (by rw [hw]; rfl) trivial, .inl rfl⟩

/-! ### The reader -/

omit [DecidableEq ι] in
theorem State.OnUsed.mem {U : List ℕ} (h : s.OnUsed U) {c : ℕ} (hc : s.curBlock = some c) : c ∈ U := by
  unfold State.OnUsed at h
  rw [hc] at h
  exact h.elim Follows.mem_next fun h => h.2.1

omit [DecidableEq ι] in
/-- The reader finds what follows its block. -/
theorem Inv.follows (h : Inv n s L) (hon : s.OnUsed (L .used)) : Follows (L .used) s.curBlock s.following := by
  unfold State.following
  cases hcur : s.curBlock with
  | none => exact h.rep.used.head?_eq
  | some c =>
    obtain ⟨pre, post, hsplit⟩ := List.append_of_mem (hon.mem hcur)
    exact ⟨pre, post, hsplit, (hsplit ▸ h.rep.used).of_append.head?_eq⟩

omit [DecidableEq ι] in
theorem Inv.following_eq (h : Inv n s L) {nextBlock : Option ℕ} (hnext : Follows (L .used) s.curBlock nextBlock) :
    s.following = nextBlock := by
  unfold State.following
  cases hcur : s.curBlock with
  | none => exact h.rep.used.follows_none (hcur ▸ hnext)
  | some c => exact h.rep.used.follows_some (hcur ▸ hnext)

omit [DecidableEq ι] in
/-- A reader that changes nothing but its own place in the program. -/
theorem Inv.reader_moves_on (h : Inv n s L) {r : Reader} (hhand : s.reader.hand = r.hand)
    (hknows : State.ReaderKnows { s with reader := r } (L .used)) : Inv n { s with reader := r } L :=
  h.of_reader h.partition ⟨h.rep.free, h.rep.stage, h.rep.used, h.rep.writer, h.rep.reader.trans hhand⟩ rfl
    (fun _ _ _ => rfl) (.inl rfl) h.free h.stage hknows

omit [DecidableEq ι] in
theorem Inv.readerPop (h : Inv n s L) (hhand : s.reader.hand = []) (hon : s.OnUsed (L .used))
    (hend : Follows (L .used) s.curBlock none) : Inv n { s with reader := readerPop s.stage } L := by
  unfold Group.readerPop
  split
  · exact h.reader_moves_on hhand ⟨hon, hend⟩
  · rename_i hindex
    exact h.reader_moves_on hhand ⟨hon, hend, hindex, .refl h.stage⟩

/-- The reader pops a block from the stage. -/
theorem Inv.reader_popped (h : Inv n s L) {copy : Head} {desired : Option ℕ}
    (hr : s.reader = .popCas copy desired) (heq : s.stage.index = copy.index)
    (hmark : s.stage.abaMark = copy.abaMark) (hfew : s.stage.version < copy.version + 2 ^ 16) :
    ∃ L', Inv n { s with
        stage := ⟨desired, (copy.abaMark + 1) % 2 ^ 16, s.stage.version + 1⟩
        reader := readerPopped copy.index } L' ∧ Move L L' := by
  have hknows := h.reader
  have hhand := h.rep.reader
  unfold State.ReaderKnows at hknows
  rw [hr] at hknows hhand
  obtain ⟨hon, hend, hindex, hcopied, hlink⟩ := hknows
  have hversion := hcopied.version_eq h.stage hmark hfew
  obtain ⟨b, hb⟩ := Option.ne_none_iff_exists'.1 hindex
  have hchain := h.rep.stage
  rw [heq, hb] at hchain
  obtain ⟨rest, hrest, hchain⟩ := hchain.exists_cons
  have hdesired : desired = s.next b := by rw [← hlink hversion, hb, Option.bind_some]
  rw [hb]
  have hmove : Move L (Function.update (Function.update L .stage rest) .reader [b]) := .popStage hrest hhand
  refine ⟨_, h.of_reader (h.partition_move hmove) ⟨?_, ?_, ?_, fun j => ?_, ?_⟩ rfl (fun _ _ _ => rfl) (.inl rfl)
    h.free (marked_cas h.stage hmark) ?_, hmove⟩
  · simpa using h.rep.free
  · simpa [hdesired] using hchain
  · simpa using h.rep.used
  · simpa using h.rep.writer j
  · simp [readerPopped, Reader.hand]
  · simpa using ⟨hon, hend⟩

/-- The reader changes one link of the used list, or its head. -/
theorem Inv.reader_links (h : Inv n s L) {prev link : Option ℕ} {r : Reader} (hmove : Move L L')
    (hprev : ∀ p, prev = some p → p ∈ L .used) (hfree : L' .free = L .free) (hstage : L' .stage = L .stage)
    (hwriter : ∀ j, L' (.writer j) = L (.writer j)) (hhand : L' .reader = r.hand)
    (hused : IsChain (s.setLink prev link).next (s.setLink prev link).used (L' .used))
    (hknows : State.ReaderKnows { s.setLink prev link with reader := r } (L' .used)) :
    Inv n { s.setLink prev link with reader := r } L' := by
  have hnext : ∀ b ∉ L .used, (s.setLink prev link).next b = s.next b := by
    intro b hb
    cases prev with
    | none => rfl
    | some p => exact Function.update_of_ne (fun hbp : b = p => hb (hbp ▸ hprev p rfl)) ..
  have hchain : ∀ (p : Place ι) {q : Option ℕ}, p ≠ .used → IsChain s.next q (L p) →
      IsChain (s.setLink prev link).next q (L p) :=
    fun p _ hp hq => hq.congr fun b hb => hnext b (h.partition.not_mem hb hp)
  refine h.of_reader (h.partition_move hmove) ⟨?_, ?_, hused, fun j => ?_, hhand⟩ (setLink_writers ..)
    (fun b _ hb => hnext b hb) (.inl (setLink_free ..)) ?_ ?_ hknows
  · simpa [hfree] using hchain .free nofun h.rep.free
  · simpa [hstage] using hchain .stage nofun h.rep.stage
  · simpa [hwriter] using h.rep.writer j
  · simpa using h.free
  · simpa using h.stage

/-- The reader links the block in at the end of the used list. -/
theorem Inv.reader_inserted (h : Inv n s L) {b : ℕ} (hr : s.reader = .insertHook b) :
    ∃ L', Inv n { s.setLink s.curBlock (some b) with reader := .settle (some b) } L' ∧ Move L L' := by
  have hknows := h.reader
  have hhand := h.rep.reader
  unfold State.ReaderKnows at hknows
  rw [hr] at hknows hhand
  obtain ⟨hon, hend, hlink⟩ := hknows
  have hb : b ∉ L .used := by
    have hmem : b ∈ L .reader := by simp [hhand, Reader.hand]
    exact h.partition.not_mem hmem nofun
  have hmove : Move L (Function.update (Function.update L .reader []) .used
      (pushAfter (L .used) s.curBlock b)) := .pushAfter hhand hend
  rw [hend.pushAfter_eq (h.partition.nodup .used) b] at hmove
  have hon' : s.OnUsed (L .used ++ [b]) := by
    unfold State.OnUsed at hon ⊢
    cases hcur : s.curBlock with
    | none =>
      rw [hcur] at hon
      exact hon
    | some c =>
      rw [hcur] at hon
      exact hon.imp (fun h => h.append b) fun h => ⟨h.1, List.mem_append_left [b] h.2.1, h.2.2⟩
  refine ⟨_, h.reader_links hmove (fun p hp => hon.mem hp) ?_ ?_ (fun j => ?_) ?_ ?_ ?_, hmove⟩
  · simp
  · simp
  · simp
  · simp [Reader.hand]
  · rw [Function.update_self]
    cases hcur : s.curBlock with
    | none =>
      rw [hcur] at hend
      have hnil : L .used = [] := List.head?_eq_none_iff.1 hend
      simp [hnil, hlink]
    | some c =>
      rw [hcur] at hend
      obtain ⟨pre, post, hsplit, hpost⟩ := hend
      obtain rfl := List.head?_eq_none_iff.1 hpost
      have hused := h.rep.used
      rw [hsplit] at hused hb ⊢
      rw [List.append_assoc, List.singleton_append]
      exact hused.insert hb (hlink.trans hused.of_append.symm)
  · simpa [State.ReaderKnows, State.OnUsed] using ⟨hon', hend.append_self b⟩

/-- The reader takes a removed block out of the used list. -/
theorem Inv.reader_removed (h : Inv n s L) {nextBlock : Option ℕ} {c : ℕ} (hr : s.reader = .settle nextBlock)
    (hcur : s.curBlock = some c) (hmarked : s.isBlockMarkedRemoved = true) :
    ∃ L', Inv n { s.setLink s.lastBlock (s.next c) with reader := .pushLoad c nextBlock } L' ∧ Move L L' := by
  have hknows := h.reader
  have hhand := h.rep.reader
  unfold State.ReaderKnows State.OnUsed at hknows
  rw [hr] at hknows hhand
  rw [hcur] at hknows
  obtain ⟨hon, hnext⟩ := hknows
  have hlast : Follows (L .used) s.lastBlock (some c) :=
    hon.resolve_right fun hon => Bool.noConfusion (hmarked.symm.trans hon.2.2)
  have hnodup := h.partition.nodup .used
  have hmove : Move L (Function.update (Function.update L .used (removeAfter (L .used) s.lastBlock c))
      .reader [c]) := .remove hhand hlast
  refine ⟨_, h.reader_links hmove (fun p hp => ?_) ?_ ?_ (fun j => ?_) ?_ ?_ ?_, hmove⟩
  · rw [hp] at hlast
    exact hlast.mem
  · simp
  · simp
  · simp
  · simp [Reader.hand]
  · have hused := h.rep.used
    have hupdate : Function.update (Function.update L .used (removeAfter (L .used) s.lastBlock c)) .reader [c]
        .used = removeAfter (L .used) s.lastBlock c := by simp
    rw [hupdate]
    rcases hlast.split hnodup with ⟨hnone, post, hsplit, hremove⟩ | ⟨p, pre, post, hsome, hsplit, hremove⟩
    · rw [hsplit] at hused
      rw [hremove, hnone]
      exact hused.2
    · rw [hsplit] at hused
      rw [hremove, hsome]
      exact hused.remove
  · simpa [State.ReaderKnows] using hlast.removeAfter hnext hnodup

omit [DecidableEq ι] in
/-- The reader moves on, and knows where it stands. -/
theorem Inv.reader_finished (h : Inv n s L) {nextBlock : Option ℕ} {removed : Bool} (marked : Bool)
    (hr : s.reader = .finish nextBlock removed) : Inv n (finishTraverse s nextBlock removed marked) L := by
  have hknows := h.reader
  have hhand := h.rep.reader
  unfold State.ReaderKnows at hknows
  rw [hr] at hknows hhand
  have hlast : Follows (L .used) (if removed then s.lastBlock else s.curBlock) nextBlock := by
    cases removed with
    | true => exact hknows
    | false => exact hknows.2
  unfold finishTraverse
  cases nextBlock with
  | some b =>
    exact h.of_reader h.partition ⟨h.rep.free, h.rep.stage, h.rep.used, h.rep.writer, hhand⟩ rfl
      (fun _ _ _ => rfl) (.inl rfl) h.free h.stage (.inl hlast)
  | none =>
    refine h.of_reader h.partition ⟨h.rep.free, h.rep.stage, h.rep.used, h.rep.writer, hhand⟩ rfl
      (fun _ _ _ => rfl) (.inl rfl) h.free h.stage ?_
    have hcur : (if removed then (if removed then s.lastBlock else s.curBlock) else s.curBlock) =
        if removed then s.lastBlock else s.curBlock := by cases removed <;> rfl
    change Group.OnUsed (L .used) _ false (if removed then (if removed then s.lastBlock else s.curBlock) else s.curBlock)
    rw [hcur]
    cases hprev : (if removed then s.lastBlock else s.curBlock) with
    | none => rfl
    | some c =>
      rw [hprev] at hlast
      exact .inr ⟨rfl, hlast.mem, rfl⟩

/-- **The reader's action is invisible or a move.** -/
theorem exists_move_reader (h : Inv n s L) (marked : Bool) (hfew : FewUpdates s (.reader marked)) :
    ∃ L', Inv n (readerStep s marked) L' ∧ (L' = L ∨ Move L L') := by
  have hknows := h.reader
  have hhand := h.rep.reader
  unfold State.ReaderKnows at hknows
  unfold readerStep
  cases hr : s.reader with
  | idle =>
    rw [hr] at hknows
    have hfollows := h.follows hknows
    refine ⟨L, h.reader_moves_on ?_ ?_, .inl rfl⟩
    · rw [hr]
      split <;> rfl
    · split
      · rename_i hnone
        exact ⟨hknows, hnone ▸ hfollows⟩
      · exact ⟨hknows, hfollows⟩
  | popLoad =>
    rw [hr] at hknows
    exact ⟨L, h.readerPop (by rw [hr]; rfl) hknows.1 hknows.2, .inl rfl⟩
  | popLink copy =>
    rw [hr] at hknows
    obtain ⟨hon, hend, hindex, hcopied⟩ := hknows
    exact ⟨L, h.reader_moves_on (by rw [hr]; rfl) ⟨hon, hend, hindex, hcopied, fun _ => rfl⟩, .inl rfl⟩
  | popCas copy desired =>
    rw [hr] at hknows
    dsimp only
    rcases cas_cases s.stage copy desired with ⟨heq, hmark, hcas⟩ | hcas
    · rw [hcas]
      obtain ⟨L', hinv, hmove⟩ := h.reader_popped hr heq hmark (hfew copy (by rw [hr]; rfl))
      exact ⟨L', hinv, .inr hmove⟩
    · rw [hcas]
      exact ⟨L, h.readerPop (by rw [hr]; rfl) hknows.1 hknows.2.1, .inl rfl⟩
  | insertLink b =>
    rw [hr] at hknows hhand
    have hb : b ∈ L .reader := by simp [hhand, Reader.hand]
    have hfollowing := h.following_eq hknows.2
    refine ⟨L, h.of_reader h.partition ⟨?_, ?_, ?_, h.rep.writer, hhand⟩ rfl (fun c hc _ => ?_) (.inl rfl) h.free
      h.stage ⟨hknows.1, hknows.2, ?_⟩, .inl rfl⟩
    · exact chain_frame h.partition h.rep.free hb nofun _
    · exact chain_frame h.partition h.rep.stage hb nofun _
    · exact chain_frame h.partition h.rep.used hb nofun _
    · exact Function.update_of_ne (fun hcb : c = b => hc (hcb ▸ hb)) ..
    · simpa using hfollowing
  | insertHook b =>
    obtain ⟨L', hinv, hmove⟩ := h.reader_inserted hr
    exact ⟨L', hinv, .inr hmove⟩
  | settle nextBlock =>
    rw [hr] at hknows
    have hfinish := h.reader_moves_on (r := .finish nextBlock false) (by rw [hr]; rfl) hknows
    dsimp only
    split
    · rename_i c hcur
      split
      · rename_i hmarked
        obtain ⟨L', hinv, hmove⟩ := h.reader_removed hr hcur hmarked
        exact ⟨L', hinv, .inr hmove⟩
      · exact ⟨L, hfinish, .inl rfl⟩
    · exact ⟨L, hfinish, .inl rfl⟩
  | pushLoad b nextBlock =>
    rw [hr] at hknows
    exact ⟨L, h.reader_moves_on (by rw [hr]; rfl) hknows, .inl rfl⟩
  | pushLink b nextBlock copy =>
    rw [hr] at hknows hhand
    have hb : b ∈ L .reader := by simp [hhand, Reader.hand]
    refine ⟨L, h.of_reader h.partition ⟨?_, ?_, ?_, h.rep.writer, hhand⟩ rfl (fun c hc _ => ?_) (.inl rfl) h.free
      h.stage ⟨hknows, ?_⟩, .inl rfl⟩
    · exact chain_frame h.partition h.rep.free hb nofun _
    · exact chain_frame h.partition h.rep.stage hb nofun _
    · exact chain_frame h.partition h.rep.used hb nofun _
    · exact Function.update_of_ne (fun hcb : c = b => hc (hcb ▸ hb)) ..
    · simp
  | pushCas b nextBlock copy =>
    rw [hr] at hknows hhand
    dsimp only
    rcases cas_cases s.free copy (some b) with ⟨heq, hmark, hcas⟩ | hcas
    · rw [hcas]
      have hmove : Move L (Function.update (Function.update L .reader []) .free (b :: L .free)) :=
        .pushFree hhand
      refine ⟨_, h.of_reader (h.partition_move hmove) ⟨?_, ?_, ?_, fun j => ?_, ?_⟩ rfl (fun _ _ _ => rfl)
        (.inr (Nat.lt_succ_self _)) (marked_cas h.free hmark) h.stage ?_, .inr hmove⟩
      · have hlink : s.next b = s.free.index := hknows.2.trans heq.symm
        simpa [hlink] using h.rep.free
      · simpa using h.rep.stage
      · simpa using h.rep.used
      · simpa using h.rep.writer j
      · simp [Reader.hand]
      · simpa [State.ReaderKnows] using hknows.1
    · rw [hcas]
      exact ⟨L, h.reader_moves_on (by rw [hr]; rfl) hknows.1, .inl rfl⟩
  | finish nextBlock removed => exact ⟨L, h.reader_finished marked hr, .inl rfl⟩

/-- **Every action is invisible on the lists, or it is a move.** -/
theorem exists_move {a : Act ι} (h : Inv n s L) (hfew : FewUpdates s a) (hs : step s a = some s') :
    ∃ L', Inv n s' L' ∧ (L' = L ∨ Move L L') := by
  cases a with
  | writer i =>
    obtain rfl := Option.some.inj hs
    exact exists_move_writer h i hfew
  | reader marked =>
    obtain rfl := Option.some.inj hs
    exact exists_move_reader h marked hfew
  | leave =>
    dsimp only [step] at hs
    split at hs
    · rename_i hr
      obtain rfl := Option.some.inj hs
      refine ⟨L, h.of_reader h.partition ⟨h.rep.free, h.rep.stage, h.rep.used, h.rep.writer, h.rep.reader⟩ rfl
        (fun _ _ _ => rfl) (.inl rfl) h.free h.stage ?_, .inl rfl⟩
      simp [State.ReaderKnows, hr, State.OnUsed, OnUsed]
    · cases hs

/-- **No block gets lost**: what leaves the hands of a thread is in a list. -/
theorem Move.not_lost (h : L' = L ∨ Move L L') :
    (∀ i, ∀ b ∈ L (.writer i), b ∉ L' (.writer i) → L' .stage = b :: L .stage) ∧
      ∀ b ∈ L .reader, b ∉ L' .reader → L' .free = b :: L .free ∨ b ∈ L' .used := by
  rcases h with rfl | h
  · exact ⟨fun i b hb hb' => absurd hb hb', fun b hb hb' => absurd hb hb'⟩
  · cases h with
    | popFree hfree hhand =>
      refine ⟨fun j c hc hc' => ?_, fun c hc hc' => ?_⟩
      · rename_i i b rest
        rcases eq_or_ne j i with rfl | hji
        · simp [hhand] at hc
        · simp [hji, hc] at hc'
      · simp [hc] at hc'
    | pushStage hhand =>
      refine ⟨fun j c hc hc' => ?_, fun c hc hc' => ?_⟩
      · rename_i i b
        rcases eq_or_ne j i with rfl | hji
        · obtain rfl : c = b := by simpa [hhand] using hc
          simp
        · simp [hji, hc] at hc'
      · simp [hc] at hc'
    | popStage hstage hhand => exact ⟨fun j c hc hc' => by simp [hc] at hc', fun c hc _ => by simp [hhand] at hc⟩
    | pushAfter hhand hprev =>
      refine ⟨fun j c hc hc' => by simp [hc] at hc', fun c hc hc' => .inr ?_⟩
      rename_i b prev
      obtain rfl : c = b := by simpa [hhand] using hc
      cases prev <;> simp [QLog.pushAfter]
    | remove hhand hprev => exact ⟨fun j c hc hc' => by simp [hc] at hc', fun c hc _ => by simp [hhand] at hc⟩
    | pushFree hhand =>
      refine ⟨fun j c hc hc' => by simp [hc] at hc', fun c hc hc' => .inl ?_⟩
      rename_i b
      obtain rfl : c = b := by simpa [hhand] using hc
      simp

end Step

/-! ## Every run -/

/-- The places of the blocks when a group is constructed. -/
def initPlaces (U S F : List ℕ) : Places ι
  | .free => F
  | .stage => S
  | .used => U
  | .writer _ | .reader => []

/-- **A constructed group satisfies the invariant.** -/
theorem inv_init {P : Params} {image g : GroupDataHead} {U S F : List ℕ} (h : Partition P image g U S F) :
    Inv P.maxBlocksCount (State.init g : State ι) (initPlaces U S F) where
  rep := ⟨h.free, h.stage, h.used, fun _ => rfl, rfl⟩
  free := rfl
  stage := rfl
  writer _ := trivial
  reader := rfl
  partition := by
    have hnodup : (U ++ S ++ F).Nodup := h.perm.nodup_iff.2 List.nodup_range
    obtain ⟨hUS, hF, hUSF⟩ := List.nodup_append.1 hnodup
    obtain ⟨hU, hS, hdisjoint⟩ := List.nodup_append.1 hUS
    refine ⟨fun p => ?_, fun b => ?_, ?_⟩
    · cases p with
      | free => exact hF
      | stage => exact hS
      | used => exact hU
      | writer i => exact List.nodup_nil
      | reader => exact List.nodup_nil
    · have hrange : b ∈ U ++ S ++ F ↔ b < P.maxBlocksCount := h.perm.mem_iff.trans List.mem_range
      rw [← hrange, List.mem_append, List.mem_append]
      constructor
      · rintro ⟨p, hp⟩
        cases p with
        | free => exact .inr hp
        | stage => exact .inl (.inr hp)
        | used => exact .inl (.inl hp)
        | writer i => cases hp
        | reader => cases hp
      · rintro ((hb | hb) | hb)
        · exact ⟨.used, hb⟩
        · exact ⟨.stage, hb⟩
        · exact ⟨.free, hb⟩
    · have hSU : ∀ b ∈ S, b ∉ U := fun b hb hb' => hdisjoint b hb' b hb rfl
      have hFU : ∀ b ∈ F, b ∉ U := fun b hb hb' => hUSF b (List.mem_append_left S hb') b hb rfl
      have hFS : ∀ b ∈ F, b ∉ S := fun b hb hb' => hUSF b (List.mem_append_right U hb') b hb rfl
      intro p q b hp hq
      cases p <;> cases q <;>
        first
        | rfl
        | exact absurd hp List.not_mem_nil
        | exact absurd hq List.not_mem_nil
        | exact absurd hp (hSU b hq)
        | exact absurd hq (hSU b hp)
        | exact absurd hp (hFU b hq)
        | exact absurd hq (hFU b hp)
        | exact absurd hp (hFS b hq)
        | exact absurd hq (hFS b hp)

section Runs

variable [DecidableEq ι]

theorem exists_inv_of_runs {P : Params} {image g : GroupDataHead} {U S F : List ℕ} (h : Partition P image g U S F)
    (hs : Runs step FewUpdates (State.init g : State ι) s) : ∃ L, Inv P.maxBlocksCount s L := by
  refine Runs.invariant (I := fun s => ∃ L, Inv P.maxBlocksCount s L) hs ⟨_, inv_init h⟩ ?_
  rintro u v a ⟨L, hinv⟩ hfew hstep
  obtain ⟨L', hinv', -⟩ := exists_move hinv hfew hstep
  exact ⟨L', hinv'⟩

/-- What the lists of a group promise in a state: they have no cycle, every block is in exactly one list or
in the hands of exactly one thread, and every action is a move that loses no block, or is invisible. -/
def BlocksOwned (n : ℕ) (s : State ι) : Prop :=
  ∃ L : Places ι, Rep s L ∧ (∀ p, (L p).Nodup ∧ ∀ b ∈ L p, b < n) ∧ (∀ b < n, ∃! p, b ∈ L p) ∧
    ∀ a s', FewUpdates s a → step s a = some s' → ∃ L', Rep s' L' ∧ (L' = L ∨ Move L L') ∧
      (∀ i, ∀ b ∈ L (.writer i), b ∉ L' (.writer i) → L' .stage = b :: L .stage) ∧
      ∀ b ∈ L .reader, b ∉ L' .reader → L' .free = b :: L .free ∨ b ∈ L' .used

/-- **Block ownership.** In every run of any number of writers and the reader, from a group that was
constructed over any bytes, every block is in exactly one place and no push is lost, when a thread that pops
has loaded the head fewer than `2 ^ 16` updates before it swaps. -/
theorem block_ownership (P : Params) (image : Mem) (isMemoryRecovery : Bool) {fuel : ℕ} {g : GroupDataHead}
    (hg : (GroupDataHead.ofBytes P image).construct P isMemoryRecovery fuel = some g)
    (hs : Runs step FewUpdates (State.init g : State ι) s) : BlocksOwned P.maxBlocksCount s := by
  obtain ⟨U, S, F, hpartition⟩ := exists_partition hg
  obtain ⟨L, hinv⟩ := exists_inv_of_runs hpartition hs
  refine ⟨L, hinv.rep, fun p => ⟨hinv.partition.nodup p, fun b hb => (hinv.partition.mem_iff b).1 ⟨p, hb⟩⟩,
    fun b hb => hinv.partition.existsUnique hb, fun a s' hfew hstep => ?_⟩
  obtain ⟨L', hinv', hmove⟩ := exists_move hinv hfew hstep
  exact ⟨L', hinv'.rep, hmove, Move.not_lost hmove⟩

/-- Two writers and the reader on a new group of two blocks: the second writer's copy of the head is an
earlier one, so its first compare-and-swap fails, and both blocks reach the stage; the reader takes one. -/
theorem block_ownership_twoWriters : ∃ g s,
    (GroupDataHead.ofBytes (.ofBufferSize 128 true 11 (by decide) (by decide)) fun _ => 0).construct
      (.ofBufferSize 128 true 11 (by decide) (by decide)) false 0 = some g ∧
    run (guarded step FewUpdates) (State.init g : State Bool)
      ([.writer false, .writer true] ++ List.replicate 5 (.writer false) ++ List.replicate 7 (.writer true) ++
        List.replicate 8 (.reader false)) = some s ∧
    s.curBlock = some 0 ∧ BlocksOwned 2 s := by
  obtain ⟨g, hg⟩ : ∃ g, (GroupDataHead.ofBytes (.ofBufferSize 128 true 11 (by decide) (by decide))
      fun _ => 0).construct (.ofBufferSize 128 true 11 (by decide) (by decide)) false 0 = some g :=
    ⟨_, rfl⟩
  have hcompute : ((GroupDataHead.ofBytes (.ofBufferSize 128 true 11 (by decide) (by decide))
      fun _ => 0).construct (.ofBufferSize 128 true 11 (by decide) (by decide)) false 0).bind (fun g =>
        (run (guarded step FewUpdates) (State.init g : State Bool)
      ([.writer false, .writer true] ++ List.replicate 5 (.writer false) ++ List.replicate 7 (.writer true) ++
        List.replicate 8 (.reader false))).map State.curBlock) = some (some 0) := by decide +kernel
  rw [hg, Option.bind_some] at hcompute
  obtain ⟨s, hs, hcur⟩ := Option.map_eq_some_iff.1 hcompute
  exact ⟨g, s, hg, hs, hcur, block_ownership _ _ _ hg (Runs.of_run_guarded hs)⟩

end Runs

end QLog.Group
