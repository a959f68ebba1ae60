import QLog.Foundations.Queues
import QLog.Buffer.Miso.Safety

/-!
# The multi-producer ring implements a queue of reservations

The cells are the reservations that the consumer has not passed: open until their producer settles them,
abandoned when they run over the end of the ring, filled with size and payload when they are committed. The
`fetch_add` reserves a cell, the compare-exchange retracts the last one, and the status stores settle a cell.
The consumer peeks at what the head and the payload in memory say, pops it when it returns the chunk, skips
abandoned cells and reports nothing. So every run that meets the condition of `miso_safe` is a trace of the
queue of reservations (`miso_cells`).
-/

namespace QLog.Miso

variable {N : BlockCount} {start : ℕ} {s s' : State} {t slot cursor : ℕ} {call : Call}

/-- What a reservation is to the consumer. -/
def Resv.cell (r : Resv) : Cell Delivery :=
  match r.phase with
  | .reserved | .granted => .opened r.owner
  | .invalid => .abandoned
  | .committed payload => .filled ⟨r.size, payload⟩

/-- The reservations that the consumer has not passed. -/
def State.cells (s : State) : List (Cell Delivery) := (s.resv.drop s.read).map Resv.cell

/-- The chunk at the consumer's cursor, as read from memory. -/
def State.chunkAt (N : BlockCount) (s : State) : Delivery :=
  ⟨dataSize s.blocks (s.readBlock N),
    s.blocks.slice (dataAddr (s.readBlock N)) (dataSize s.blocks (s.readBlock N))⟩

/-- What the threads see of a step. -/
def label (N : BlockCount) (s : State) : Act → List (CellLabel Delivery)
  | .produce t =>
    match (s.threads t).pc with
    | .reserve _ => [.reserve t]
    | .rollBack call cursor _ =>
      if s.writeCursor = add32 cursor call.need then [.retract t] else []
    | .markInvalid _ _ _ => [.abandon t]
    | _ => []
  | .commit t =>
    match (s.threads t).pc with
    | .holding call cursor _ _ =>
      [.fill t ⟨call.size, s.blocks.slice (dataAddr (N.index cursor)) call.size⟩]
    | _ => []
  | .consume =>
    match s.consumer with
    | .looking =>
      match status s.blocks (s.readBlock N) with
      | some .used => [.peek (s.chunkAt N)]
      | some .invalid => []
      | _ => [.nothing]
    | .skipping _ => [.skip]
    | _ => []
  | .returnReadChunk =>
    match s.consumer with
    | .holding _ => [.pop (s.chunkAt N)]
    | _ => []
  | _ => []

/-! ## Cells -/

/-- A reservation that is not passed is replaced. -/
theorem split_set {l : List Resv} {k n : ℕ} {r : Resv} (r' : Resv) (hn : n ≤ k) (hk : l[k]? = some r) :
    ∃ a b, l.drop n = a ++ r :: b ∧ (l.set k r').drop n = a ++ r' :: b := by
  obtain ⟨hlt, rfl⟩ := List.getElem?_eq_some_iff.mp hk
  have hset : ∀ x, (l.set k x).drop n = (l.take k).drop n ++ x :: l.drop (k + 1) := fun x => by
    rw [List.set_eq_take_append_cons_drop, if_pos hlt,
      List.drop_append_of_le_length (by rw [List.length_take]; omega)]
  refine ⟨(l.take k).drop n, l.drop (k + 1), ?_, hset r'⟩
  have hself := hset l[k]
  rwa [List.set_getElem_self] at hself

/-- The cell of an open reservation is settled. -/
theorem trace_settle {r r' : Resv} {l : CellLabel Delivery} (hread : s.read ≤ slot)
    (hr : s.resv[slot]? = some r) (hresv : s'.resv = s.resv.set slot r') (hn : s'.read = s.read)
    (hl : ∀ q q', CellStep (q ++ r.cell :: q') l (q ++ r'.cell :: q')) :
    Trace CellStep s.cells [l] s'.cells := by
  obtain ⟨a, b, hold, hnew⟩ := split_set r' hread hr
  rw [State.cells, State.cells, hresv, hn, hold, hnew, List.map_append, List.map_append, List.map_cons,
    List.map_cons]
  exact .single (hl _ _)

/-- A reservation changes that is no more settled than before. -/
theorem trace_grant {r r' : Resv} (hread : s.read ≤ slot) (hr : s.resv[slot]? = some r)
    (hresv : s'.resv = s.resv.set slot r') (hn : s'.read = s.read) (hcell : r'.cell = r.cell) :
    Trace CellStep s.cells [] s'.cells := by
  obtain ⟨a, b, hold, hnew⟩ := split_set r' hread hr
  refine .of_eq ?_
  rw [State.cells, State.cells, hresv, hn, hold, hnew, List.map_append, List.map_append, List.map_cons,
    List.map_cons, hcell]

theorem trace_same (hresv : s'.resv = s.resv) (hn : s'.read = s.read) :
    Trace CellStep s.cells [] s'.cells := .of_eq (by rw [State.cells, State.cells, hresv, hn])

theorem SlotOk.read_le {ph : Phase} (h : SlotOk start s t call cursor slot ph) (hring : RingOk N start s)
    (hph : ph.settled = false) : s.read ≤ slot := hring.settled.le_of_not_settled h.resv hph

/-- The chunk at the consumer's cursor is the first cell. -/
theorem RingOk.cells_of_committed (h : RingOk N start s) {r : Resv} (hr : s.resv[s.read]? = some r)
    (hc : r.phase.isCommitted) (hchunk : ChunkOk N s.blocks (s.pos start s.read) r) :
    s.cells = .filled (s.chunkAt N) :: (s.resv.drop (s.read + 1)).map Resv.cell := by
  obtain ⟨hlt, rfl⟩ := List.getElem?_eq_some_iff.mp hr
  cases hph : s.resv[s.read].phase with
  | reserved | granted | invalid => rw [hph] at hc; cases hc
  | committed payload =>
    obtain ⟨-, -, hsize, hslice, -⟩ := hchunk.status_committed hph
    rw [State.cells, List.drop_eq_getElem_cons hlt, List.map_cons, Resv.cell, hph, State.chunkAt,
      h.readBlock_eq, hsize, hslice]

/-! ## Steps -/

theorem trace_produce (h : Inv N start s) (hs : allocStep N s t = some s') :
    Trace CellStep s.cells (label N s (.produce t)) s'.cells := by
  have hring := h.toRingOk
  have hpcOk := (h.threads t).pcOk
  simp only [label]
  cases hpc : (s.threads t).pc with
  | idle | holding => simp [allocStep, hpc] at hs
  | loadWrite call =>
    simp only [allocStep, hpc] at hs
    split at hs <;> cases hs <;> exact trace_same rfl rfl
  | loadRead | reload | setHead | setSize | lowSpace =>
    simp only [allocStep, hpc, Option.some.injEq] at hs
    subst hs
    exact trace_same rfl rfl
  | reserve call =>
    have hle := hring.read_le
    have hcells : ∀ ph, Resv.cell ⟨t, call.size, call.need, ph⟩ = .opened t → ∀ u : State,
        u.resv = s.resv ++ [⟨t, call.size, call.need, ph⟩] → u.read = s.read →
        Trace CellStep s.cells [.reserve t] u.cells := by
      intro ph hcell u hu hn
      rw [State.cells, State.cells, hu, hn, List.drop_append_of_le_length hle, List.map_append,
        List.map_singleton, hcell]
      exact .single (.reserve _ _)
    simp only [allocStep, hpc] at hs
    split at hs <;> cases hs
    · exact hcells .reserved rfl _ rfl rfl
    · exact hcells .granted rfl _ rfl rfl
  | recheck call cursor slot =>
    rw [hpc] at hpcOk
    simp only [allocStep, hpc] at hs
    split at hs <;> cases hs
    · exact trace_same rfl rfl
    · exact trace_grant (hpcOk.2.read_le hring rfl) hpcOk.2.resv rfl rfl rfl
  | rollBack call cursor slot =>
    rw [hpc] at hpcOk
    simp only [allocStep, hpc] at hs
    simp only
    split at hs <;> rename_i he <;> cases hs
    · have hlast := hring.last_of_cursor_eq hpcOk.2 he
      have hread := hpcOk.2.read_le hring rfl
      have hsplit : s.resv.dropLast ++ [⟨t, call.size, call.need, .reserved⟩] = s.resv := by
        refine List.dropLast_append_getLast? _ ?_
        rw [List.getLast?_eq_getElem?, ← hlast, Nat.add_sub_cancel]
        exact hpcOk.2.resv
      rw [if_pos he]
      have hcells : s.cells = (s.resv.dropLast.drop s.read).map Resv.cell ++ [.opened t] := by
        rw [State.cells]
        conv_lhs => rw [← hsplit]
        rw [List.drop_append_of_le_length (by rw [List.length_dropLast]; omega), List.map_append]
        rfl
      rw [hcells]
      exact .single (.retract _ _)
    · rw [if_neg he]
      exact trace_same rfl rfl
  | markInvalid call cursor slot =>
    rw [hpc] at hpcOk
    simp only [allocStep, hpc, Option.some.injEq] at hs
    subst hs
    exact trace_settle (hpcOk.2.1.read_le hring rfl) hpcOk.2.1.resv rfl rfl fun _ _ => .abandon _ _ _

theorem trace_looking (h : Inv N start s) (hcon : s.consumer = .looking) (hs : consumerStep N s = some s') :
    Trace CellStep s.cells (label N s .consume) s'.cells := by
  have hring := h.toRingOk
  simp only [consumerStep, hcon] at hs
  simp only [label, hcon]
  rcases hring.look le_rfl h.settled (by rw [hcon]; rfl) (.inr ⟨rfl, by rw [hcon]; rfl⟩) with
    ⟨r, hr, hset, hchunk⟩ | ⟨hopen, hz⟩
  · cases hph : r.phase with
    | reserved => simp [hph, Phase.settled] at hset
    | granted => simp [hph, Phase.settled] at hset
    | invalid =>
      have hst := (hchunk.status_invalid hph).1
      rw [← hring.readBlock_eq] at hst
      rw [hst] at hs ⊢
      cases hs
      exact trace_same rfl rfl
    | committed payload =>
      have hst := (hchunk.status_committed hph).1
      rw [← hring.readBlock_eq] at hst
      rw [hst] at hs ⊢
      cases hs
      have hcells := hring.cells_of_committed hr (by rw [hph]; rfl) hchunk
      change Trace CellStep s.cells [.peek (s.chunkAt N)] s.cells
      rw [hcells]
      exact .single (.peek _ _)
  · have hst := status_of_byte_zero hz
    rw [← hring.readBlock_eq] at hst
    rw [hst] at hs ⊢
    cases hs
    refine .single (.nothing _ fun c hc => ?_)
    rw [State.cells, List.head?_map, List.head?_drop] at hc
    obtain ⟨r, hr, rfl⟩ := Option.mem_map.mp hc
    have hopen := hopen r hr
    cases hph : r.phase with
    | reserved | granted => exact ⟨r.owner, by rw [Resv.cell, hph]⟩
    | invalid | committed => rw [hph] at hopen; cases hopen

theorem trace_consume (h : Inv N start s) (hs : consumerStep N s = some s') :
    Trace CellStep s.cells (label N s .consume) s'.cells := by
  cases hcon : s.consumer with
  | looking => exact trace_looking h hcon hs
  | skipping n =>
    have hc := h.toRingOk.consumerOk
    rw [hcon] at hc
    obtain ⟨r, hr, hinv, -, -⟩ := hc
    obtain ⟨hlt, rfl⟩ := List.getElem?_eq_some_iff.mp hr
    simp only [consumerStep, hcon, Option.some.injEq] at hs
    subst hs
    have hcells : s.cells = .abandoned :: (s.resv.drop (s.read + 1)).map Resv.cell := by
      rw [State.cells, List.drop_eq_getElem_cons hlt, List.map_cons, Resv.cell, hinv]
    rw [hcells]
    simp only [label, hcon]
    exact .single (.skip _)
  | traversing cursor =>
    simp only [consumerStep, hcon] at hs
    simp only [label, hcon]
    split at hs <;> cases hs <;> exact trace_same rfl rfl
  | idle | holding | empty => simp [consumerStep, hcon] at hs
  | clearing | flushing | restart | release =>
    simp only [consumerStep, hcon, Option.some.injEq] at hs
    subst hs
    simp only [label, hcon]
    exact trace_same rfl rfl

theorem afterReturn_cells (u : State) (needFlush : Bool) : (afterReturn u needFlush).cells = u.cells := by
  simp only [State.cells, afterReturn]

theorem trace_returnReadChunk (h : Inv N start s) (hs : returnReadChunk N s = some s') :
    Trace CellStep s.cells (label N s .returnReadChunk) s'.cells := by
  have hring := h.toRingOk
  simp only [label]
  rw [returnReadChunk] at hs
  cases hcon : s.consumer with
  | empty =>
    rw [hcon] at hs
    cases Option.some.inj hs
    rw [afterReturn_cells]
    exact .nil _
  | holding handle =>
    rw [hcon] at hs
    cases Option.some.inj hs
    have hc := hring.consumerOk
    rw [hcon] at hc
    obtain ⟨r, hr, hcommitted, -⟩ := hc
    have hkept : s.Kept s.read r := .inl ⟨le_rfl, fun hskip => by rw [hcon] at hskip; cases hskip⟩
    have hchunk := hring.kept s.read r hring.released_le hr hkept
    rw [afterReturn_cells, hring.cells_of_committed hr hcommitted hchunk]
    exact .single (.pop _ _)
  | _ => rw [hcon] at hs; cases hs

/-- Every admitted step of the ring is a step of the queue of reservations, or none. -/
theorem trace_step {a : Act} (h : Inv N start s) (hs : step N s a = some s') :
    Trace CellStep s.cells (label N s a) s'.cells := by
  cases a with
  | alloc t size tlsRecycled =>
    simp only [step] at hs
    split at hs
    · split at hs <;> cases hs
      unfold allocCall
      dsimp only
      split <;> exact trace_same rfl rfl
    · cases hs
  | produce t => exact trace_produce h hs
  | write t i b =>
    simp only [step] at hs
    split at hs
    · split at hs <;> cases hs
      exact trace_same rfl rfl
    · cases hs
  | commit t =>
    have hpcOk := (h.threads t).pcOk
    simp only [step] at hs
    split at hs <;> cases hs
    rename_i call cursor slot flag hpc
    rw [hpc] at hpcOk
    simp only [label, hpc]
    exact trace_settle (hpcOk.2.1.read_le h.toRingOk rfl) hpcOk.2.1.resv rfl rfl fun _ _ => .fill _ _ _ _
  | readChunk =>
    simp only [step] at hs
    split at hs <;> cases hs
    exact trace_same rfl rfl
  | returnReadChunk => exact trace_returnReadChunk h hs
  | dataTraverse =>
    simp only [step] at hs
    split at hs <;> cases hs
    exact trace_same rfl rfl
  | consume => exact trace_consume h hs

/-- The ring simulates the queue of reservations. -/
theorem simulates (N : BlockCount) (start : ℕ) :
    Simulates (step N) (StepOk N) (label N) CellStep State.cells (Inv N start) where
  keeps h hok hs := inv_step h hok hs
  trace h _ hs := trace_step h hs

/-- **The ring is a queue of reservations**: in every admitted run the labels that the threads see are a trace
of the queue, and what the consumer returned, with what is committed and not returned yet, is what the
producers committed. -/
theorem miso_cells (N : BlockCount) (start : ℕ) (m : Mem) (as : List Act) (s : State)
    (hok : Admits (step N) (StepOk N) (State.init N start m) as)
    (h : run (step N) (State.init N start m) as = some s) :
    Trace CellStep [] (observe (step N) (label N) (State.init N start m) as) s.cells ∧
      ((observe (step N) (label N) (State.init N start m) as).filterMap CellLabel.popped ++
        s.cells.filterMap Cell.item).Perm
          ((observe (step N) (label N) (State.init N start m) as).filterMap CellLabel.filledIn) := by
  have htrace := (simulates N start).run (inv_init N start m) hok h
  have hempty : (State.init N start m).cells = [] := rfl
  rw [hempty] at htrace
  exact ⟨htrace, by simpa using htrace.conserved⟩

theorem miso_cells_mixedRun : ∃ s, run (step ⟨4, by decide⟩)
      (State.init ⟨4, by decide⟩ (2 ^ 32 - 1) fun _ => 0) (mixedRun ++ [.returnReadChunk]) = some s ∧
    (observe (step ⟨4, by decide⟩) (label ⟨4, by decide⟩) (State.init ⟨4, by decide⟩ (2 ^ 32 - 1) fun _ => 0)
      (mixedRun ++ [.returnReadChunk])).filterMap CellLabel.popped = [⟨1, [7]⟩] ∧
    Trace CellStep [] (observe (step ⟨4, by decide⟩) (label ⟨4, by decide⟩)
      (State.init ⟨4, by decide⟩ (2 ^ 32 - 1) fun _ => 0) (mixedRun ++ [.returnReadChunk])) s.cells := by
  have hrun := Admits.of_run_guarded (Option.some_get (x := run (guarded (step ⟨4, by decide⟩)
    (StepOk ⟨4, by decide⟩)) (State.init ⟨4, by decide⟩ (2 ^ 32 - 1) fun _ => 0)
      (mixedRun ++ [.returnReadChunk])) (by decide +kernel)).symm
  exact ⟨_, hrun.2, by decide +kernel, (miso_cells ⟨4, by decide⟩ (2 ^ 32 - 1) (fun _ => 0)
    (mixedRun ++ [.returnReadChunk]) _ hrun.1 hrun.2).1⟩

end QLog.Miso
