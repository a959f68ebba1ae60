import QLog.Buffer.Miso.Model

/-!
# Thread-local read cursors and the address of the ring

A producer keeps its copy of the read cursor in a thread-local map that is keyed by the address of the
ring. The destructor of a ring cannot reach the maps: a ring that is constructed later at the same address
finds the copies of the earlier one, and takes them for its own.

`World` holds the rings that exist, by their addresses, and for the other addresses the copies that are
left behind. Two history variables say of a copy whether it comes from an earlier ring (`foreign`) and by
how many blocks the read cursor has moved since it was loaded (`advance`). A thread inside
`alloc_write_chunk` never has a copy that is ahead of the read cursor (`miso_copy_behind`), provided that
no thread calls it with a foreign copy, and that no copy in use gets more than half of the 32-bit range
behind.
-/

namespace QLog.Miso

/-! ## What a step does to the copies -/

/-- Inside `alloc_write_chunk`. -/
def Pc.inAlloc : Pc → Bool
  | .idle | .holding _ _ _ _ => false
  | _ => true

/-- The next step loads `read_cursor_` into the copy. -/
def Pc.loads : Pc → Bool
  | .loadRead _ _ | .reload _ _ | .recheck _ _ _ | .lowSpace _ _ _ => true
  | _ => false

/-- The step loads the copy of the thread `u`. -/
def loadsCopy (s : State) (a : Act) (u : ℕ) : Bool :=
  match a with
  | .produce t => (u == t) && (s.threads t).pc.loads
  | _ => false

/-- What a step does to the copies and to the read cursor. -/
inductive CopyEffect (s : State) : Act → State → Prop
  /-- A thread calls `alloc_write_chunk`; its copy may be lost with the thread-local storage. -/
  | calls (s' : State) (t size : ℕ) (tlsRecycled : Bool) (th : Thread)
      (hcursor : s'.readCursor = s.readCursor) (hcache : s'.readCursorCache = s.readCursorCache)
      (hthreads : s'.threads = Function.update s.threads t th)
      (hcopy : th.cache = if tlsRecycled then none else (s.threads t).cache) :
      CopyEffect s (.alloc t size tlsRecycled) s'
  /-- A thread moves on with the copy that it has. -/
  | keeps (a : Act) (s' : State) (t : ℕ) (pc : Pc) (hload : ∀ u, loadsCopy s a u = false)
      (hcursor : s'.readCursor = s.readCursor) (hcache : s'.readCursorCache = s.readCursorCache)
      (hthreads : s'.threads = Function.update s.threads t { s.threads t with pc := pc })
      (hpc : pc.inAlloc = true → (s.threads t).pc.inAlloc = true) : CopyEffect s a s'
  /-- A thread loads its copy. -/
  | loads (s' : State) (t loaded : ℕ) (pc : Pc) (hload : (s.threads t).pc.loads = true)
      (hcursor : s'.readCursor = s.readCursor) (hcache : s'.readCursorCache = s.readCursorCache)
      (hthreads : s'.threads = Function.update s.threads t ⟨some s.readCursor, pc, loaded⟩) :
      CopyEffect s (.produce t) s'
  /-- The consumer publishes its cursor. -/
  | releases (s' : State) (hconsumer : s.consumer = .release) (hcursor : s'.readCursor = s.readCursorCache)
      (hcache : s'.readCursorCache = s.readCursorCache) (hthreads : s'.threads = s.threads) :
      CopyEffect s .consume s'
  /-- The consumer moves its own cursor, or something else happens. -/
  | others (a : Act) (s' : State) (hload : ∀ u, loadsCopy s a u = false)
      (hcursor : s'.readCursor = s.readCursor)
      (hcache : s'.readCursorCache = s.readCursorCache ∨ s'.readCursorCache < 2 ^ 32)
      (hthreads : s'.threads = s.threads) : CopyEffect s a s'

section Effect

variable {N : BlockCount} {s s' : State} {a : Act} {t : ℕ}

theorem loadsCopy_of_not {pc : Pc} (hpc : (s.threads t).pc = pc) (h : pc.loads = false) (u : ℕ) :
    loadsCopy s (.produce t) u = false := by
  rw [loadsCopy, hpc, h, Bool.and_false]

theorem copyEffect_of_allocStep (h : allocStep N s t = some s') : CopyEffect s (.produce t) s' := by
  cases hpc : (s.threads t).pc with
  | idle | holding call cursor slot flag =>
    rw [allocStep, hpc] at h
    cases h
  | loadRead call cur | reload call cur | lowSpace call cursor slot =>
    rw [allocStep, hpc] at h
    obtain rfl := Option.some.inj h
    exact .loads _ t _ _ (by rw [hpc]; rfl) rfl rfl rfl
  | recheck call cursor slot =>
    have hload : (s.threads t).pc.loads = true := by rw [hpc]; rfl
    rw [allocStep, hpc] at h
    dsimp only at h
    split at h
    all_goals
      obtain rfl := Option.some.inj h
      exact .loads _ t _ _ hload rfl rfl rfl
  | loadWrite call =>
    have hload := loadsCopy_of_not hpc rfl
    have hin : (s.threads t).pc.inAlloc = true := by rw [hpc]; rfl
    rw [allocStep, hpc] at h
    dsimp only at h
    split at h
    all_goals
      obtain rfl := Option.some.inj h
      exact .keeps _ _ t _ hload rfl rfl rfl fun _ => hin
  | setHead call cursor slot | markInvalid call cursor slot | setSize call cursor slot =>
    have hload := loadsCopy_of_not hpc rfl
    have hin : (s.threads t).pc.inAlloc = true := by rw [hpc]; rfl
    rw [allocStep, hpc] at h
    obtain rfl := Option.some.inj h
    exact .keeps _ _ t _ hload rfl rfl rfl fun _ => hin
  | reserve call | rollBack call cursor slot =>
    have hload := loadsCopy_of_not hpc rfl
    have hin : (s.threads t).pc.inAlloc = true := by rw [hpc]; rfl
    rw [allocStep, hpc] at h
    dsimp only at h
    split at h
    all_goals
      obtain rfl := Option.some.inj h
      exact .keeps _ _ t _ hload rfl rfl rfl fun _ => hin

theorem copyEffect_of_consumerStep (h : consumerStep N s = some s') : CopyEffect s .consume s' := by
  cases hconsumer : s.consumer with
  | looking =>
    rw [consumerStep, hconsumer] at h
    dsimp only at h
    split at h
    all_goals
      obtain rfl := Option.some.inj h
      exact .others _ _ (fun _ => rfl) rfl (Or.inl rfl) rfl
  | skipping n =>
    rw [consumerStep, hconsumer] at h
    obtain rfl := Option.some.inj h
    exact .others _ _ (fun _ => rfl) rfl (Or.inr (add32_lt _ _)) rfl
  | release =>
    rw [consumerStep, hconsumer] at h
    obtain rfl := Option.some.inj h
    exact .releases _ hconsumer rfl rfl rfl
  | traversing cursor =>
    rw [consumerStep, hconsumer] at h
    dsimp only at h
    split at h
    all_goals
      obtain rfl := Option.some.inj h
      exact .others _ _ (fun _ => rfl) rfl (Or.inl rfl) rfl
  | clearing n | flushing i | restart =>
    rw [consumerStep, hconsumer] at h
    obtain rfl := Option.some.inj h
    exact .others _ _ (fun _ => rfl) rfl (Or.inl rfl) rfl
  | idle | holding handle | empty =>
    rw [consumerStep, hconsumer] at h
    cases h

/-- The flush decision does not touch the cursors. -/
theorem copyEffect_afterReturn {u : State} (needFlush : Bool) (hcursor : u.readCursor = s.readCursor)
    (hcache : u.readCursorCache = s.readCursorCache ∨ u.readCursorCache < 2 ^ 32)
    (hthreads : u.threads = s.threads) : CopyEffect s .returnReadChunk (afterReturn u needFlush) :=
  .others _ _ (fun _ => rfl) hcursor hcache hthreads

theorem copyEffect_of_returnReadChunk (h : returnReadChunk N s = some s') :
    CopyEffect s .returnReadChunk s' := by
  cases hconsumer : s.consumer with
  | empty =>
    rw [returnReadChunk, hconsumer] at h
    obtain rfl := Option.some.inj h
    exact copyEffect_afterReturn _ rfl (Or.inl rfl) rfl
  | holding handle =>
    rw [returnReadChunk, hconsumer] at h
    obtain rfl := Option.some.inj h
    exact copyEffect_afterReturn _ rfl (Or.inr (add32_lt _ _)) rfl
  | _ =>
    rw [returnReadChunk, hconsumer] at h
    cases h

/-- A call leaves the cursors alone. -/
theorem copyEffect_allocCall (s : State) (t size : ℕ) (tlsRecycled : Bool) :
    CopyEffect s (.alloc t size tlsRecycled) (allocCall N s t size tlsRecycled) := by
  dsimp only [allocCall]
  split <;> exact .calls _ t size tlsRecycled _ rfl rfl rfl rfl

/-- Every step has one of these effects. -/
theorem copyEffect_of_step (h : step N s a = some s') : CopyEffect s a s' := by
  cases a with
  | alloc t size tlsRecycled =>
    dsimp only [step] at h
    split at h
    · obtain ⟨-, h⟩ := Option.ite_none_right_eq_some.1 h
      obtain rfl := Option.some.inj h
      exact copyEffect_allocCall s t size tlsRecycled
    · cases h
  | produce t => exact copyEffect_of_allocStep h
  | write t i b =>
    dsimp only [step] at h
    split at h
    · obtain ⟨-, h⟩ := Option.ite_none_right_eq_some.1 h
      obtain rfl := Option.some.inj h
      exact .others _ _ (fun _ => rfl) rfl (Or.inl rfl) rfl
    · cases h
  | commit t =>
    dsimp only [step] at h
    split at h
    · obtain rfl := Option.some.inj h
      exact .keeps _ _ t .idle (fun _ => rfl) rfl rfl rfl nofun
    · cases h
  | readChunk | dataTraverse =>
    dsimp only [step] at h
    split at h
    · obtain rfl := Option.some.inj h
      exact .others _ _ (fun _ => rfl) rfl (Or.inl rfl) rfl
    · cases h
  | returnReadChunk => exact copyEffect_of_returnReadChunk h
  | consume => exact copyEffect_of_consumerStep h

end Effect

/-! ## Rings that come and go -/

/-- A ring that exists, with the history of the copies of its read cursor. -/
structure Object where
  blockCount : BlockCount
  ring : State
  /-- The copy of the thread comes from an earlier ring at this address. -/
  foreign : ℕ → Bool
  /-- The blocks by which the read cursor has moved since the thread loaded its copy. -/
  advance : ℕ → ℕ

/-- The rings at their addresses, and the copies that the threads keep for the other addresses. -/
structure World where
  objects : ℕ → Option Object
  entries : ℕ → ℕ → Option ℕ

/-- No ring was ever constructed. -/
def World.empty : World := ⟨fun _ => none, fun _ _ => none⟩

/-- What happens to the rings. -/
inductive WorldAct
  /-- The constructor; `ring` is the ring that it leaves, new or recovered. -/
  | construct (address : ℕ) (blockCount : BlockCount) (ring : State)
  | destruct (address : ℕ)
  /-- A step on the ring at the address. -/
  | use (address : ℕ) (a : Act)

/-- A ring after construction: the threads find the copies that they have for its address. -/
def Object.constructed (entries : ℕ → Option ℕ) (blockCount : BlockCount) (ring : State) : Object where
  blockCount := blockCount
  ring := { ring with threads := fun t => ⟨entries t, .idle, 0⟩ }
  foreign := fun t => (entries t).isSome
  advance := fun _ => 0

/-- The history after a step. -/
def Object.after (o : Object) (a : Act) (s : State) : Object where
  blockCount := o.blockCount
  ring := s
  foreign := fun t => o.foreign t && !loadsCopy o.ring a t && (s.threads t).cache.isSome
  advance := fun t =>
    if loadsCopy o.ring a t then 0 else o.advance t + sub32 s.readCursor o.ring.readCursor

/-- One step of the world. -/
def World.step (w : World) : WorldAct → Option World
  | .construct address blockCount ring =>
    match w.objects address with
    | some _ => none
    | none =>
      if ring.readCursor < 2 ^ 32 ∧ ring.readCursorCache < 2 ^ 32 then
        some { w with
          objects := Function.update w.objects address
            (some (Object.constructed (w.entries address) blockCount ring)) }
      else none
  | .destruct address =>
    (w.objects address).map fun o =>
      { objects := Function.update w.objects address none
        entries := Function.update w.entries address fun t => (o.ring.threads t).cache }
  | .use address a =>
    (w.objects address).bind fun o => (Miso.step o.blockCount o.ring a).map fun s =>
      { w with objects := Function.update w.objects address (some (o.after a s)) }

/-- The copy is ahead of the cursor, as 32-bit values are compared. -/
def Ahead (copy cursor : ℕ) : Prop := 0 < sub32 copy cursor ∧ sub32 copy cursor < 2 ^ 31

instance (copy cursor : ℕ) : Decidable (Ahead copy cursor) := inferInstanceAs (Decidable (_ ∧ _))

/-- The copy belongs to this ring, and is at most half of the range behind. -/
def Object.CopyFresh (o : Object) (t : ℕ) : Prop := o.foreign t = false ∧ o.advance t % 2 ^ 32 ≤ 2 ^ 31

/-- No thread calls `alloc_write_chunk` with a copy that is foreign or too far behind, and the consumer
does not leave a copy in use too far behind. -/
def Object.StepOk (o : Object) : Act → Prop
  | .alloc t _ tlsRecycled => tlsRecycled = true ∨ (o.ring.threads t).cache = none ∨ o.CopyFresh t
  | .consume => o.ring.consumer = .release → ∀ t, (o.ring.threads t).pc.inAlloc = true →
      (o.ring.threads t).cache.isSome = true →
        (o.advance t + sub32 o.ring.readCursorCache o.ring.readCursor) % 2 ^ 32 ≤ 2 ^ 31
  | _ => True

/-- The condition on a step of the world. -/
def World.StepOk (w : World) : WorldAct → Prop
  | .use address a => ∀ o, w.objects address = some o → o.StepOk a
  | _ => True

/-! ## The invariant -/

/-- A copy of this ring is its read cursor at an earlier time. -/
structure Object.CopiesOk (o : Object) : Prop where
  cursor_lt : o.ring.readCursor < 2 ^ 32
  cache_lt : o.ring.readCursorCache < 2 ^ 32
  behind : ∀ t c, (o.ring.threads t).cache = some c → o.foreign t = false →
    o.ring.readCursor = (c + o.advance t) % 2 ^ 32
  fresh : ∀ t, (o.ring.threads t).pc.inAlloc = true → (o.ring.threads t).cache.isSome = true →
    o.CopyFresh t

/-- A copy that is half of the range behind is not ahead. -/
theorem not_ahead_of_behind {copy cursor advance : ℕ} (h : cursor = (copy + advance) % 2 ^ 32)
    (hle : advance % 2 ^ 32 ≤ 2 ^ 31) : ¬ Ahead copy cursor := by
  rintro ⟨hpos, hlt⟩
  unfold sub32 at hpos hlt
  omega

section Object

variable {o : Object} {a : Act} {s : State}

theorem copiesOk_constructed (entries : ℕ → Option ℕ) (blockCount : BlockCount) {ring : State}
    (hcursor : ring.readCursor < 2 ^ 32) (hcache : ring.readCursorCache < 2 ^ 32) :
    (Object.constructed entries blockCount ring).CopiesOk where
  cursor_lt := hcursor
  cache_lt := hcache
  behind := by
    intro t c hc hforeign
    change entries t = some c at hc
    change (entries t).isSome = false at hforeign
    rw [hc] at hforeign
    cases hforeign
  fresh := nofun

/-- A copy that stays is as far behind as the cursor has moved. -/
theorem Object.CopiesOk.behind_of_stays (h : o.CopiesOk) {t c : ℕ} (hload : loadsCopy o.ring a t = false)
    (hcache : (s.threads t).cache = some c → (o.ring.threads t).cache = some c)
    (hlt : s.readCursor < 2 ^ 32) (hc : (s.threads t).cache = some c)
    (hforeign : (o.after a s).foreign t = false) :
    s.readCursor = (c + (o.after a s).advance t) % 2 ^ 32 := by
  have hold : o.foreign t = false := by
    simpa only [Object.after, hload, hc, Option.isSome_some, Bool.not_false, Bool.and_true] using hforeign
  have hbehind := h.behind t c (hcache hc) hold
  have hcursor := h.cursor_lt
  simp only [Object.after, hload, Bool.false_eq_true, if_false]
  unfold sub32
  omega

/-- A copy that was fresh stays so while the cursor does not move. -/
theorem Object.CopyFresh.after {t : ℕ} (h : o.CopyFresh t) (hload : loadsCopy o.ring a t = false)
    (hcursor : s.readCursor = o.ring.readCursor) : (o.after a s).CopyFresh t := by
  refine ⟨?_, ?_⟩
  · simp only [Object.after, h.1, Bool.false_and]
  · have hzero : sub32 o.ring.readCursor o.ring.readCursor = 0 := by
      unfold sub32
      omega
    simp only [Object.after, hload, Bool.false_eq_true, if_false, hcursor, hzero, Nat.add_zero]
    exact h.2

/-- A copy that was just loaded is fresh. -/
theorem copyFresh_of_loads {t : ℕ} (hload : loadsCopy o.ring a t = true) : (o.after a s).CopyFresh t := by
  refine ⟨?_, ?_⟩
  · simp only [Object.after, hload, Bool.not_true, Bool.and_false, Bool.false_and]
  · simp only [Object.after, hload, if_true]
    omega

/-- A step on a ring keeps its copies. -/
theorem Object.CopiesOk.after (h : o.CopiesOk) (hok : o.StepOk a)
    (hstep : Miso.step o.blockCount o.ring a = some s) : (o.after a s).CopiesOk := by
  cases copyEffect_of_step hstep with
  | calls _ t size tlsRecycled th hcursor hcache hthreads hcopy =>
    have hload : ∀ u, loadsCopy o.ring (.alloc t size tlsRecycled) u = false := fun _ => rfl
    -- Only the thread that calls may lose its copy.
    have hstays : ∀ u c, (s.threads u).cache = some c → (o.ring.threads u).cache = some c ∧
        (u = t → tlsRecycled = false) := by
      intro u c hc
      rw [hthreads] at hc
      by_cases hut : u = t
      · subst hut
        rw [Function.update_self, hcopy] at hc
        cases tlsRecycled with
        | true => cases hc
        | false => exact ⟨hc, fun _ => rfl⟩
      · rw [Function.update_of_ne hut] at hc
        exact ⟨hc, fun hu => absurd hu hut⟩
    have hlt : s.readCursor < 2 ^ 32 := hcursor ▸ h.cursor_lt
    refine ⟨hlt, hcache.trans_lt h.cache_lt, fun u c hc hforeign =>
      h.behind_of_stays (hload u) (fun hc => (hstays u c hc).1) hlt hc hforeign, fun u hin hsome => ?_⟩
    obtain ⟨c, hc⟩ := Option.isSome_iff_exists.1 hsome
    obtain ⟨hold, hrecycled⟩ := hstays u c hc
    refine Object.CopyFresh.after ?_ (hload u) hcursor
    by_cases hut : u = t
    · rcases hok with htrue | hnone | hfresh
      · rw [hrecycled hut] at htrue
        cases htrue
      · rw [← hut, hold] at hnone
        cases hnone
      · rwa [hut]
    · refine h.fresh u ?_ (by rw [hold]; rfl)
      change (s.threads u).pc.inAlloc = true at hin
      rwa [hthreads, Function.update_of_ne hut] at hin
  | keeps _ _ t pc hload hcursor hcache hthreads hpc =>
    have hsame : ∀ u, (s.threads u).cache = (o.ring.threads u).cache ∧
        ((s.threads u).pc.inAlloc = true → (o.ring.threads u).pc.inAlloc = true) := by
      intro u
      rw [hthreads]
      by_cases hut : u = t
      · subst hut
        rw [Function.update_self]
        exact ⟨rfl, hpc⟩
      · rw [Function.update_of_ne hut]
        exact ⟨rfl, id⟩
    have hlt : s.readCursor < 2 ^ 32 := hcursor ▸ h.cursor_lt
    refine ⟨hlt, hcache.trans_lt h.cache_lt, fun u c hc hforeign =>
      h.behind_of_stays (hload u) (fun hc => (hsame u).1 ▸ hc) hlt hc hforeign, fun u hin hsome => ?_⟩
    exact (h.fresh u ((hsame u).2 hin) ((hsame u).1 ▸ hsome)).after (hload u) hcursor
  | loads _ t loaded pc hloads hcursor hcache hthreads =>
    have hself : loadsCopy o.ring (.produce t) t = true := by
      rw [loadsCopy, hloads, Bool.and_true, beq_self_eq_true]
    have hother : ∀ u, u ≠ t → loadsCopy o.ring (.produce t) u = false := fun u hut => by
      rw [loadsCopy, beq_eq_false_iff_ne.2 hut, Bool.false_and]
    have hlt : s.readCursor < 2 ^ 32 := hcursor ▸ h.cursor_lt
    refine ⟨hlt, hcache.trans_lt h.cache_lt, fun u c hc hforeign => ?_, fun u hin hsome => ?_⟩
    · by_cases hut : u = t
      · subst hut
        change (s.threads u).cache = some c at hc
        rw [hthreads, Function.update_self] at hc
        obtain rfl := Option.some.inj hc
        change s.readCursor = _
        rw [Object.after, hcursor]
        simp only [hself, if_true, Nat.add_zero]
        exact (Nat.mod_eq_of_lt h.cursor_lt).symm
      · refine h.behind_of_stays (hother u hut) (fun hc => ?_) hlt hc hforeign
        change (s.threads u).cache = some c at hc
        rwa [hthreads, Function.update_of_ne hut] at hc
    · by_cases hut : u = t
      · subst hut
        exact copyFresh_of_loads hself
      · change (s.threads u).pc.inAlloc = true at hin
        change (s.threads u).cache.isSome = true at hsome
        rw [hthreads, Function.update_of_ne hut] at hin hsome
        exact (h.fresh u hin hsome).after (hother u hut) hcursor
  | releases _ hconsumer hcursor hcache hthreads =>
    have hload : ∀ u, loadsCopy o.ring .consume u = false := fun _ => rfl
    have hlt : s.readCursor < 2 ^ 32 := hcursor ▸ h.cache_lt
    refine ⟨hlt, hcache.trans_lt h.cache_lt, fun u c hc hforeign =>
      h.behind_of_stays (hload u) (fun hc => hthreads ▸ hc) hlt hc hforeign, fun u hin hsome => ?_⟩
    change (s.threads u).pc.inAlloc = true at hin
    change (s.threads u).cache.isSome = true at hsome
    rw [hthreads] at hin hsome
    refine ⟨?_, ?_⟩
    · simp only [Object.after, (h.fresh u hin hsome).1, Bool.false_and]
    · have hle := hok hconsumer u hin hsome
      simpa only [Object.after, hload, Bool.false_eq_true, if_false, hcursor] using hle
  | others _ _ hload hcursor hcache hthreads =>
    have hlt : s.readCursor < 2 ^ 32 := hcursor ▸ h.cursor_lt
    refine ⟨hlt, ?_, fun u c hc hforeign =>
      h.behind_of_stays (hload u) (fun hc => hthreads ▸ hc) hlt hc hforeign, fun u hin hsome => ?_⟩
    · rcases hcache with heq | hlt'
      · exact heq.trans_lt h.cache_lt
      · exact hlt'
    · change (s.threads u).pc.inAlloc = true at hin
      change (s.threads u).cache.isSome = true at hsome
      rw [hthreads] at hin hsome
      exact (h.fresh u hin hsome).after (hload u) hcursor

end Object

/-- Every ring keeps its copies. -/
theorem World.copiesOk_step {w w' : World} {x : WorldAct} (h : ∀ a o, w.objects a = some o → o.CopiesOk)
    (hok : w.StepOk x) (hstep : w.step x = some w') : ∀ a o, w'.objects a = some o → o.CopiesOk := by
  -- Only the ring at one address changes.
  have update : ∀ (address : ℕ) (r : Option Object), (∀ o, r = some o → o.CopiesOk) →
      ∀ a o, Function.update w.objects address r a = some o → o.CopiesOk := by
    intro address r hr a o ho
    by_cases haddress : a = address
    · subst haddress
      rw [Function.update_self] at ho
      exact hr o ho
    · rw [Function.update_of_ne haddress] at ho
      exact h a o ho
  cases x with
  | construct address blockCount ring =>
    dsimp only [World.step] at hstep
    split at hstep
    · cases hstep
    · obtain ⟨⟨hcursor, hcache⟩, ⟨⟩⟩ := Option.ite_none_right_eq_some.1 hstep
      refine update address _ fun o ho => ?_
      obtain rfl := Option.some.inj ho
      exact copiesOk_constructed _ blockCount hcursor hcache
  | destruct address =>
    obtain ⟨o, -, rfl⟩ := Option.map_eq_some_iff.1 hstep
    exact update address none nofun
  | use address a =>
    obtain ⟨o, ho, hrest⟩ := Option.bind_eq_some_iff.1 hstep
    obtain ⟨s, hs, rfl⟩ := Option.map_eq_some_iff.1 hrest
    refine update address _ fun o' ho' => ?_
    obtain rfl := Option.some.inj ho'
    exact (h address o ho).after (hok o ho) hs

/-- **The copies of the read cursor.** Rings are constructed, used and destroyed, also one after the other
at the same address. When no thread calls `alloc_write_chunk` with a copy from an earlier ring, or with one
that is more than half of the 32-bit range behind, then no copy that is in use is ever ahead of the read
cursor of its ring. -/
theorem miso_copy_behind (w : World) (hrun : Runs World.step World.StepOk World.empty w)
    (address t copy : ℕ) (o : Object) (ho : w.objects address = some o)
    (hin : (o.ring.threads t).pc.inAlloc = true) (hcopy : (o.ring.threads t).cache = some copy) :
    ¬ Ahead copy o.ring.readCursor := by
  have h := Runs.invariant hrun (fun _ _ h => by cases h)
    (fun u v x hu hok hstep => World.copiesOk_step hu hok hstep) address o ho
  obtain ⟨hforeign, hle⟩ := h.fresh t hin (by rw [hcopy]; rfl)
  exact not_ahead_of_behind (h.behind t copy hcopy hforeign) hle

/-- The smallest ring: 16 blocks. -/
def smallest : BlockCount := ⟨4, by decide⟩

/-- A ring at address 0, new. -/
def constructFirst : WorldAct := .construct 0 smallest (State.init smallest 0 fun _ => 0)

/-- The producers call with copies that are their own and not too far behind, and the consumer publishes
nothing. -/
def World.Careful (w : World) : WorldAct → Prop
  | .use address (.alloc t _ tlsRecycled) => ∀ o ∈ w.objects address,
    tlsRecycled = true ∨ (o.ring.threads t).cache = none ∨ o.CopyFresh t
  | .use address .consume => ∀ o ∈ w.objects address, o.ring.consumer ≠ .release
  | _ => True

instance (o : Object) (t : ℕ) : Decidable (o.CopyFresh t) := inferInstanceAs (Decidable (_ ∧ _))

instance (w : World) (x : WorldAct) : Decidable (w.Careful x) := by
  unfold World.Careful
  split <;> infer_instance

theorem World.Careful.stepOk {w : World} {x : WorldAct} (h : w.Careful x) : w.StepOk x := by
  cases x with
  | construct | destruct => trivial
  | use address a =>
    intro o ho
    cases a with
    | alloc t size tlsRecycled => exact h o ho
    | consume => exact fun hrelease => absurd hrelease (h o ho)
    | _ => trivial

/-- The thread takes half of the ring and commits. -/
def takeHalf : List WorldAct :=
  [.use 0 (.alloc 1 1000 false)] ++ List.replicate 6 (.use 0 (.produce 1)) ++ [.use 0 (.commit 1)]

/-- A thread fills most of a ring, the consumer reads, and the ring is destroyed. In the next ring at
its address, which starts at block 5, a thread without a copy calls, and the first one after its storage was
recycled. -/
def secondRing : List WorldAct :=
  [constructFirst] ++ takeHalf ++ [.use 0 (.alloc 1 100 false)] ++ List.replicate 5 (.use 0 (.produce 1)) ++
    [.use 0 (.commit 1), .use 0 .readChunk, .use 0 .consume, .destruct 0,
      .construct 0 smallest (State.init smallest 5 fun _ => 0), .use 0 (.alloc 2 100 false),
      .use 0 (.produce 2), .use 0 (.produce 2), .use 0 (.alloc 1 100 true), .use 0 (.produce 1),
      .use 0 (.produce 1)]

theorem miso_copy_behind_secondRing : ∃ w o, (o.ring.threads 1).pc.inAlloc = true ∧
    (o.ring.threads 1).cache = some 5 ∧ w.objects 0 = some o ∧
      Runs World.step World.StepOk World.empty w ∧ ¬ Ahead 5 o.ring.readCursor := by
  let seen (w : World) : Option (Bool × Option ℕ) :=
    (w.objects 0).map fun o => ((o.ring.threads 1).pc.inAlloc, (o.ring.threads 1).cache)
  have hseen : (run (guarded World.step World.Careful) World.empty secondRing).bind seen =
      some (true, some 5) := by decide +kernel
  obtain ⟨w, hw, hthread⟩ := Option.bind_eq_some_iff.1 hseen
  obtain ⟨o, ho, hpair⟩ := Option.map_eq_some_iff.1 hthread
  obtain ⟨hin, hcopy⟩ := Prod.mk.inj hpair
  have hrun : Runs World.step World.StepOk World.empty w :=
    (Runs.of_run_guarded hw).mono fun _ _ h => h.stepOk
  exact ⟨w, o, hin, hcopy, ho, hrun, miso_copy_behind w hrun 0 1 5 o ho hin hcopy⟩

/-- The consumer reads a chunk of eight blocks and releases it. -/
def readHalf : List WorldAct :=
  [.use 0 .readChunk, .use 0 .consume, .use 0 .returnReadChunk] ++ List.replicate 10 (.use 0 .consume)

/-- A new ring at the address of the first one: the thread has a copy of the read cursor of the first ring,
which is eight blocks ahead of that of the new one. -/
theorem miso_copy_ahead : ∃ w o, run World.step World.empty
    ([constructFirst] ++ takeHalf ++ readHalf ++ takeHalf ++
      [.destruct 0, constructFirst, .use 0 (.alloc 1 100 false)]) = some w ∧
      w.objects 0 = some o ∧ (o.ring.threads 1).pc.inAlloc = true ∧
      (o.ring.threads 1).cache = some 8 ∧ Ahead 8 o.ring.readCursor := by
  let calls := [constructFirst] ++ takeHalf ++ readHalf ++ takeHalf ++
    [.destruct 0, constructFirst, .use 0 (.alloc 1 100 false)]
  let seen (w : World) : Option (Bool × Option ℕ × ℕ) := (w.objects 0).map fun o =>
    ((o.ring.threads 1).pc.inAlloc, (o.ring.threads 1).cache, o.ring.readCursor)
  have hseen : (run World.step World.empty calls).bind seen = some (true, some 8, 0) := by decide +kernel
  obtain ⟨w, hw, hthread⟩ := Option.bind_eq_some_iff.1 hseen
  obtain ⟨o, ho, htriple⟩ := Option.map_eq_some_iff.1 hthread
  obtain ⟨hin, hpair⟩ := Prod.mk.inj htriple
  obtain ⟨hcopy, hcursor⟩ := Prod.mk.inj hpair
  refine ⟨w, o, hw, ho, hin, hcopy, ?_⟩
  rw [hcursor]
  decide

end QLog.Miso
