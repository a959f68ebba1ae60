import QLog.Foundations.Transition

/-!
# File handles

A model of the file descriptors of `file_manager` and of the special members of `file_handle`. A descriptor
counts its references by hand: opening and copying increase the count, and `close_file` decreases it and
closes the file at zero. Assignment of a copy overwrites the handle without giving its reference back.

The allocated cells with the platform's handles are `heap`. A step has no result if it reads a freed cell
or fails an assertion, and also if it names an object that is not alive or an allocation that is not
possible. An object is a place in the list of all that were ever constructed.
-/

namespace QLog.Io

/-! ## States -/

/-- `file_manager::file_descriptor`. -/
structure FileDescriptor where
  handlePtr : Option ℕ
  seq : UInt32
  refCout : Int32
  filePath : List Char
  deriving DecidableEq

/-- `file_handle`. -/
structure FileHandle where
  idx : UInt32
  seq : UInt32
  handlePtr : Option ℕ
  filePath : List Char
  deriving DecidableEq

/-- The file manager, the cells that are allocated, and the objects of type `file_handle`; a destroyed one
is `none`. -/
structure State where
  seqGenerator : UInt32
  fileDescriptors : List FileDescriptor
  heap : ℕ → Option Int32
  objects : List (Option FileHandle)

/-- The constructor of `file_manager`. -/
def State.new : State := ⟨0, [], fun _ => none, []⟩

/-- `file_handle::invalid_idx`. -/
def invalidIdx : UInt32 := 0xFFFFFFFF

/-- The constructor of `file_descriptor`; `clear` leaves the same. -/
def FileDescriptor.cleared : FileDescriptor := ⟨none, 0, 0, []⟩

/-- `file_handle::clear`. -/
def FileHandle.cleared : FileHandle := ⟨invalidIdx, 0, none, []⟩

/-! ## Descriptors -/

/-- `is_platform_handle_valid`. -/
def isPlatformHandleValid (h : Int32) : Bool := 0 ≤ h

/-- `is_empty`. -/
def FileDescriptor.isEmpty (heap : ℕ → Option Int32) (d : FileDescriptor) : Option Bool :=
  match d.handlePtr with
  | none => some (d.seq == 0)
  | some p => (heap p).map fun h => !isPlatformHandleValid h && d.seq == 0

/-- `operator bool`. -/
def FileHandle.isTrue (heap : ℕ → Option Int32) (h : FileHandle) : Option Bool :=
  if h.idx ≠ invalidIdx ∧ 0 < h.seq then
    h.handlePtr.bind fun p => (heap p).map isPlatformHandleValid
  else some false

/-- `get_file_descriptor_index_by_handle`. An index from `2 ^ 31` on is negative. -/
def descriptorIndex (s : State) (h : FileHandle) : Option ℕ :=
  match s.fileDescriptors[h.idx.toNat]? with
  | none => none
  | some d => if h.seq ≠ d.seq then none else if h.idx.toNat < 2 ^ 31 then some h.idx.toNat else none

/-- A change of one descriptor. -/
def State.setDescriptor (s : State) (i : ℕ) (d : FileDescriptor) : State :=
  { s with fileDescriptors := s.fileDescriptors.set i d }

/-- `file_manager::inc_ref`. -/
def incRef (s : State) (h : FileHandle) : State :=
  match descriptorIndex s h with
  | none => s
  | some i =>
    match s.fileDescriptors[i]? with
    | none => s
    | some d => s.setDescriptor i { d with refCout := d.refCout + 1 }

/-- `dec_ref`, with `clear` at zero. -/
def decRef (s : State) (i : ℕ) (d : FileDescriptor) : Option State :=
  let refCout := d.refCout - 1
  if refCout < 0 then none
  else if refCout = 0 then
    d.handlePtr.bind fun p => (s.heap p).map fun _ =>
      { s.setDescriptor i .cleared with heap := Function.update s.heap p none }
  else some (s.setDescriptor i { d with refCout := refCout })

/-- `close_file`: what it returns, and the handle it leaves. -/
def closeFile (s : State) (h : FileHandle) : Option (Bool × FileHandle × State) :=
  (h.isTrue s.heap).bind fun holds =>
    if holds then
      match descriptorIndex s h with
      | none => some (false, h, s)
      | some i =>
        match s.fileDescriptors[i]? with
        | none => none
        | some d => (decRef s i d).map fun t => (true, .cleared, t)
    else some (false, h, s)

/-- The loop of `open_file`. The index that it finds is below `2 ^ 31`. -/
def firstEmptyIdx (heap : ℕ → Option Int32) : List FileDescriptor → ℕ → Option (Option ℕ)
  | [], _ => some none
  | d :: ds, i => (d.isEmpty heap).bind fun empty =>
    if empty then some (some i) else firstEmptyIdx heap ds (i + 1)

/-- What `open_file` meets: whether the directory is there or can be created, the error and the handle of
the platform, and the cell that `malloc` returns. -/
structure Opened where
  realPath : List Char
  hasDirectory : Bool
  errno : Int32
  platformHandle : Int32
  cell : ℕ
  deriving DecidableEq

/-- `open_file`: the handle it returns. -/
def openFile (s : State) (o : Opened) : Option (FileHandle × State) :=
  (firstEmptyIdx s.heap s.fileDescriptors 0).bind fun first =>
    if o.hasDirectory = false then some (.cleared, s)
    else if isPlatformHandleValid o.platformHandle = false ∨ o.errno ≠ 0 then some (.cleared, s)
    else if s.heap o.cell ≠ none then none
    else
      let heap := Function.update s.heap o.cell (some o.platformHandle)
      let ds := if first = none then s.fileDescriptors ++ [.cleared] else s.fileDescriptors
      let i := first.getD s.fileDescriptors.length
      match ds[i]? with
      | none => none
      | some d =>
        let seq := s.seqGenerator + 1
        let d : FileDescriptor := ⟨some o.cell, seq, d.refCout + 1, o.realPath⟩
        some (⟨UInt32.ofNat i, seq, some o.cell, o.realPath⟩,
          { s with seqGenerator := seq, fileDescriptors := ds.set i d, heap := heap })

/-! ## Objects -/

/-- The object with a number, if it is alive. -/
def State.object (s : State) (o : ℕ) : Option FileHandle := s.objects[o]?.join

/-- A new object. -/
def State.construct (s : State) (h : FileHandle) : State := { s with objects := s.objects ++ [some h] }

/-- A change of an object. -/
def State.assign (s : State) (o : ℕ) (h : Option FileHandle) : State :=
  { s with objects := s.objects.set o h }

/-- What a program does with handles. -/
inductive Action
  /-- A handle is constructed from the result of `open_file`. -/
  | openFile (o : Opened)
  | construct
  | copyConstruct (rhs : ℕ)
  | moveConstruct (rhs : ℕ)
  | copyAssign (this rhs : ℕ)
  | moveAssign (this rhs : ℕ)
  | closeFile (handle : ℕ)
  | invalid (this : ℕ)
  | destruct (this : ℕ)
  deriving DecidableEq

/-- `close_file` of an object, which then is `after`. -/
def closeObject (s : State) (o : ℕ) (after : FileHandle → Option FileHandle) : Option State :=
  (s.object o).bind fun h => (closeFile s h).map fun r => r.2.2.assign o (after r.2.1)

/-- The fields of `rhs` go to `this`, and `rhs` is cleared. -/
def moveObject (s : State) (this rhs : ℕ) : Option State :=
  (s.object rhs).map fun h => (s.assign this (some h)).assign rhs (some .cleared)

/-- One action. -/
def step (s : State) : Action → Option State
  | .openFile o => (openFile s o).map fun r => r.2.construct r.1
  | .construct => some (s.construct .cleared)
  | .copyConstruct rhs => (s.object rhs).map fun h => (incRef s h).construct h
  | .moveConstruct rhs => (s.object rhs).bind fun _ =>
    moveObject (s.construct .cleared) s.objects.length rhs
  | .copyAssign this rhs => (s.object this).bind fun _ => (s.object rhs).map fun h =>
    incRef (s.assign this (some h)) h
  | .moveAssign this rhs => (closeObject s this some).bind fun t => moveObject t this rhs
  | .closeFile handle => closeObject s handle some
  | .invalid this => closeObject s this fun _ => some .cleared
  | .destruct this => closeObject s this fun _ => none

/-! ## What a state promises -/

/-- A handle has this index and sequence number. -/
def FileHandle.refers (h : FileHandle) (i : ℕ) (q : UInt32) : Bool := h.idx.toNat == i && h.seq == q

/-- How many live handles have this index and sequence number. -/
def State.live (s : State) (i : ℕ) (q : UInt32) : ℕ := s.objects.countP fun o => o.any (·.refers i q)

/-- The descriptor at `i` has an open file under this sequence number. -/
def State.Open (s : State) (i : ℕ) (q : UInt32) : Prop :=
  ∃ d p f, s.fileDescriptors[i]? = some d ∧ d.seq = q ∧ d.handlePtr = some p ∧ s.heap p = some f

/-- The counts of the descriptors are those of the live handles. -/
structure Balanced (s : State) : Prop where
  /-- The count of an open descriptor is the number of its live handles. -/
  count_eq : ∀ i d, s.fileDescriptors[i]? = some d → d.handlePtr ≠ none →
    d.refCout.toInt = (s.live i d.seq : ℤ)
  /-- A file is open as long as there are live handles, and no longer. -/
  open_iff : ∀ i q, i ≠ invalidIdx.toNat → (s.Open i q ↔ 0 < s.live i q)

/-! ## What the counts need -/

/-- `open_file` gets as far as a descriptor. -/
structure Opened.Succeeds (o : Opened) : Prop where
  hasDirectory : o.hasDirectory = true
  valid : isPlatformHandleValid o.platformHandle = true
  errno : o.errno = 0

/-- The objects of an action are alive, and `malloc` returns a cell that is free. -/
def Possible (s : State) : Action → Prop
  | .openFile o => o.Succeeds → s.heap o.cell = none
  | .construct => True
  | .copyConstruct rhs | .moveConstruct rhs => (s.object rhs).isSome = true
  | .copyAssign this rhs | .moveAssign this rhs =>
    (s.object this).isSome = true ∧ (s.object rhs).isSome = true
  | .closeFile this | .invalid this | .destruct this => (s.object this).isSome = true

/-- The descriptor of an object can count one more handle. -/
def BelowMax (s : State) (o : ℕ) : Prop :=
  ∀ h i d, s.object o = some h → descriptorIndex s h = some i → s.fileDescriptors[i]? = some d →
    d.refCout ≠ 2147483647

/-- No copy is assigned to a handle that holds a file, and the numbers do not run over: the sequence number
does not come around to zero, an index is an `int32_t`, and a count is one. -/
def Safe (s : State) : Action → Prop
  | .openFile o => o.Succeeds → s.seqGenerator + 1 ≠ 0 ∧ s.fileDescriptors.length < 2 ^ 31
  | .copyConstruct rhs => BelowMax s rhs
  | .copyAssign this rhs => (∀ h, s.object this = some h → h.isTrue s.heap = some false) ∧ BelowMax s rhs
  | _ => True

end QLog.Io
