import QLog.Foundations.Lockstep
import QLog.Foundations.Bytes

/-!
# The hash of a byte string, and copying with it

A model of `hash_core`: four lanes consume words of the source, and the variant that copies stores every word
that it consumes. Long strings are consumed in blocks of 32 bytes and a last window that overlaps the block
before it; short ones in words that may overlap. The steps of the checksum are left open (`Ops`).

All variants run in lockstep (`lockstep_hashCore`): they consume the same words, since what was copied so far is
outside the source (`Copied`). So the hash depends on the bytes of the string alone (`getHash64_eq`), and copying
stores these bytes and returns their hash (`qlogMemcpyWithHash_eq`).
-/

namespace QLog.Hash

open Bytes

/-! ## The code -/

/-- The widths of a word. -/
inductive Word
  | one
  | two
  | four
  | eight

/-- The bytes of a word. -/
def Word.bytes : Word → ℕ
  | one => 1
  | two => 2
  | four => 4
  | eight => 8

/-- The steps of the checksum, for words of every width. -/
structure Ops where
  u8 : BitVec 32 → BitVec 8 → BitVec 32
  u16 : BitVec 32 → BitVec 16 → BitVec 32
  u32 : BitVec 32 → BitVec 32 → BitVec 32
  u64 : BitVec 32 → BitVec 64 → BitVec 32

/-- The step for a word. -/
def Ops.step (ops : Ops) (crc : BitVec 32) (v : ℕ) : Word → BitVec 32
  | .one => ops.u8 crc (BitVec.ofNat 8 v)
  | .two => ops.u16 crc (BitVec.ofNat 16 v)
  | .four => ops.u32 crc (BitVec.ofNat 32 v)
  | .eight => ops.u64 crc (BitVec.ofNat 64 v)

/-- The lanes `h1` to `h4`. -/
structure Lanes where
  h1 : BitVec 32
  h2 : BitVec 32
  h3 : BitVec 32
  h4 : BitVec 32

/-- The lanes at the start. -/
def Lanes.init : Lanes := ⟨BitVec.allOnes 32, BitVec.allOnes 32, BitVec.allOnes 32, BitVec.allOnes 32⟩

/-- The hash of the lanes. -/
def Lanes.raw (h : Lanes) : BitVec 64 :=
  let low := h.h1 ^^^ h.h3.rotateLeft 17
  let high := h.h2 ^^^ h.h4.rotateLeft 19
  (high.setWidth 64 <<< 32) ||| low.setWidth 64

section Core

variable (copy : Bool) (ops : Ops) (src dst : ℕ)

/-- `consume_word`. -/
def consumeWord (width : Word) (crc : BitVec 32) (offset : ℕ) : StateM Mem (BitVec 32) := fun m =>
  let v := m.load (src + offset) width.bytes
  (ops.step crc v width, if copy then m.store (dst + offset) width.bytes v else m)

/-- The four words of a block, or of the last window. -/
def consumeBlock (h : Lanes) (offset : ℕ) : StateM Mem Lanes := do
  let h1 ← consumeWord copy ops src dst .eight h.h1 offset
  let h2 ← consumeWord copy ops src dst .eight h.h2 (offset + 8)
  let h3 ← consumeWord copy ops src dst .eight h.h3 (offset + 16)
  let h4 ← consumeWord copy ops src dst .eight h.h4 (offset + 24)
  return ⟨h1, h2, h3, h4⟩

/-- The loop over the blocks, and the offset behind them. -/
def blockLoop (len offset : ℕ) (h : Lanes) : StateM Mem (ℕ × Lanes) :=
  if offset + 32 ≤ len then do
    let h ← consumeBlock copy ops src dst h offset
    blockLoop len (offset + 32) h
  else return (offset, h)
termination_by len - offset

/-- Fewer than 4 bytes. -/
def hashTiny (len : ℕ) : StateM Mem Lanes := do
  let lenMix := BitVec.ofNat 32 len
  let h := Lanes.init
  let h1 ← if len &&& 2 ≠ 0 then consumeWord copy ops src dst .two (h.h1 ^^^ lenMix) 0 else pure h.h1
  let offset := if len &&& 2 ≠ 0 then 2 else 0
  let h2 ← if len &&& 1 ≠ 0 then consumeWord copy ops src dst .one (h.h2 ^^^ lenMix) offset else pure h.h2
  return { h with h1 := h1, h2 := h2 }

/-- Two words of the given width, which may overlap. -/
def hashTwo (width : Word) (len : ℕ) : StateM Mem Lanes := do
  let lenMix := BitVec.ofNat 32 len
  let h := Lanes.init
  let h1 ← consumeWord copy ops src dst width h.h1 0
  let h2 ← consumeWord copy ops src dst width (h.h2 ^^^ lenMix) (len - width.bytes)
  return { h with h1 := h1, h2 := h2 }

/-- From 16 to 31 bytes. -/
def hashFour (len : ℕ) : StateM Mem Lanes := do
  let lenMix := BitVec.ofNat 32 len
  let h := Lanes.init
  let h1 ← consumeWord copy ops src dst .eight h.h1 0
  let h2 ← consumeWord copy ops src dst .eight h.h2 8
  let h3 ← consumeWord copy ops src dst .eight (h.h3 ^^^ lenMix) (len - 16)
  let h4 ← consumeWord copy ops src dst .eight (h.h4 ^^^ lenMix) (len - 8)
  return ⟨h1, h2, h3, h4⟩

/-- From 32 bytes on. -/
def hashLong (len : ℕ) : StateM Mem Lanes := do
  let (offset, h) ← blockLoop copy ops src dst len 0 .init
  if offset ≠ len then consumeBlock copy ops src dst h (len - 32) else return h

/-- `hash_core`. -/
def hashCore (len : ℕ) : StateM Mem (BitVec 64) :=
  if len = 0 then return 0
  else do
    let h ← if len < 4 then hashTiny copy ops src dst len
      else if len < 8 then hashTwo copy ops src dst .four len
      else if len < 16 then hashTwo copy ops src dst .eight len
      else if len < 32 then hashFour copy ops src dst len
      else hashLong copy ops src dst len
    return h.raw

end Core

/-- The steps that the processor has, and whether it is one that has them. -/
structure Platform where
  crc32Supported : Bool
  x86 : Ops
  software : Ops

/-- The steps in use. -/
def Platform.ops (P : Platform) : Ops := if P.crc32Supported then P.x86 else P.software

/-- `get_hash_64`. -/
def getHash64 (P : Platform) (m : Mem) (data size : ℕ) : BitVec 64 := ((hashCore false P.ops data 0 size).run m).1

/-- `qlog_memcpy_with_hash`: the hash, and the memory with the copy. -/
def qlogMemcpyWithHash (P : Platform) (m : Mem) (dst src len : ℕ) : BitVec 64 × Mem :=
  (hashCore true P.ops src dst len).run m

/-! ## Lockstep -/

/-- A call on the string `bs`: the variant, the memory before the call, and where the source and the copy are. The
copy does not overlap the source. -/
structure Variant (bs : List UInt8) where
  copy : Bool
  memory : Mem
  src : ℕ
  dst : ℕ
  source : memory.slice src bs.length = bs
  apart : copy = true → ∀ i < bs.length, ∀ j < bs.length, src + i ≠ dst + j

/-- The bytes at the offsets of `S` are copied, and nothing else has changed. -/
structure Copied {bs : List UInt8} (v : Variant bs) (S : Set ℕ) (m : Mem) : Prop where
  lt : ∀ i ∈ S, i < bs.length
  inside : v.copy = true → ∀ i ∈ S, m (v.dst + i) = v.memory (v.src + i)
  outside : ∀ x, (v.copy = true → ∀ i ∈ S, x ≠ v.dst + i) → m x = v.memory x

variable {bs : List UInt8} {v : Variant bs} {S : Set ℕ} {m : Mem}

/-- The source has not changed. -/
theorem Copied.source_eq (h : Copied v S m) {i : ℕ} (hi : i < bs.length) : m (v.src + i) = v.memory (v.src + i) :=
  h.outside _ fun hcopy j hj => v.apart hcopy i hi j (h.lt j hj)

/-- A word of the source. -/
theorem Copied.load_eq (h : Copied v S m) {offset n : ℕ} (hle : offset + n ≤ bs.length) :
    m.load (v.src + offset) n = ofLe (sub bs offset n) := by
  have hsame : m.slice (v.src + offset) n = v.memory.slice (v.src + offset) n := by
    refine Mem.slice_congr fun x hx hx' => ?_
    obtain ⟨i, rfl⟩ := Nat.exists_eq_add_of_le hx
    rw [Nat.add_assoc]
    exact h.source_eq (by omega)
  rw [load_eq_ofLe, hsame, ← sub_slice v.memory hle, v.source]

/-- Storing a word that was loaded moves its bytes. -/
theorem store_load (m : Mem) (a b n : ℕ) : m.store a n (m.load b n) = m.move a b n := by
  have hbytes := toLe_ofLe (m.slice b n)
  rw [Mem.length_slice, ← load_eq_ofLe] at hbytes
  funext x
  rw [store_eq_write, hbytes, Mem.move]
  split_ifs with hx
  · have hlt : x - a < (m.slice b n).length := by
      rw [Mem.length_slice]
      omega
    rw [Mem.write, if_pos hx.1, List.getD_eq_getElem _ _ hlt]
    simp [Mem.slice]
  · exact Mem.write_apply_of_not_mem m (by rw [Mem.length_slice]; omega)

theorem Copied.store (h : Copied v S m) (hcopy : v.copy = true) {offset n : ℕ} (hle : offset + n ≤ bs.length) :
    Copied v (S ∪ Set.Ico offset (offset + n)) (m.store (v.dst + offset) n (m.load (v.src + offset) n)) := by
  rw [store_load]
  refine ⟨fun i hi => ?_, fun _ i hi => ?_, fun x hx => ?_⟩
  · rcases hi with hi | hi
    · exact h.lt i hi
    · exact hi.2.trans_le hle
  · rw [Mem.move]
    split_ifs with hin
    · rw [← h.source_eq (show i < bs.length by omega)]
      congr 1
      omega
    · rcases hi with hi | hi
      · exact h.inside hcopy i hi
      · exact absurd ⟨Nat.add_le_add_left hi.1 _, by have := hi.2; omega⟩ hin
  · have hout : ¬ (v.dst + offset ≤ x ∧ x < v.dst + offset + n) := fun hin =>
      hx hcopy (x - v.dst) (.inr ⟨by omega, by omega⟩) (by omega)
    rw [Mem.move, if_neg hout]
    exact h.outside x fun _ i hi => hx hcopy i (.inl hi)

/-- Without copying there is nothing to show. -/
theorem Copied.hash (h : Copied v S m) (hcopy : v.copy = false) {T : Set ℕ} (hT : ∀ i ∈ T, i < bs.length) :
    Copied v (S ∪ T) m where
  lt i hi := hi.elim (h.lt i) (hT i)
  inside hc := absurd hc (by simp [hcopy])
  outside x _ := h.outside x fun hc => absurd hc (by simp [hcopy])

section Rules

variable (ops : Ops)

/-- A word is consumed: the lanes depend on the string, and the word is copied. -/
theorem lockstep_consumeWord (width : Word) (crc : BitVec 32) {offset : ℕ}
    (hle : offset + width.bytes ≤ bs.length) :
    Lockstep (@Copied bs) S (fun v => consumeWord v.copy ops v.src v.dst width crc offset)
      fun _ T => T = S ∪ Set.Ico offset (offset + width.bytes) := by
  refine ⟨ops.step crc (ofLe (sub bs offset width.bytes)) width, _, rfl, fun v m h => ⟨?_, ?_⟩⟩
  · show ops.step crc (m.load (v.src + offset) width.bytes) width = _
    rw [h.load_eq hle]
  · show Copied v _ (if v.copy then _ else m)
    split_ifs with hcopy
    · exact h.store hcopy hle
    · exact h.hash (by simpa using hcopy) fun i hi => hi.2.trans_le hle

/-- A block is consumed. -/
theorem lockstep_consumeBlock (h : Lanes) {offset : ℕ} (hle : offset + 32 ≤ bs.length) :
    Lockstep (@Copied bs) S (fun v => consumeBlock v.copy ops v.src v.dst h offset)
      fun _ T => S ∪ Set.Ico offset (offset + 32) ⊆ T := by
  simp only [consumeBlock]
  refine .bind (lockstep_consumeWord ops .eight _ (by simp only [Word.bytes]; omega)) fun h1 _ h₁ => ?_
  refine .bind (lockstep_consumeWord ops .eight _ (by simp only [Word.bytes]; omega)) fun h2 _ h₂ => ?_
  refine .bind (lockstep_consumeWord ops .eight _ (by simp only [Word.bytes]; omega)) fun h3 _ h₃ => ?_
  refine .bind (lockstep_consumeWord ops .eight _ (by simp only [Word.bytes]; omega)) fun h4 _ h₄ => ?_
  subst h₁ h₂ h₃ h₄
  refine .pure fun i hi => ?_
  rcases hi with hi | hi
  · exact .inl (.inl (.inl (.inl hi)))
  · simp only [Set.mem_union, Set.mem_Ico, Word.bytes] at hi ⊢
    omega

/-- The blocks are consumed, up to fewer than 32 bytes. -/
theorem lockstep_blockLoop (offset : ℕ) (h : Lanes) (hS : Set.Iio offset ⊆ S) (hle : offset ≤ bs.length) :
    Lockstep (@Copied bs) S (fun v => blockLoop v.copy ops v.src v.dst bs.length offset h)
      fun r T => Set.Iio r.1 ⊆ T ∧ r.1 ≤ bs.length ∧ bs.length < r.1 + 32 := by
  induction hn : bs.length - offset using Nat.strong_induction_on generalizing offset h S with
  | _ n ih =>
    by_cases hlt : offset + 32 ≤ bs.length
    · have hstep : (fun v : Variant bs => blockLoop v.copy ops v.src v.dst bs.length offset h) =
          fun v => consumeBlock v.copy ops v.src v.dst h offset >>= fun h =>
            blockLoop v.copy ops v.src v.dst bs.length (offset + 32) h := by
        funext v
        rw [blockLoop, if_pos hlt]
      rw [hstep]
      refine .bind (lockstep_consumeBlock ops h hlt) fun h' T hT => ?_
      refine ih (bs.length - (offset + 32)) (by omega) (offset + 32) h' (fun i hi => hT ?_) hlt rfl
      rw [Set.mem_Iio] at hi
      by_cases hi' : i < offset
      · exact .inl (hS hi')
      · exact .inr ⟨by omega, hi⟩
    · have hstop : (fun v : Variant bs => blockLoop v.copy ops v.src v.dst bs.length offset h) =
          fun _ => pure (offset, h) := by
        funext v
        rw [blockLoop, if_neg hlt]
      rw [hstop]
      exact .pure ⟨hS, hle, by omega⟩

/-- The two words of a short string cover it. -/
theorem lockstep_hashTwo (width : Word) (hle : width.bytes ≤ bs.length) (hlt : bs.length ≤ 2 * width.bytes) :
    Lockstep (@Copied bs) S (fun v => hashTwo v.copy ops v.src v.dst width bs.length)
      fun _ T => Set.Iio bs.length ⊆ T := by
  simp only [hashTwo]
  refine .bind (lockstep_consumeWord ops width _ (by omega)) fun h1 _ h₁ => ?_
  refine .bind (lockstep_consumeWord ops width _ (by omega)) fun h2 _ h₂ => ?_
  subst h₁ h₂
  refine .pure fun i hi => ?_
  simp only [Set.mem_union, Set.mem_Ico, Set.mem_Iio] at hi ⊢
  omega

/-- The four words of a string from 16 bytes on cover it. -/
theorem lockstep_hashFour (hle : 16 ≤ bs.length) (hlt : bs.length < 32) :
    Lockstep (@Copied bs) S (fun v => hashFour v.copy ops v.src v.dst bs.length)
      fun _ T => Set.Iio bs.length ⊆ T := by
  simp only [hashFour]
  refine .bind (lockstep_consumeWord ops .eight _ (by simp only [Word.bytes]; omega)) fun h1 _ h₁ => ?_
  refine .bind (lockstep_consumeWord ops .eight _ (by simp only [Word.bytes]; omega)) fun h2 _ h₂ => ?_
  refine .bind (lockstep_consumeWord ops .eight _ (by simp only [Word.bytes]; omega)) fun h3 _ h₃ => ?_
  refine .bind (lockstep_consumeWord ops .eight _ (by simp only [Word.bytes]; omega)) fun h4 _ h₄ => ?_
  subst h₁ h₂ h₃ h₄
  refine .pure fun i hi => ?_
  simp only [Set.mem_union, Set.mem_Ico, Set.mem_Iio, Word.bytes] at hi ⊢
  omega

/-- The words of at most 3 bytes cover them. -/
theorem lockstep_hashTiny (hpos : 0 < bs.length) (hlt : bs.length < 4) :
    Lockstep (@Copied bs) S (fun v => hashTiny v.copy ops v.src v.dst bs.length)
      fun _ T => Set.Iio bs.length ⊆ T := by
  have hcases : bs.length = 1 ∨ bs.length = 2 ∨ bs.length = 3 := by omega
  rcases hcases with hlen | hlen | hlen
  all_goals
    simp only [hashTiny, hlen, Nat.reduceAnd, ne_eq, not_true_eq_false, not_false_eq_true, if_true, if_false,
      OfNat.ofNat_ne_zero, one_ne_zero]
  · refine .bind (.pure (Q := fun _ T => T = S) rfl) fun h1 _ h₁ => ?_
    refine .bind (lockstep_consumeWord ops .one _ (by simp only [Word.bytes]; omega)) fun h2 _ h₂ => ?_
    subst h₁ h₂
    refine .pure fun i hi => ?_
    simp only [Set.mem_union, Set.mem_Ico, Set.mem_Iio, Word.bytes] at hi ⊢
    omega
  · refine .bind (lockstep_consumeWord ops .two _ (by simp only [Word.bytes]; omega)) fun h1 _ h₁ => ?_
    refine .bind (.pure (Q := fun _ T => T = S ∪ Set.Ico 0 (0 + Word.two.bytes)) h₁) fun h2 _ h₂ => ?_
    subst h₁ h₂
    refine .pure fun i hi => ?_
    simp only [Set.mem_union, Set.mem_Ico, Set.mem_Iio, Word.bytes] at hi ⊢
    omega
  · refine .bind (lockstep_consumeWord ops .two _ (by simp only [Word.bytes]; omega)) fun h1 _ h₁ => ?_
    refine .bind (lockstep_consumeWord ops .one _ (by simp only [Word.bytes]; omega)) fun h2 _ h₂ => ?_
    subst h₁ h₂
    refine .pure fun i hi => ?_
    simp only [Set.mem_union, Set.mem_Ico, Set.mem_Iio, Word.bytes] at hi ⊢
    omega

/-- The blocks and the last window of a long string cover it. -/
theorem lockstep_hashLong (hle : 32 ≤ bs.length) :
    Lockstep (@Copied bs) ∅ (fun v => hashLong v.copy ops v.src v.dst bs.length)
      fun _ T => Set.Iio bs.length ⊆ T := by
  simp only [hashLong]
  refine .bind (lockstep_blockLoop ops 0 .init (fun i hi => absurd hi (by simp)) (Nat.zero_le _)) ?_
  rintro ⟨offset, h⟩ T ⟨hT, hoff, hend⟩
  by_cases hne : offset = bs.length
  · simp only [ne_eq, hne, not_true_eq_false, if_false]
    exact .pure (hne ▸ hT)
  · simp only [ne_eq, hne, not_false_eq_true, if_true]
    refine (lockstep_consumeBlock ops h (by omega)).mono fun _ U hU i hi => hU ?_
    rw [Set.mem_Iio] at hi
    by_cases hi' : i < offset
    · exact .inl (hT hi')
    · exact .inr ⟨by simp only at hend; omega, by omega⟩

/-- **All variants return one hash, and copy all bytes.** -/
theorem lockstep_hashCore :
    Lockstep (@Copied bs) ∅ (fun v => hashCore v.copy ops v.src v.dst bs.length)
      fun _ T => Set.Iio bs.length ⊆ T := by
  simp only [hashCore]
  split_ifs with h0 h4 h8 h16 h32
  · exact .pure fun i hi => absurd hi (by simp [h0])
  · exact .bind (lockstep_hashTiny ops (by omega) h4) fun _ _ hT => .pure hT
  · exact .bind (lockstep_hashTwo ops .four (by simp only [Word.bytes]; omega)
      (by simp only [Word.bytes]; omega)) fun _ _ hT => .pure hT
  · exact .bind (lockstep_hashTwo ops .eight (by simp only [Word.bytes]; omega)
      (by simp only [Word.bytes]; omega)) fun _ _ hT => .pure hT
  · exact .bind (lockstep_hashFour ops (by omega) h32) fun _ _ hT => .pure hT
  · exact .bind (lockstep_hashLong ops (by omega)) fun _ _ hT => .pure hT

end Rules

/-! ## The hash and the copy -/

/-- Before the call nothing is copied. -/
theorem Variant.copied (v : Variant bs) : Copied v ∅ v.memory where
  lt i hi := absurd hi (Set.notMem_empty i)
  inside _ i hi := absurd hi (Set.notMem_empty i)
  outside _ _ := rfl

/-- A memory that has the string at an address, and nothing else changed. -/
theorem eq_write_of_forall {bs : List UInt8} {m m' : Mem} {a : ℕ} (hin : ∀ i, (h : i < bs.length) → m' (a + i) = bs[i])
    (hout : ∀ x, (∀ i < bs.length, x ≠ a + i) → m' x = m x) : m' = m.write a bs := by
  funext x
  by_cases hx : a ≤ x ∧ x < a + bs.length
  · obtain ⟨i, rfl⟩ := Nat.exists_eq_add_of_le hx.1
    have hi : i < bs.length := by omega
    rw [hin i hi, Mem.write, if_pos hx.1, List.getD_eq_getElem _ _ (by omega)]
    simp only [Nat.add_sub_cancel_left]
  · rw [hout x fun i hi => by omega, Mem.write_apply_of_not_mem m (by omega)]

/-- The hash of a byte string, computed where it stands at the start of an empty memory. -/
def hashOf (P : Platform) (bs : List UInt8) : BitVec 64 := getHash64 P (Mem.write (fun _ => 0) 0 bs) 0 bs.length

/-- The call of `get_hash_64` on a string in memory. -/
def plain (m : Mem) (src len : ℕ) : Variant (m.slice src len) where
  copy := false
  memory := m
  src := src
  dst := 0
  source := by rw [Mem.length_slice]
  apart hcopy := by cases hcopy

/-- The call of `qlog_memcpy_with_hash`. -/
def copying (m : Mem) {dst src len : ℕ} (h : ∀ i < len, ∀ j < len, src + i ≠ dst + j) :
    Variant (m.slice src len) where
  copy := true
  memory := m
  src := src
  dst := dst
  source := by rw [Mem.length_slice]
  apart _ i hi j hj := h i (by simpa using hi) j (by simpa using hj)

/-- What the variants have in common on a string: a hash, and the memory after copying all of it. -/
theorem exists_hash (ops : Ops) (bs : List UInt8) :
    ∃ hash, ∀ v : Variant bs, ((hashCore v.copy ops v.src v.dst bs.length).run v.memory).1 = hash ∧
      (v.copy = true → ((hashCore v.copy ops v.src v.dst bs.length).run v.memory).2 = v.memory.write v.dst bs) := by
  obtain ⟨hash, T, hT, hrun⟩ := @lockstep_hashCore bs ops
  refine ⟨hash, fun v => ?_⟩
  obtain ⟨hhash, hcopied⟩ := hrun v v.memory v.copied
  refine ⟨hhash, fun hcopy => eq_write_of_forall (fun i hi => ?_) fun x hx => ?_⟩
  · rw [hcopied.inside hcopy i (hT hi), ← List.getElem_of_eq v.source (by simpa using hi)]
    simp [Mem.slice]
  · exact hcopied.outside x fun _ i hi => hx i (hcopied.lt i hi)

/-- **The hash depends on the bytes of the string alone.** -/
theorem getHash64_eq (P : Platform) (m : Mem) (data size : ℕ) :
    getHash64 P m data size = hashOf P (m.slice data size) := by
  obtain ⟨hash, hrun⟩ := exists_hash P.ops (m.slice data size)
  have hthere := (hrun (plain m data size)).1
  let w : Variant (m.slice data size) :=
    ⟨false, Mem.write (fun _ => 0) 0 (m.slice data size), 0, 0, Mem.slice_write _ _ _, fun h => by cases h⟩
  have hhere := (hrun w).1
  rw [hashOf, getHash64, getHash64]
  rw [Mem.length_slice] at *
  exact hthere.trans hhere.symm

/-- **Copying stores the bytes of the string and returns their hash.** -/
theorem qlogMemcpyWithHash_eq (P : Platform) (m : Mem) {dst src len : ℕ}
    (h : ∀ i < len, ∀ j < len, src + i ≠ dst + j) :
    qlogMemcpyWithHash P m dst src len = (getHash64 P m src len, m.write dst (m.slice src len)) := by
  obtain ⟨hash, hrun⟩ := exists_hash P.ops (m.slice src len)
  have hplain := (hrun (plain m src len)).1
  obtain ⟨hcopy, hmem⟩ := hrun (copying m h)
  rw [Mem.length_slice] at *
  exact Prod.ext (hcopy.trans hplain.symm) (hmem rfl)

end QLog.Hash
