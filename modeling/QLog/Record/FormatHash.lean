import QLog.Record.Writer
import QLog.Appender.Compressed.LogImpl
import QLog.Utility.UtfMixed

/-!
# The hash of the format text

`log_write_begin` copies the format text into the record and stores the hash that the copy returns. The text and
the record are in one memory here (`logWriteBeginAt`); on the chunk of the record this is `logWriteBegin` with the
plain hash (`view_logWriteBeginAt`). The hash is that of the bytes in the record, and of the text in a template of a
compressed file (`format_hash_recomputed`).
-/

namespace QLog.Record

open Bytes Hash Utf
open Appender (templateText)

/-- The memory from an address on. -/
def view (m : Mem) (base : ℕ) : Mem := fun x => m (base + x)

/-- A chunk in its place. -/
def place (m : Mem) (base : ℕ) (chunk : Mem) : Mem := fun x => if base ≤ x then chunk (x - base) else m x

/-- `log_write_begin` for a chunk at `base`, with the format text at `formatStrData`. -/
def logWriteBeginAt (P : Platform) (thread : ThreadInfo) (epochMs : BitVec 64) (logLevel : UInt8)
    (categoryIndex : BitVec 32) (formatStringType : ArgumentTag) (formatStrBytesLen : ℕ) (formatStrData : Option ℕ)
    (argsDataBytesLen base : ℕ) (m : Mem) : Mem × ℕ :=
  -- the header, with no hash yet
  let (chunk, totalLength) := logWriteBegin (hashOf P) thread epochMs logLevel categoryIndex formatStringType
    formatStrBytesLen none argsDataBytesLen (view m base)
  let m := place m base chunk
  match formatStrData with
  | none => (m, totalLength)
  | some src =>
    let (hash, m) := qlogMemcpyWithHash P m (base + recordHeaderSize) src formatStrBytesLen
    (m.store (base + 24) 8 hash.toNat, totalLength)

/-- The hash that `parse_formate_template` recovers from the text of a template. -/
def recoverHash (P : Platform) (isUtf8 : Bool) (text buffer : List UInt8) : BitVec 64 :=
  if isUtf8 then hashOf P text else (hashUtfMixedAsUtf16 P text buffer).1

/-! ## The record -/

variable {m : Mem} {base src n : ℕ}

theorem place_apply_of_lt {x : ℕ} (m chunk : Mem) (h : x < base) : place m base chunk x = m x := if_neg (by omega)

theorem place_add (m chunk : Mem) (base x : ℕ) : place m base chunk (base + x) = chunk x := by
  rw [place, if_pos (Nat.le_add_right _ _), Nat.add_sub_cancel_left]

theorem view_place (m chunk : Mem) (base : ℕ) : view (place m base chunk) base = chunk :=
  funext fun x => place_add m chunk base x

theorem view_store (m : Mem) (base a k v : ℕ) : view (m.store (base + a) k v) base = (view m base).store a k v := by
  funext x
  have hiff : base + a ≤ base + x ∧ base + x < base + a + k ↔ a ≤ x ∧ x < a + k := by omega
  simp only [view, Mem.store, hiff, Nat.add_sub_add_left]

theorem view_write (m : Mem) (base a : ℕ) (bs : List UInt8) :
    view (m.write (base + a) bs) base = (view m base).write a bs := by
  funext x
  simp only [view, Mem.write, Nat.add_le_add_iff_left, Nat.add_sub_add_left]

theorem slice_write_slice (m : Mem) (a : ℕ) (m' : Mem) (b n : ℕ) :
    (m.write a (m'.slice b n)).slice a n = m'.slice b n := by
  have h := Mem.slice_write m a (m'.slice b n)
  rwa [Mem.length_slice] at h

/-- Writes side by side commute. -/
theorem store_write_comm (m : Mem) {a k b : ℕ} (v : ℕ) (bs : List UInt8) (h : a + k ≤ b ∨ b + bs.length ≤ a) :
    (m.write b bs).store a k v = (m.store a k v).write b bs := by
  funext x
  by_cases hx : a ≤ x ∧ x < a + k
  · rw [Mem.store_apply_of_mem _ _ hx.1 hx.2, Mem.write_apply_of_not_mem _ (by omega),
      Mem.store_apply_of_mem _ _ hx.1 hx.2]
  · rw [Mem.store_apply_of_not_mem _ _ (by omega), Mem.write, Mem.write, Mem.store_apply_of_not_mem _ _ (by omega)]

/-- The text is outside the header and its own copy. -/
def Apart (base src n : ℕ) : Prop := ∀ i < n, ∀ j < recordHeaderSize + n, src + i ≠ base + j

section

variable (P : Platform) (thread : ThreadInfo) (epochMs : BitVec 64) (level : UInt8) (categoryIndex : BitVec 32)
  (tag : ArgumentTag) (args : ℕ)

/-- The header is written into the first 40 bytes. -/
theorem logWriteBegin_frame {x : ℕ} (h : recordHeaderSize ≤ x) :
    (logWriteBegin (hashOf P) thread epochMs level categoryIndex tag n none args m).1 x = m x := by
  have h40 : recordHeaderSize = 40 := rfl
  unfold logWriteBegin
  simp only
  rw [Mem.store_apply_of_le _ _ (by omega), Mem.store_apply_of_le _ _ (by omega),
    Mem.store_apply_of_le _ _ (by omega), Mem.poke_apply_of_ne _ _ (by omega), Mem.store_apply_of_le _ _ (by omega),
    Mem.poke_apply_of_ne _ _ (by omega), Mem.store_apply_of_le _ _ (by omega), Mem.store_apply_of_le _ _ (by omega)]

/-- The record, once the copy is known. -/
theorem logWriteBeginAt_eq (h : Apart base src n) :
    (logWriteBeginAt P thread epochMs level categoryIndex tag n (some src) args base m).1 =
      ((place m base (logWriteBegin (hashOf P) thread epochMs level categoryIndex tag n none args
        (view m base)).1).write (base + recordHeaderSize) (m.slice src n)).store (base + 24) 8
          (hashOf P (m.slice src n)).toNat := by
  obtain ⟨r, hr⟩ : ∃ r, logWriteBegin (hashOf P) thread epochMs level categoryIndex tag n none args (view m base) = r :=
    ⟨_, rfl⟩
  have hframe : ∀ x, recordHeaderSize ≤ x → r.1 x = m (base + x) := fun x hx => hr ▸ logWriteBegin_frame P _ _ _ _ _ _ hx
  have hsource : (place m base r.1).slice src n = m.slice src n := by
    refine Mem.slice_congr fun x hx hx' => ?_
    obtain ⟨i, rfl⟩ := Nat.exists_eq_add_of_le hx
    rcases Nat.lt_or_ge (src + i) base with hlt | hle
    · exact place_apply_of_lt m r.1 hlt
    · obtain ⟨j, hj⟩ := Nat.exists_eq_add_of_le hle
      have hout : recordHeaderSize ≤ j := by
        by_contra hin
        exact h i (by omega) j (by omega) hj
      rw [hj, place_add, hframe j hout]
  have hcopy := @qlogMemcpyWithHash_eq P (place m base r.1) (base + recordHeaderSize) src n
    fun i hi j hj => by
      rw [Nat.add_assoc]
      exact h i hi _ (by omega)
  unfold logWriteBeginAt
  simp only [hr, hcopy, getHash64_eq, hsource]

/-- **On the chunk of the record this is the writer with the plain hash.** -/
theorem view_logWriteBeginAt (h : Apart base src n) :
    view (logWriteBeginAt P thread epochMs level categoryIndex tag n (some src) args base m).1 base =
      (logWriteBegin (hashOf P) thread epochMs level categoryIndex tag n (some (m.slice src n)) args
        (view m base)).1 := by
  have hlen : (m.slice src n).take n = m.slice src n := List.take_of_length_le (Mem.length_slice m src n).le
  rw [logWriteBeginAt_eq P thread epochMs level categoryIndex tag args h, view_store, view_write, view_place]
  unfold logWriteBegin
  simp only [hlen]
  refine store_write_comm _ _ _ (.inl ?_)
  decide

end

/-! ## The hash -/

/-- **Copying a text with its hash stores its bytes and returns the hash without copying; so the hash in a record is
that of the text in the record, and of the text in a template of the file.** -/
theorem format_hash_recomputed (P : Platform) :
    (∀ (m : Mem) (dst src len : ℕ), (∀ i < len, ∀ j < len, src + i ≠ dst + j) →
      qlogMemcpyWithHash P m dst src len = (getHash64 P m src len, m.write dst (m.slice src len))) ∧
    ∀ (thread : ThreadInfo) (epochMs : BitVec 64) (level : UInt8) (categoryIndex : BitVec 32) (tag : ArgumentTag)
      (n args base src : ℕ) (m m' : Mem) (total : ℕ), Apart base src n →
      logWriteBeginAt P thread epochMs level categoryIndex tag n (some src) args base m = (m', total) →
      m'.slice (base + recordHeaderSize) n = m.slice src n ∧
      m'.load (base + 24) 8 = (getHash64 P m' (base + recordHeaderSize) n).toNat ∧
      ∀ (isUtf8 : Bool) (buffer : List UInt8), (isUtf8 = false → n % 2 = 0) →
        m'.load (base + 24) 8 =
          (recoverHash P isUtf8 (templateText isUtf8 (m'.slice (base + recordHeaderSize) n)) buffer).toNat := by
  refine ⟨fun m dst src len h => qlogMemcpyWithHash_eq P m h, ?_⟩
  intro thread epochMs level categoryIndex tag n args base src m m' total h hm'
  have heq := logWriteBeginAt_eq P thread epochMs level categoryIndex tag args h (m := m)
  rw [hm'] at heq
  simp only at heq
  have hlen := Mem.length_slice m src n
  have h40 : recordHeaderSize = 40 := rfl
  have htext : m'.slice (base + recordHeaderSize) n = m.slice src n := by
    rw [heq]
    refine (Mem.slice_congr fun x hx _ => Mem.store_apply_of_le _ _ (by omega)).trans ?_
    exact slice_write_slice _ _ m src n
  have hhash : m'.load (base + 24) 8 = (hashOf P (m.slice src n)).toNat := by
    rw [heq]
    exact Mem.load_store _ _ (hashOf P (m.slice src n)).isLt
  refine ⟨htext, by rw [hhash, getHash64_eq, htext], fun isUtf8 buffer heven => ?_⟩
  rw [hhash, htext]
  cases isUtf8 with
  | true => rfl
  | false =>
    obtain ⟨us, hus⟩ := exists_bytesOf (show (m.slice src n).length % 2 = 0 by rw [hlen]; exact heven rfl)
    have htake : (bytesOf us).take (2 * ((bytesOf us).length / 2)) = bytesOf us :=
      List.take_of_length_le (by rw [length_bytesOf]; omega)
    rw [← hus]
    simp only [recoverHash, templateText, Bool.false_eq_true, if_false, htake, utf16ToUtfMixed_bytesOf,
      hashUtfMixedAsUtf16_mixed]

/-- A text of three bytes lies behind its record. -/
theorem format_hash_recomputed_behind : Apart 0 1000 3 ∧ ∀ (P : Platform) (m : Mem),
    ∃ m' total, logWriteBeginAt P (.current 1 []) 5 0 0 .stringUtf8Type 3 (some 1000) 0 0 m = (m', total) ∧
      m'.load 24 8 = (recoverHash P true (templateText true (m'.slice 40 3)) []).toNat := by
  have hapart : Apart 0 1000 3 := by
    intro i hi j hj
    have h40 : recordHeaderSize = 40 := rfl
    omega
  refine ⟨hapart, fun P m => ⟨_, _, rfl, ?_⟩⟩
  have h := (format_hash_recomputed P).2 (.current 1 []) 5 0 0 .stringUtf8Type 3 0 0 1000 m _ _ hapart rfl
  exact h.2.2 true [] Bool.noConfusion

end QLog.Record
