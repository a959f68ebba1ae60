import QLog.Foundations.ByteMemory
import QLog.Foundations.Bytes
import QLog.Foundations.Utf16

/-!
# Arguments of a record

The values that can be logged, and how `argument_serialization.hpp` lays them out: `makeSizeSeq`
measures every argument, and `fillArguments` writes each into a slot of its measured size, rounded up
to a multiple of four. A slot starts with the tag of the argument; the value is at offset 2 or 4, and
a string has its length at offset 4 and its bytes at offset 8. UTF-32 strings become UTF-16.

Sizes are natural numbers here: the checked additions on `size_t` never overflow for a record whose
length has 32 bits.
-/

namespace QLog.Record

open Bytes

/-- `ArgumentTag`. -/
inductive ArgumentTag
  | unsupportedType
  | nullType
  | pointerType
  | boolType
  | charType
  | char16Type
  | char32Type
  | int8Type
  | uint8Type
  | int16Type
  | uint16Type
  | int32Type
  | uint32Type
  | int64Type
  | uint64Type
  | floatType
  | doubleType
  | stringUtf8Type
  | stringUtf16Type
  | stringUtf32Type
  | stringUtfMixedType
  deriving DecidableEq, Repr

namespace ArgumentTag

/-- The value of the enumerator. -/
def toByte (t : ArgumentTag) : UInt8 := UInt8.ofNat t.ctorIdx

/-- `static_cast<ArgumentTag>`, for a byte that is an enumerator. -/
def ofByte? (b : UInt8) : Option ArgumentTag :=
  [unsupportedType, nullType, pointerType, boolType, charType, char16Type, char32Type, int8Type,
    uint8Type, int16Type, uint16Type, int32Type, uint32Type, int64Type, uint64Type, floatType,
    doubleType, stringUtf8Type, stringUtf16Type, stringUtf32Type, stringUtfMixedType][b.toNat]?

@[simp] theorem ofByte?_toByte (t : ArgumentTag) : ofByte? t.toByte = some t := by
  cases t <;> rfl

end ArgumentTag

/-- `align4`. -/
def align4 (n : ℕ) : ℕ := (n + 3) / 4 * 4

theorem le_align4 (n : ℕ) : n ≤ align4 n := by unfold align4; omega

theorem align4_lt (n : ℕ) : align4 n < n + 4 := by unfold align4; omega

theorem align4_add (n : ℕ) {k : ℕ} (h : k % 4 = 0) : align4 (k + n) = k + align4 n := by
  unfold align4
  omega

/-! ## Values -/

/-- The types that are copied bit by bit. A trivial type of another name has the tag of the integers of
its size. -/
inductive Pod
  | bool
  | char
  | char16
  | char32
  | int8
  | uint8
  | int16
  | uint16
  | int32
  | uint32
  | int64
  | uint64
  | float
  | double
  deriving DecidableEq, Repr

/-- `sizeof`. -/
def Pod.size : Pod → ℕ
  | .bool | .char | .int8 | .uint8 => 1
  | .char16 | .int16 | .uint16 => 2
  | .char32 | .int32 | .uint32 | .float => 4
  | .int64 | .uint64 | .double => 8

/-- `get_log_param_type_enum`. -/
def Pod.tag : Pod → ArgumentTag
  | .bool => .boolType
  | .char => .charType
  | .char16 => .char16Type
  | .char32 => .char32Type
  | .int8 => .int8Type
  | .uint8 => .uint8Type
  | .int16 => .int16Type
  | .uint16 => .uint16Type
  | .int32 => .int32Type
  | .uint32 => .uint32Type
  | .int64 => .int64Type
  | .uint64 => .uint64Type
  | .float => .floatType
  | .double => .doubleType

/-- The size of a character. -/
inductive Width
  | one
  | two
  | four
  deriving DecidableEq, Repr

/-- `sizeof` of the character type. -/
def Width.bytes : Width → ℕ
  | .one => 1
  | .two => 2
  | .four => 4

/-- A character of a string. -/
abbrev Code (w : Width) := BitVec (8 * w.bytes)

/-- The strings that can be logged. A character pointer is null or points to characters with a
terminator behind them; an array has at least one element. -/
inductive Text (w : Width)
  | array (init : List (Code w)) (last : Code w)
  | pointer (chars : Option {cs : List (Code w) // 0#(8 * w.bytes) ∉ cs})
  | object (chars : List (Code w))

/-- A string, or an object with the custom format protocol and the characters it writes. -/
inductive StringArg
  | text (w : Width) (t : Text w)
  | custom (w : Width) (narrow : w ≠ .four) (chars : List (Code w))

/-- An argument. -/
inductive Arg
  | null
  | pointer (address : BitVec 64)
  | pod (t : Pod) (bits : BitVec (8 * t.size))
  | string (s : StringArg)

/-- `get_log_param_type_enum` of a string. -/
def StringArg.tag : StringArg → ArgumentTag
  | .text .one _ | .custom .one _ _ => .stringUtf8Type
  | .text _ _ | .custom _ _ _ => .stringUtf16Type

/-- `get_log_param_type_enum`. -/
def Arg.tag : Arg → ArgumentTag
  | .null => .nullType
  | .pointer _ => .pointerType
  | .pod t _ => t.tag
  | .string s => s.tag

/-! ## Strings -/

/-- `StringSource`: the characters that can be read from `data` on, and the limit, which is missing for
`unbounded_string`. -/
structure StringSource (w : Width) where
  data : List (Code w)
  limit : Option ℕ

/-- The characters of `null`. -/
def nullText (w : Width) : List (Code w) := [0x6E, 0x75, 0x6C, 0x6C].map (BitVec.ofNat (8 * w.bytes))

/-- `get_string_source`. -/
def getStringSource {w : Width} : Text w → StringSource w
  | .array init last =>
    ⟨init ++ [last], some (if w ≠ .four ∧ last = 0#_ then init.length else init.length + 1)⟩
  | .pointer (some cs) => ⟨cs.val ++ [0#_], none⟩
  | .pointer none => ⟨nullText w ++ [0#_], some 4⟩
  | .object cs => ⟨cs, some cs.length⟩

/-- The loop over characters of four bytes, from the bytes counted so far. -/
def measureUtf32 (bytes : ℕ) : List (Code .four) → Option ℕ → Option ℕ
  | _, some 0 => some bytes
  | [], _ => none
  | c :: cs, limit =>
    if c = 0#_ then some bytes
    else measureUtf32 (bytes + if c.toNat ≤ 0xFFFF then 2 else 4) cs (limit.map (· - 1))

/-- The loop up to the terminator. -/
def countChars {w : Width} : List (Code w) → Option ℕ
  | [] => none
  | c :: cs => if c = 0#_ then some 0 else (countChars cs).map (· + 1)

/-- `measure_string_content`. A read behind the readable characters has no result. -/
def measureStringContent : {w : Width} → StringSource w → Option ℕ
  | .four, s => measureUtf32 0 s.data s.limit
  | w, s =>
    (match s.limit with
      | some n => some n
      | none => countChars s.data).map (· * w.bytes)

/-- The bytes of characters. -/
def codeBytes {w : Width} (cs : List (Code w)) : List UInt8 := cs.flatMap fun c => toLe w.bytes c.toNat

/-- The loop over characters of four bytes; `out` bytes are written. A failed assertion has no
result. -/
def copyUtf32 (dst bytes out : ℕ) (m : Mem) : List (Code .four) → Option ℕ → Option Mem
  | cs, limit =>
    if out < bytes then
      if limit = some 0 then none
      else
        match cs with
        | [] => none
        | c :: cs =>
          if c = 0#_ then none
          else if c.toNat ≤ 0xFFFF then
            if 2 ≤ bytes - out then
              copyUtf32 dst bytes (out + 2) (m.write (dst + out) (toLe 2 c.toNat)) cs
                (limit.map (· - 1))
            else none
          else if 4 ≤ bytes - out then
            copyUtf32 dst bytes (out + 4)
              (m.write (dst + out)
                (toLe 2 ((c.toNat - 0x10000) / 0x400 + 0xD800) ++
                  toLe 2 ((c.toNat - 0x10000) % 0x400 + 0xDC00)))
              cs (limit.map (· - 1))
          else none
    else if out = bytes then some m
    else none

/-- `copy_string_content`. -/
def copyStringContent : {w : Width} → StringSource w → Mem → ℕ → ℕ → Option Mem
  | .four, s, m, dst, bytes => if bytes = 0 then some m else copyUtf32 dst bytes 0 m s.data s.limit
  | w, s, m, dst, bytes =>
    if bytes = 0 then some m
    else if s.limit.all (· * w.bytes = bytes) ∧ bytes ≤ s.data.length * w.bytes then
      some (m.write dst ((codeBytes s.data).take bytes))
    else none

/-- `StringStorage::get_storage_data_size`. -/
def StringArg.storageDataSize : StringArg → Option ℕ
  | .text _ t => measureStringContent (getStringSource t)
  | .custom w _ cs => some (cs.length * w.bytes)

/-- `StringStorage::type_copy`. -/
def StringArg.typeCopy (s : StringArg) (m : Mem) (dst raw : ℕ) : Option Mem :=
  if raw < 4 ∨ 2 ^ 32 ≤ raw - 4 then none
  else
    match s with
    | .text _ t => copyStringContent (getStringSource t) (m.store dst 4 (raw - 4)) (dst + 4) (raw - 4)
    | .custom _ _ cs => some ((m.store dst 4 (raw - 4)).write (dst + 4) ((codeBytes cs).take (raw - 4)))

/-! ## Slots -/

/-- `get_storage_data_size`, with the tag or without. -/
def storageDataSize (withTag : Bool) : Arg → Option ℕ
  | .null => some (if withTag then 4 else 0)
  | .pointer _ => some (8 + if withTag then 4 else 0)
  | .pod t _ => some (t.size + if withTag then (if t.size ≤ 2 then 2 else 4) else 0)
  | .string s =>
    s.storageDataSize.bind fun content =>
      if content < 2 ^ 32 then some (content + if withTag then 8 else 4) else none

/-- `type_copy`: the argument is written into a slot of `raw` bytes. -/
def typeCopy (withTag : Bool) (v : Arg) (m : Mem) (dst raw : ℕ) : Option Mem :=
  let m := if withTag then m.poke dst v.tag.toByte else m
  match v with
  | .null => some m
  | .pointer address => some (m.write (dst + if withTag then 4 else 0) (toLe 8 address.toNat))
  | .pod t bits =>
    some (m.write (dst + if withTag then (if t.size ≤ 2 then 2 else 4) else 0) (toLe t.size bits.toNat))
  | .string s =>
    let pre := if withTag then 4 else 0
    if raw < pre + 4 then none else s.typeCopy m (dst + pre) (raw - pre)

/-- `make_size_seq`: the measured sizes. -/
def makeSizeSeq (args : List Arg) : Option (List ℕ) := args.mapM (storageDataSize true)

/-- `get_total`: the sum of the sizes, each rounded up. -/
def getTotal : List ℕ → ℕ
  | [] => 0
  | n :: ns => align4 n + getTotal ns

/-- `fill_arguments`. -/
def fillArguments (m : Mem) (dst : ℕ) : List ℕ → List Arg → Option Mem
  | n :: ns, v :: vs => (typeCopy true v m dst n).bind fun m => fillArguments m (dst + align4 n) ns vs
  | _, _ => some m

/-! ## What the strings are -/

/-- The characters of a string; an array of narrow characters loses one terminator. -/
def Text.elems {w : Width} : Text w → List (Code w)
  | .array init last => if w ≠ .four ∧ last = 0#_ then init else init ++ [last]
  | .pointer (some cs) => cs.val
  | .pointer none => nullText w
  | .object cs => cs

/-- The code points of a UTF-32 string, up to the first terminator. -/
def Text.codePoints (t : Text .four) : List ℕ := (t.elems.takeWhile (· ≠ 0#_)).map BitVec.toNat

/-- The bytes that stand for a string. -/
def StringArg.value : StringArg → List UInt8
  | .text .four t => (Utf16.encode t.codePoints).flatMap (toLe 2)
  | .text _ t => codeBytes t.elems
  | .custom _ _ cs => codeBytes cs

/-- The bytes that stand for an argument. -/
def Arg.value : Arg → List UInt8
  | .null => []
  | .pointer address => toLe 8 address.toNat
  | .pod t bits => toLe t.size bits.toNat
  | .string s => s.value

/-- Where the value stands in the slot. -/
def ArgumentTag.offset : ArgumentTag → ℕ
  | .boolType | .charType | .char16Type | .int8Type | .uint8Type | .int16Type | .uint16Type => 2
  | .stringUtf8Type | .stringUtf16Type => 8
  | _ => 4

/-- The measured size. -/
def Arg.size (v : Arg) : ℕ := v.tag.offset + v.value.length

/-- The slot at `p` holds the argument. -/
structure Slot (m : Mem) (p : ℕ) (v : Arg) : Prop where
  tag : m p = v.tag.toByte
  value : m.slice (p + v.tag.offset) v.value.length = v.value
  length : v.tag.offset = 8 → m.load (p + 4) 4 = v.value.length

/-- The slots from `p` on hold the arguments. -/
def Slots (m : Mem) (p : ℕ) : List Arg → Prop
  | [] => True
  | v :: vs => Slot m p v ∧ Slots m (p + align4 v.size) vs

/-! ## Measuring -/

section Measure

variable {w : Width}

@[simp] theorem length_codeBytes (cs : List (Code w)) : (codeBytes cs).length = cs.length * w.bytes := by
  induction cs with
  | nil => simp [codeBytes]
  | cons c cs ih =>
    rw [codeBytes, List.flatMap_cons, ← codeBytes, List.length_append, ih, length_toLe,
      List.length_cons, Nat.succ_mul, Nat.add_comm]

theorem length_flatMap_toLe (us : List ℕ) : (us.flatMap (toLe 2)).length = 2 * us.length := by
  induction us with
  | nil => rfl
  | cons u us ih =>
    rw [List.flatMap_cons, List.length_append, ih, length_toLe, List.length_cons]
    omega

/-- The characters are followed by the end of the string: the limit, or a terminator. -/
def Ends (cs rest : List (Code w)) (limit : Option ℕ) : Prop :=
  limit = some cs.length ∨ (limit = none ∧ ∃ more, rest = 0#_ :: more)

theorem Ends.tail {c : Code w} {cs rest : List (Code w)} {limit : Option ℕ}
    (h : Ends (c :: cs) rest limit) : Ends cs rest (limit.map (· - 1)) := by
  rcases h with rfl | ⟨rfl, hrest⟩
  · exact .inl rfl
  · exact .inr ⟨rfl, hrest⟩

/-- The source of a string. -/
theorem getStringSource_eq (t : Text w) :
    ∃ rest limit, getStringSource t = ⟨t.elems ++ rest, limit⟩ ∧ Ends t.elems rest limit := by
  rcases t with ⟨init, last⟩ | ⟨_ | cs⟩ | cs
  · unfold getStringSource Text.elems
    by_cases h : w ≠ .four ∧ last = 0#_
    · simp only [if_pos h]
      exact ⟨[last], _, rfl, .inl rfl⟩
    · simp only [if_neg h]
      exact ⟨[], _, by rw [List.append_nil], .inl (by simp)⟩
  · exact ⟨[0#_], _, rfl, .inl rfl⟩
  · exact ⟨[0#_], _, rfl, .inr ⟨rfl, [], rfl⟩⟩
  · exact ⟨[], _, by rw [List.append_nil]; rfl, .inl rfl⟩

theorem measureUtf32_eq (bytes : ℕ) {cs rest : List (Code .four)} {limit : Option ℕ}
    (h : Ends cs rest limit) : measureUtf32 bytes (cs ++ rest) limit =
      some (bytes + 2 * (Utf16.encode ((cs.takeWhile (· ≠ 0#_)).map BitVec.toNat)).length) := by
  induction cs generalizing bytes limit with
  | nil =>
    rcases h with rfl | ⟨rfl, more, rfl⟩
    · simp [measureUtf32, Utf16.encode]
    · simp [measureUtf32, Utf16.encode]
  | cons c cs ih =>
    have hne : limit ≠ some 0 := by
      rcases h with rfl | ⟨rfl, -⟩ <;> simp
    rw [List.cons_append, measureUtf32.eq_3 _ _ _ _ hne]
    by_cases hc : c = 0#_
    · rw [if_pos hc, List.takeWhile_cons_of_neg (by simp [hc])]
      rfl
    · rw [if_neg hc, ih _ h.tail, List.takeWhile_cons_of_pos (by simp [hc]), List.map_cons,
        Utf16.encode_cons, List.length_append, Utf16.length_encodeChar]
      split <;> congr 1 <;> omega

theorem countChars_eq {cs : List (Code w)} (h : 0#(8 * w.bytes) ∉ cs) (more : List (Code w)) :
    countChars (cs ++ 0#_ :: more) = some cs.length := by
  induction cs with
  | nil => rfl
  | cons c cs ih =>
    rw [List.mem_cons, not_or] at h
    rw [List.cons_append, countChars, if_neg (Ne.symm h.1), ih h.2]
    rfl

/-- **Measured content**: the length of what stands for the string. -/
theorem measureStringContent_eq (t : Text w) :
    measureStringContent (getStringSource t) = some (StringArg.text w t).value.length := by
  cases w with
  | four =>
    obtain ⟨rest, limit, heq, hends⟩ := getStringSource_eq t
    rw [heq, measureStringContent, measureUtf32_eq 0 hends, StringArg.value, length_flatMap_toLe,
      Nat.zero_add]
    rfl
  | one | two =>
    rw [StringArg.value, length_codeBytes]
    · rcases t with ⟨init, last⟩ | ⟨_ | cs⟩ | cs
      · rw [getStringSource, measureStringContent, Text.elems]
        · by_cases hlast : last = 0#_ <;> simp [hlast]
        · simp
      · rfl
      · rw [getStringSource, measureStringContent]
        · simp only [countChars_eq cs.property []]
          rfl
        · simp
      · rw [getStringSource, measureStringContent]
        · rfl
        · simp
    · simp

theorem storageDataSize_eq (s : StringArg) : s.storageDataSize = some s.value.length := by
  rcases s with ⟨w, t⟩ | ⟨w, hw, cs⟩
  · exact measureStringContent_eq t
  · rw [StringArg.storageDataSize, StringArg.value, length_codeBytes]

end Measure

/-! ## Copying -/

section Copy

variable {w : Width}

theorem copyUtf32_done (dst bytes : ℕ) (m : Mem) (cs : List (Code .four)) (limit : Option ℕ) :
    copyUtf32 dst bytes bytes m cs limit = some m := by
  rw [copyUtf32.eq_def]
  simp only
  rw [if_neg (Nat.lt_irrefl _), if_pos trivial]

/-- A turn of the loop: a character is written as its units. -/
theorem copyUtf32_cons {dst bytes out : ℕ} {c : Code .four} {limit : Option ℕ} (hc : c ≠ 0#_)
    (hlimit : limit ≠ some 0) (hroom : out + 2 * (Utf16.encodeChar c.toNat).length ≤ bytes) (m : Mem)
    (cs : List (Code .four)) :
    copyUtf32 dst bytes out m (c :: cs) limit =
      copyUtf32 dst bytes (out + 2 * (Utf16.encodeChar c.toNat).length)
        (m.write (dst + out) ((Utf16.encodeChar c.toNat).flatMap (toLe 2))) cs (limit.map (· - 1)) := by
  rw [Utf16.length_encodeChar] at hroom ⊢
  rw [copyUtf32.eq_def]
  simp only
  rw [if_pos (by split at hroom <;> omega), if_neg hlimit, if_neg hc, Utf16.encodeChar]
  by_cases hbmp : c.toNat ≤ 0xFFFF
  · simp only [if_pos hbmp] at hroom ⊢
    rw [if_pos (by omega), List.flatMap_singleton]
  · simp only [if_neg hbmp] at hroom ⊢
    rw [if_pos (by omega), List.flatMap_cons, List.flatMap_singleton]

theorem copyUtf32_eq (dst out : ℕ) (m : Mem) {cs rest : List (Code .four)} {limit : Option ℕ}
    (h : Ends cs rest limit) {us : List ℕ}
    (hus : us = Utf16.encode ((cs.takeWhile (· ≠ 0#_)).map BitVec.toNat)) :
    copyUtf32 dst (out + 2 * us.length) out m (cs ++ rest) limit =
      some (m.write (dst + out) (us.flatMap (toLe 2))) := by
  induction cs generalizing out m limit us with
  | nil =>
    obtain rfl : us = [] := hus
    rw [List.flatMap_nil, Mem.write_nil]
    exact copyUtf32_done dst out m _ _
  | cons c cs ih =>
    by_cases hc : c = 0#_
    · obtain rfl : us = [] := by
        rw [hus, List.takeWhile_cons_of_neg (by simp [hc])]
        rfl
      rw [List.flatMap_nil, Mem.write_nil]
      exact copyUtf32_done dst out m _ _
    · have hne : limit ≠ some 0 := by
        rcases h with rfl | ⟨rfl, -⟩ <;> simp
      rw [List.takeWhile_cons_of_pos (by simpa using hc), List.map_cons, Utf16.encode_cons] at hus
      have hrec := ih (out + 2 * (Utf16.encodeChar c.toNat).length)
        (m.write (dst + out) ((Utf16.encodeChar c.toNat).flatMap (toLe 2))) h.tail rfl
      subst hus
      rw [List.length_append, Nat.mul_add, ← Nat.add_assoc, List.cons_append,
        copyUtf32_cons hc hne (Nat.le_add_right _ _), hrec, List.flatMap_append, ← Mem.write_append,
        length_flatMap_toLe, Nat.add_assoc]

theorem StringArg.value_of_ne (hw : w ≠ .four) (t : Text w) :
    (StringArg.text w t).value = codeBytes t.elems := by
  cases w with
  | four => exact absurd rfl hw
  | one | two => rfl

theorem copyStringContent_of_ne (hw : w ≠ .four) (s : StringSource w) (m : Mem) (dst bytes : ℕ) :
    copyStringContent s m dst bytes =
      if bytes = 0 then some m
      else if s.limit.all (· * w.bytes = bytes) ∧ bytes ≤ s.data.length * w.bytes then
        some (m.write dst ((codeBytes s.data).take bytes))
      else none := by
  cases w with
  | four => exact absurd rfl hw
  | one | two => rfl

theorem codeBytes_append (cs ds : List (Code w)) :
    codeBytes (cs ++ ds) = codeBytes cs ++ codeBytes ds :=
  List.flatMap_append

/-- **Copied content**: what stands for the string. -/
theorem copyStringContent_eq (t : Text w) (m : Mem) (dst : ℕ) :
    copyStringContent (getStringSource t) m dst (StringArg.text w t).value.length =
      some (m.write dst (StringArg.text w t).value) := by
  obtain ⟨rest, limit, heq, hends⟩ := getStringSource_eq t
  rw [heq]
  by_cases hw : w = .four
  · subst hw
    have hcopy := copyUtf32_eq dst 0 m hends rfl
    rw [Nat.zero_add, ← length_flatMap_toLe, Nat.add_zero] at hcopy
    rw [StringArg.value, copyStringContent]
    split
    · rename_i hzero
      rw [List.length_eq_zero_iff.1 hzero, Mem.write_nil]
    · exact hcopy
  · rw [StringArg.value_of_ne hw, length_codeBytes, copyStringContent_of_ne hw]
    split
    · rename_i hzero
      rw [← length_codeBytes] at hzero
      rw [List.length_eq_zero_iff.1 hzero, Mem.write_nil]
    · rw [if_pos, codeBytes_append, List.take_left' (length_codeBytes _)]
      refine ⟨?_, ?_⟩
      · rcases hends with rfl | ⟨rfl, -⟩ <;> simp
      · rw [List.length_append]
        exact Nat.mul_le_mul_right _ (Nat.le_add_right _ _)

/-- A string in a slot: its length and its bytes. -/
theorem StringArg.typeCopy_eq (s : StringArg) (hs : s.value.length < 2 ^ 32) (m : Mem) (dst : ℕ) :
    s.typeCopy m dst (4 + s.value.length) =
      some ((m.store dst 4 s.value.length).write (dst + 4) s.value) := by
  unfold StringArg.typeCopy
  rw [if_neg (by omega), Nat.add_sub_cancel_left]
  rcases s with ⟨w, t⟩ | ⟨w, hw, cs⟩
  · exact copyStringContent_eq t _ _
  · simp only [StringArg.value, List.take_length]

end Copy

/-! ## Slots -/

section Slots

variable {v : Arg} {m m' : Mem} {p : ℕ}

theorem StringArg.offset_tag (s : StringArg) : s.tag.offset = 8 := by
  rcases s with ⟨_ | _ | _, t⟩ | ⟨_ | _ | _, hw, cs⟩ <;> rfl

theorem Pod.offset_tag (t : Pod) : t.tag.offset = if t.size ≤ 2 then 2 else 4 := by
  cases t <;> rfl

theorem Arg.two_le_offset (v : Arg) : 2 ≤ v.tag.offset := by
  rcases v with _ | address | ⟨t, bits⟩ | s
  · exact Nat.le_add_left 2 2
  · exact Nat.le_add_left 2 2
  · rw [Arg.tag, Pod.offset_tag]
    split <;> omega
  · rw [Arg.tag, StringArg.offset_tag]
    omega

/-- **The measured size** is the place of the value and its length. -/
theorem storageDataSize_true (hv : v.value.length < 2 ^ 32) : storageDataSize true v = some v.size := by
  rcases v with _ | address | ⟨t, bits⟩ | s
  · rfl
  · rfl
  · rw [storageDataSize, Arg.size, Arg.tag, Pod.offset_tag, Arg.value, length_toLe, if_pos rfl,
      Nat.add_comm]
  · rw [Arg.value] at hv
    rw [storageDataSize, storageDataSize_eq, Option.bind_some, if_pos hv, if_pos rfl, Arg.size,
      Arg.tag, StringArg.offset_tag, Arg.value, Nat.add_comm]

/-- A slot is what its bytes are. -/
theorem Slot.congr (h : Slot m p v) (heq : ∀ x, p ≤ x → x < p + v.size → m' x = m x) :
    Slot m' p v := by
  have hoff := v.two_le_offset
  have hsize : v.size = v.tag.offset + v.value.length := rfl
  refine ⟨?_, ?_, fun h8 => ?_⟩
  · rw [heq p le_rfl (by omega), h.tag]
  · have hvalue : m'.slice (p + v.tag.offset) v.value.length =
        m.slice (p + v.tag.offset) v.value.length :=
      Mem.slice_congr fun x hx hx' => heq x (by omega) (by omega)
    rw [hvalue, h.value]
  · rw [← h.length h8]
    exact Mem.load_congr fun x hx hx' => heq x (by omega) (by omega)

/-- **One argument**: its slot is filled, and nothing else is written. -/
theorem typeCopy_spec (hv : v.value.length < 2 ^ 32) (m : Mem) (p : ℕ) :
    ∃ m', typeCopy true v m p v.size = some m' ∧ Slot m' p v ∧
      ∀ x, x < p ∨ p + v.size ≤ x → m' x = m x := by
  have hsize : v.size = v.tag.offset + v.value.length := rfl
  have hoff := v.two_le_offset
  rcases v with _ | address | ⟨t, bits⟩ | s
  · refine ⟨_, rfl, ⟨Mem.poke_self _ _ _, rfl, fun h => (by cases h)⟩, fun x hx => ?_⟩
    exact Mem.poke_apply_of_ne _ _ (by omega)
  · refine ⟨_, rfl, ⟨?_, ?_, fun h => (by cases h)⟩, fun x hx => ?_⟩
    · change (Mem.write _ (p + 4) _) p = _
      rw [Mem.write_apply_of_lt _ _ (by omega)]
      exact Mem.poke_self _ _ _
    · exact Mem.slice_write _ _ _
    · change (Mem.write (m.poke p _) (p + 4) (toLe 8 _)) x = _
      have hx' : x < p + 4 ∨ p + 4 + (toLe 8 address.toNat).length ≤ x := by
        rw [length_toLe]
        change x < p ∨ p + 12 ≤ x at hx
        omega
      rw [Mem.write_apply_of_not_mem _ hx']
      exact Mem.poke_apply_of_ne _ _ (by omega)
  · have htag : (Arg.pod t bits).tag.offset = if t.size ≤ 2 then 2 else 4 := Pod.offset_tag t
    rw [typeCopy]
    simp only [if_true]
    rw [← htag]
    refine ⟨_, rfl, ⟨?_, Mem.slice_write _ _ _, fun h => ?_⟩, fun x hx => ?_⟩
    · rw [Mem.write_apply_of_lt _ _ (by omega)]
      exact Mem.poke_self _ _ _
    · rw [htag] at h
      split at h <;> omega
    · have hlen : (Arg.pod t bits).value.length = (toLe t.size bits.toNat).length := rfl
      rw [Mem.write_apply_of_not_mem _ (by omega), Mem.poke_apply_of_ne _ _ (by omega)]
  · have htag : (Arg.string s).tag.offset = 8 := s.offset_tag
    have hval : (Arg.string s).value = s.value := rfl
    rw [hval] at hv hsize
    rw [typeCopy]
    simp only [if_true]
    rw [if_neg (by omega), show (Arg.string s).size - 4 = 4 + s.value.length by omega,
      s.typeCopy_eq hv]
    refine ⟨_, rfl, ⟨?_, ?_, fun _ => ?_⟩, fun x hx => ?_⟩
    · rw [Mem.write_apply_of_lt _ _ (by omega), Mem.store_apply_of_lt _ _ (by omega), Mem.poke_self]
    · rw [htag, Nat.add_assoc p 4 4]
      exact Mem.slice_write _ _ _
    · rw [hval, Mem.load_congr fun x _ hx => Mem.write_apply_of_lt _ s.value (by omega),
        Mem.load_store _ _ hv]
    · rw [Mem.write_apply_of_not_mem _ (by omega), Mem.store_apply_of_not_mem _ _ (by omega),
        Mem.poke_apply_of_ne _ _ (by omega)]

/-- The slots are what their bytes are. -/
theorem Slots.congr {vs : List Arg} (h : Slots m p vs)
    (heq : ∀ x, p ≤ x → x < p + getTotal (vs.map Arg.size) → m' x = m x) : Slots m' p vs := by
  induction vs generalizing p with
  | nil => trivial
  | cons v vs ih =>
    rw [List.map_cons, getTotal] at heq
    have hle := le_align4 v.size
    exact ⟨h.1.congr fun x hx hx' => heq x hx (by omega),
      ih h.2 fun x hx hx' => heq x (by omega) (by omega)⟩

theorem getTotal_ge {vs : List Arg} (hv : v ∈ vs) : v.size ≤ getTotal (vs.map Arg.size) := by
  induction vs with
  | nil => cases hv
  | cons w vs ih =>
    rw [List.map_cons, getTotal]
    rcases List.mem_cons.1 hv with rfl | hv
    · have := le_align4 v.size
      omega
    · have := ih hv
      omega

/-- **All arguments**: every slot is filled, and nothing else is written. -/
theorem fillArguments_spec {vs : List Arg} (hv : ∀ v ∈ vs, v.value.length < 2 ^ 32) (m : Mem)
    (p : ℕ) : ∃ m', fillArguments m p (vs.map Arg.size) vs = some m' ∧ Slots m' p vs ∧
      ∀ x, x < p ∨ p + getTotal (vs.map Arg.size) ≤ x → m' x = m x := by
  induction vs generalizing m p with
  | nil => exact ⟨m, rfl, trivial, fun _ _ => rfl⟩
  | cons v vs ih =>
    obtain ⟨m₁, h₁, hslot, hframe₁⟩ := typeCopy_spec (hv v List.mem_cons_self) m p
    obtain ⟨m₂, h₂, hslots, hframe₂⟩ := ih (fun w hw => hv w (List.mem_cons_of_mem v hw)) m₁
      (p + align4 v.size)
    have hle := le_align4 v.size
    refine ⟨m₂, ?_, ⟨hslot.congr fun x hx hx' => hframe₂ x (.inl (by omega)), hslots⟩,
      fun x hx => ?_⟩
    · rw [List.map_cons, fillArguments, h₁, Option.bind_some, h₂]
    · rw [List.map_cons, getTotal] at hx
      rw [hframe₂ x (by omega), hframe₁ x (by omega)]

theorem makeSizeSeq_eq {vs : List Arg} (hv : ∀ v ∈ vs, v.value.length < 2 ^ 32) :
    makeSizeSeq vs = some (vs.map Arg.size) := by
  induction vs with
  | nil => rfl
  | cons v vs ih =>
    have hvs := ih fun w hw => hv w (List.mem_cons_of_mem v hw)
    rw [makeSizeSeq] at hvs ⊢
    rw [List.mapM_cons, storageDataSize_true (hv v List.mem_cons_self), hvs]
    rfl

end Slots

theorem StringArg.tag_cases (s : StringArg) :
    s.tag = .stringUtf8Type ∨ s.tag = .stringUtf16Type := by
  rcases s with ⟨w, t⟩ | ⟨w, hw, cs⟩ <;> cases w <;> simp [StringArg.tag]

/-- A UTF-16 string has whole characters. -/
theorem StringArg.value_even (s : StringArg) (h : s.tag = .stringUtf16Type) : s.value.length % 2 = 0 := by
  rcases s with ⟨w, t⟩ | ⟨w, hw, cs⟩
  · cases w with
    | one => cases h
    | two =>
      rw [StringArg.value_of_ne (by decide), length_codeBytes, Width.bytes, Nat.mul_mod_left]
    | four => rw [StringArg.value, length_flatMap_toLe, Nat.mul_mod_right]
  · cases w with
    | one => cases h
    | two => rw [StringArg.value, length_codeBytes, Width.bytes, Nat.mul_mod_left]
    | four => exact absurd rfl hw

theorem Arg.value_even (v : Arg) (h : v.tag = .stringUtf16Type) : v.value.length % 2 = 0 := by
  rcases v with _ | address | ⟨t, bits⟩ | s
  · cases h
  · cases h
  · cases t <;> cases h
  · exact s.value_even h

end QLog.Record
