import QLog.Foundations.Vlq

/-!
# Items of a compressed file

An item is a header with the type of the item and the length of its body, and the body. The place of
the header is chosen before the length is known: one byte more than the least length that is expected.
`writeBackHead` fills it afterwards. Either the length fits behind a byte that has the type alone, or it
takes the whole place and the type is merged into its first byte.

`splitItem` takes the first item off, as `read_item_data` and the description of the format do
(`splitItem_itemBytes`).
-/

namespace QLog.Appender

open Vlq

/-- `item_type`. -/
inductive ItemType
  | logTemplate
  | logEntry
  deriving DecidableEq

/-- The value of the enumerator. -/
def ItemType.toByte : ItemType → UInt8
  | .logTemplate => 0
  | .logEntry => 128

/-- An item: its type and its body. -/
structure Item where
  type : ItemType
  body : List UInt8

/-- `get_vlq_min_bytes_length_of_item_header`. -/
def getVlqMinBytesLengthOfItemHeader (value : ℕ) : ℕ :=
  if 1 < encodeLength value then encodeLength value - 1 else encodeLength value

/-- The header of an item is written back. -/
def writeBackHead (m : Mem) (type : ItemType) (minSize bodyLen : ℕ) : Mem :=
  if encodeLength bodyLen ≠ minSize then
    (m.write 0 (encode bodyLen)).poke 0 (m.write 0 (encode bodyLen) 0 ||| type.toByte)
  else (m.write 1 (encode bodyLen)).poke 0 type.toByte

/-- The header of an item, in a place of `1 + minSize` bytes. -/
def headBytes (type : ItemType) (minSize bodyLen : ℕ) : List UInt8 :=
  if encodeLength bodyLen = minSize then type.toByte :: encode bodyLen
  else
    match encode bodyLen with
    | b :: bs => (b ||| type.toByte) :: bs
    | [] => []

/-- The bytes of an item. -/
def Item.bytes (minSize : ℕ) (i : Item) : List UInt8 := headBytes i.type minSize i.body.length ++ i.body

/-- The length of the body, and the length of the header. -/
def readHead (b : UInt8) (bs : List UInt8) : Option (ℕ × ℕ) :=
  if b &&& 0x7F = 0 then (decode bs).map fun r => (r.1, r.2 + 1) else decode ((b &&& 0x7F) :: bs)

/-- The type in the first byte. -/
def readType (b : UInt8) : ItemType := if b &&& 0x80 = 0 then .logTemplate else .logEntry

/-- The first item, and what follows it. -/
def splitItem : List UInt8 → Option (Item × List UInt8)
  | [] => none
  | b :: bs =>
    (readHead b bs).bind fun (n, l) =>
      if l + n ≤ bs.length + 1 then
        some (⟨readType b, ((b :: bs).drop l).take n⟩, (b :: bs).drop (l + n))
      else none

/-- The items, for at most so many. -/
def splitItems : ℕ → List UInt8 → Option (List Item)
  | _, [] => some []
  | 0, _ => none
  | fuel + 1, bs => (splitItem bs).bind fun (i, rest) => (splitItems fuel rest).map (i :: ·)

/-! ## Writing the header back -/

variable {type : ItemType} {minSize bodyLen : ℕ}

/-- A body of so many bytes can be expected in a place of `1 + minSize` bytes. -/
def Expected (minSize bodyLen : ℕ) : Prop :=
  encodeLength bodyLen = minSize ∨ encodeLength bodyLen = minSize + 1

theorem length_headBytes (h : Expected minSize bodyLen) :
    (headBytes type minSize bodyLen).length = 1 + minSize := by
  unfold headBytes
  split
  · rename_i heq
    rw [List.length_cons, length_encode]
    omega
  · rename_i hne
    have hlen := length_encode bodyLen
    cases hb : encode bodyLen with
    | nil =>
      rw [hb, List.length_nil] at hlen
      have := (encodeLength_spec bodyLen).1
      omega
    | cons b bs =>
      rw [hb, List.length_cons] at hlen
      rw [List.length_cons]
      have := h.resolve_left hne
      omega

theorem length_bytes {body : List UInt8} (h : Expected minSize body.length) :
    (Item.bytes minSize ⟨type, body⟩).length = 1 + minSize + body.length := by
  rw [Item.bytes, List.length_append, length_headBytes h]

/-- The header is written into its place, and nothing else changes. -/
theorem writeBackHead_eq (m : Mem) (h : Expected minSize bodyLen) :
    writeBackHead m type minSize bodyLen = m.write 0 (headBytes type minSize bodyLen) := by
  obtain ⟨b, hb, -⟩ := encode_cons bodyLen
  unfold writeBackHead headBytes
  rcases h with h | h
  · rw [if_neg (by simpa using h), if_pos h, ← List.singleton_append, ← Mem.write_append,
      List.length_singleton, Nat.zero_add]
    funext x
    rcases eq_or_ne x 0 with rfl | hx
    · rw [Mem.poke_self, Mem.write_apply_of_lt _ _ (by omega), Mem.write, if_pos le_rfl]
      rfl
    · have hframe : (m.write 0 [type.toByte]) x = m x :=
        Mem.write_apply_of_not_mem m (.inr (by rw [List.length_singleton]; omega))
      rw [Mem.poke_apply_of_ne _ _ hx, Mem.write, Mem.write, hframe]
  · rw [if_pos (by omega), if_neg (by omega), hb]
    funext x
    rcases eq_or_ne x 0 with rfl | hx
    · rw [Mem.poke_self, Mem.write, Mem.write, if_pos le_rfl, if_pos le_rfl, Nat.sub_self,
        List.getD_cons_zero, List.getD_cons_zero]
    · obtain ⟨x, rfl⟩ := Nat.exists_eq_succ_of_ne_zero hx
      rw [Mem.poke_apply_of_ne _ _ hx, Mem.write, Mem.write, if_pos (by omega), if_pos (by omega),
        Nat.sub_zero]
      rfl

/-! ## Taking items off -/

theorem readType_or (type : ItemType) {b : UInt8} (hb : b.toNat < 128) :
    readType (b ||| type.toByte) = type ∧ (b ||| type.toByte) &&& 0x7F = b := by
  have hall : ∀ n < 128, ∀ type : ItemType, readType (UInt8.ofNat n ||| type.toByte) = type ∧
      (UInt8.ofNat n ||| type.toByte) &&& 0x7F = UInt8.ofNat n := by
    intro n hn type
    revert n
    cases type <;> decide
  have hofNat : UInt8.ofNat b.toNat = b := UInt8.ofNat_toNat
  rw [← hofNat]
  exact hall b.toNat hb type

theorem readType_toByte (type : ItemType) : readType type.toByte = type := by
  cases type <;> rfl

theorem toByte_and (type : ItemType) : type.toByte &&& 0x7F = 0 := by
  cases type <;> rfl

/-- **The header is read back**, in both layouts. -/
theorem readHead_headBytes (type : ItemType) (h : Expected minSize bodyLen) (hlt : bodyLen < 2 ^ 32) (hmin : 1 ≤ minSize)
    (rest : List UInt8) : ∃ b bs, headBytes type minSize bodyLen ++ rest = b :: bs ∧
      readHead b bs = some (bodyLen, 1 + minSize) ∧ readType b = type := by
  have h64 : bodyLen < 2 ^ 64 := hlt.trans (by norm_num)
  unfold headBytes
  rcases h with h | h
  · rw [if_pos h]
    refine ⟨type.toByte, encode bodyLen ++ rest, rfl, ?_, readType_toByte type⟩
    rw [readHead, if_pos (toByte_and type), decode_encode h64, Option.map_some, h, Nat.add_comm]
  · obtain ⟨b, hb, -⟩ := encode_cons bodyLen
    have h8 : encodeLength bodyLen ≤ 8 := by
      rw [encodeLength_le_iff (by omega) le_rfl]
      norm_num [minValueOfLength]
      omega
    obtain ⟨hpos, hlt⟩ := head_encode (by omega) h8 hb
    obtain ⟨htype, hand⟩ := readType_or type hlt
    rw [if_neg (by omega), hb]
    refine ⟨_, _, List.cons_append, ?_, htype⟩
    have hne : b ≠ 0 := by
      rintro rfl
      exact absurd hpos (by decide)
    rw [readHead, hand, if_neg hne]
    have hdec := decode_encode h64 rest
    rw [hb, List.cons_append] at hdec
    rw [hdec, h, Nat.add_comm]

/-- **The first item is the one that was written.** -/
theorem splitItem_bytes {i : Item} (h : Expected minSize i.body.length) (hlt : i.body.length < 2 ^ 32)
    (hmin : 1 ≤ minSize) (rest : List UInt8) : splitItem (i.bytes minSize ++ rest) = some (i, rest) := by
  obtain ⟨b, bs, heq, hhead, htype⟩ := readHead_headBytes i.type h hlt hmin (i.body ++ rest)
  have hsplit : i.bytes minSize ++ rest = b :: bs := by
    rw [Item.bytes, List.append_assoc, heq]
  have hlen := congrArg List.length hsplit
  rw [List.length_append, Item.bytes, List.length_append, length_headBytes h, List.length_cons] at hlen
  rw [hsplit, splitItem, hhead, Option.bind_some]
  simp only
  rw [if_pos (by omega), htype, ← hsplit, Item.bytes, List.append_assoc,
    List.drop_left' (length_headBytes h), List.take_left' rfl, ← List.drop_drop,
    List.drop_left' (length_headBytes h), List.drop_left' rfl]

/-- An item that can be written, with the place of its header. -/
structure Placed where
  item : Item
  minSize : ℕ
  expected : Expected minSize item.body.length
  length_lt : item.body.length < 2 ^ 32
  one_le : 1 ≤ minSize

/-- The bytes of a placed item. -/
def Placed.bytes (p : Placed) : List UInt8 := p.item.bytes p.minSize

theorem Placed.length_bytes (p : Placed) : p.bytes.length = 1 + p.minSize + p.item.body.length :=
  Appender.length_bytes p.expected

/-- **Splitting yields exactly the items emitted.** -/
theorem splitItems_bytes {fuel : ℕ} (ps : List Placed) (hfuel : ps.length ≤ fuel) :
    splitItems fuel (ps.flatMap Placed.bytes) = some (ps.map Placed.item) := by
  induction ps generalizing fuel with
  | nil => cases fuel <;> rfl
  | cons p ps ih =>
    rw [List.length_cons] at hfuel
    obtain ⟨fuel, rfl⟩ := Nat.exists_eq_succ_of_ne_zero (show fuel ≠ 0 by omega)
    have hlen := p.length_bytes
    rw [List.flatMap_cons]
    cases hb : p.bytes ++ ps.flatMap Placed.bytes with
    | nil =>
      have := congrArg List.length hb
      rw [List.length_append, List.length_nil] at this
      omega
    | cons b bs =>
      change (splitItem (b :: bs)).bind (fun r => (splitItems fuel r.2).map (r.1 :: ·)) = _
      rw [← hb, Placed.bytes, splitItem_bytes p.expected p.length_lt p.one_le, Option.bind_some,
        ih (by omega)]
      rfl

end QLog.Appender
