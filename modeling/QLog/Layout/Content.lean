import QLog.Foundations.ByteMemory
import QLog.Foundations.PowTwo
import QLog.Layout.FormatInfo

/-!
# The text of a layout

`Layout` holds the text being written: the vector, its size, the cursor, and the format specification in
force. The functions here append characters, strings, numbers and padding. Cursors and lengths have 32
bits. The vector is a memory, so that a write behind its size has a meaning; `writesInside` says whether
there was none.

The arithmetic on floating-point values is left open (`FloatOps`): no cursor depends on more of it than
the digits of the integral part.
-/

namespace QLog

open Layout (FormatInfo ascii)

/-- The text of a thread with a terminator takes 284 bytes at most: `"[tid-"`, a number of 20 digits, a
blank, a name of 255 bytes, a bracket and a tab. -/
abbrev ThreadText := {text : List UInt8 // text.length ≤ 283}

/-- `Layout`: `format_content_` with its size and cursor, `thread_names_cache_` and `format_info_`. -/
structure Layout where
  content : Mem
  size : ℕ
  cursor : ℕ
  threadNamesCache : BitVec 64 → Option ThreadText
  formatInfo : FormatInfo
  writesInside : Bool

namespace Layout

/-- A layout as it is created. -/
def initial : Layout := ⟨fun _ => 0, 0, 0, fun _ => none, .initial, true⟩

/-- A character is stored at an index. -/
def write (l : Layout) (i : ℕ) (c : UInt8) : Layout :=
  { l with content := l.content.poke i c, writesInside := l.writesInside && decide (i < l.size) }

/-- A character is stored at the cursor. -/
def push (l : Layout) (c : UInt8) : Layout := { l.write l.cursor c with cursor := add32 l.cursor 1 }

/-- Bytes are copied to the cursor. -/
def append (l : Layout) (bs : List UInt8) : Layout :=
  { l with
    content := l.content.write l.cursor bs
    cursor := add32 l.cursor bs.length
    writesInside := l.writesInside && decide (bs = [] ∨ l.cursor + bs.length ≤ l.size) }

/-- `vector::resize`: new bytes are zero. -/
def resize (l : Layout) (n : ℕ) : Layout :=
  { l with content := fun i => if l.size ≤ i ∧ i < n then 0 else l.content i, size := n }

/-- `expand_format_content_buff_size`. -/
def expandFormatContentBuffSize (newSize : ℕ) (l : Layout) : Layout :=
  let newSize :=
    if l.formatInfo.offset ≠ 0 then
      add32 newSize (add32 (add32 l.formatInfo.width l.formatInfo.precision) 2)
    else newSize
  if newSize ≤ l.size then l else l.resize (roundPowOfTwo newSize)

/-- The expansion for so many bytes behind the cursor. -/
def expandBy (n : ℕ) (l : Layout) : Layout := l.expandFormatContentBuffSize (add32 l.cursor n)

/-- `reverse`. -/
def reverse (beginCursor endCursor : ℕ) (l : Layout) : Layout :=
  if beginCursor < endCursor then
    reverse (beginCursor + 1) (endCursor - 1)
      ((l.write beginCursor (l.content endCursor)).write endCursor (l.content beginCursor))
  else l
termination_by endCursor - beginCursor

/-! ## Strings -/

/-- The bytes of a text of characters. -/
def text (s : String) : List UInt8 := s.toList.map ascii

/-- `insert_str_utf8`. -/
def insertStrUtf8 (str : List UInt8) (l : Layout) : Layout :=
  if str.length = 0 then l else (l.expandBy str.length).append str

/-- `utf16_to_utf8_sw`, on the units that it reads. -/
def utf16ToUtf8Sw : List ℕ → List UInt8
  | [] => []
  | c :: src =>
    if c < 0x80 then UInt8.ofNat c :: utf16ToUtf8Sw src
    else if c < 0x800 then
      UInt8.ofNat (0xC0 ||| c >>> 6) :: UInt8.ofNat (0x80 ||| c &&& 0x3F) :: utf16ToUtf8Sw src
    else if 0xD800 ≤ c ∧ c ≤ 0xDFFF then
      if 0xDC00 ≤ c then utf16ToUtf8Sw src
      else
        match src with
        | [] => []
        | c2 :: rest =>
          if 0xDC00 ≤ c2 ∧ c2 ≤ 0xDFFF then
            let c := ((c &&& 0x3FF) <<< 10 ||| c2 &&& 0x3FF) + 0x10000
            UInt8.ofNat (0xF0 ||| c >>> 18) :: UInt8.ofNat (0x80 ||| c >>> 12 &&& 0x3F) ::
              UInt8.ofNat (0x80 ||| c >>> 6 &&& 0x3F) :: UInt8.ofNat (0x80 ||| c &&& 0x3F) ::
              utf16ToUtf8Sw rest
          else utf16ToUtf8Sw (c2 :: rest)
    else
      UInt8.ofNat (0xE0 ||| c >>> 12) :: UInt8.ofNat (0x80 ||| c >>> 6 &&& 0x3F) ::
        UInt8.ofNat (0x80 ||| c &&& 0x3F) :: utf16ToUtf8Sw src

/-- The units of 16 bits in a list of bytes. -/
def unitsOf : List UInt8 → List ℕ
  | lo :: hi :: rest => (lo.toNat + 256 * hi.toNat) :: unitsOf rest
  | _ => []

/-- `insert_str_utf16`, on the units of `len` bytes. -/
def insertStrUtf16 (str : List ℕ) (len : ℕ) (l : Layout) : Layout :=
  let maxBytesLen := add32 (len * 3 % 2 ^ 32 / 2) 1
  (l.expandBy maxBytesLen).append (utf16ToUtf8Sw str)

/-- `insert_bool`. -/
def insertBool (value : Bool) (l : Layout) : Layout := l.insertStrUtf8 (text (if value then "TRUE" else "FALSE"))

/-- `insert_char`. -/
def insertChar (value : UInt8) (l : Layout) : Layout := (l.expandBy 1).push value

/-- `insert_char16`. -/
def insertChar16 (value : ℕ) (l : Layout) : Layout := l.insertStrUtf16 [value] 2

/-- `insert_char32`. -/
def insertChar32 (value : ℕ) (l : Layout) : Layout :=
  if value ≤ 0xFFFF then l.insertStrUtf16 [value] 2
  else
    let value := value - 0x10000
    l.insertStrUtf16 [(value >>> 10 + 0xD800) % 2 ^ 16, (value &&& 0x3FF) + 0xDC00] 4

/-! ## Padding -/

/-- The first loop of the padding on the left, at its turn `i`: a character is moved to the right, unless it
is a sign or part of a base prefix that the fill characters swallow. `ignore` and `ignoreIndex` are the
local variables. -/
def alignRight (writeBeginPos dis : ℕ) (s : Layout × ℕ × ℕ) (i : ℕ) : Layout × ℕ × ℕ :=
  let (l, ignore, ignoreIndex) := s
  let info := l.formatInfo
  let optIndex := sub32 (add32 writeBeginPos info.width) i
  let moveIndex := sub32 (add32 writeBeginPos dis) i
  let c := l.content moveIndex
  if (c = ascii '+' ∨ c = ascii '-') ∧ info.fill ≠ ascii ' ' then (l.write optIndex info.fill, 1, ignoreIndex)
  else if (info.fill = ascii '0' ∧ info.prefixChar = ascii '#' ∧
      (info.type = ascii 'b' ∨ info.type = ascii 'x')) ∧
        (c = ascii 'b' ∨ c = ascii 'B' ∨ c = ascii 'x' ∨ c = ascii 'X') then
    (l.write optIndex info.fill, 2, sub32 moveIndex 1)
  else if ignore = 2 ∧ ignoreIndex = moveIndex then (l.write optIndex info.fill, ignore, ignoreIndex)
  else (l.write optIndex c, ignore, ignoreIndex)

/-- Fill characters at the indices from `a` on. -/
def fillAt (a n : ℕ) (l : Layout) : Layout :=
  (List.range n).foldl (fun l i => l.write (add32 a i) l.formatInfo.fill) l

/-- `fill_and_alignment`. -/
def fillAndAlignment (writeBeginPos : ℕ) (l : Layout) : Layout :=
  let dis := sub32 l.cursor writeBeginPos
  let width := l.formatInfo.width
  if dis < width then
    let fillCount := width - dis
    let l :=
      if l.formatInfo.align = ascii '>' then
        let (l, ignore, _) := (List.range' 1 dis).foldl (alignRight writeBeginPos dis) (l, 0, 0)
        l.fillAt (add32 writeBeginPos ignore) (fillCount - ignore)
      else if l.formatInfo.align = ascii '<' then l.fillAt l.cursor fillCount
      else if l.formatInfo.align = ascii '^' then
        let tail := fillCount / 2
        let front := fillCount - tail
        let l := (List.range' 1 dis).foldl (fun l i =>
          l.write (sub32 (sub32 (add32 writeBeginPos width) i) tail)
            (l.content (sub32 (add32 writeBeginPos dis) i))) l
        let l := l.fillAt writeBeginPos front
        l.fillAt (add32 front (add32 writeBeginPos dis)) tail
      else l
    { l with cursor := add32 l.cursor fillCount, formatInfo := .cleared }
  else l

/-! ## Integers -/

/-- A base of positional notation. -/
abbrev Base := {b : ℕ // 2 ≤ b}

/-- The base ten. -/
def ten : Base := ⟨10, by norm_num⟩

/-- The base sixteen. -/
def sixteen : Base := ⟨16, by norm_num⟩

/-- The base of a presentation type. -/
def baseOfType (type : UInt8) (base : Base) : Base :=
  if type = ascii 'b' then ⟨2, le_rfl⟩
  else if type = ascii 'x' then sixteen
  else if type = ascii 'o' then ⟨8, by norm_num⟩
  else base

/-- The loop of `write_decimal_digits` that counts digits, for so many more. -/
def countDigits (value : ℕ) : ℕ → ℕ → ℕ → ℕ
  | 0, _, count => count
  | more + 1, limit, count =>
    if limit ≤ value then countDigits value more (limit * 10 % 2 ^ 64) (count + 1) else count

/-- The loop of `write_decimal_digits` that writes pairs of digits in front of `p`. -/
def writePairs (value p : ℕ) (l : Layout) : Layout :=
  let put : ℕ → Layout := fun pair =>
    (l.write (p - 2) (UInt8.ofNat (48 + pair / 10))).write (p - 1) (UInt8.ofNat (48 + pair % 10))
  if 100 ≤ value then writePairs (value / 100) (p - 2) (put (value % 100))
  else if 10 ≤ value then put value
  else l.write (p - 1) (UInt8.ofNat (48 + value))
termination_by value
decreasing_by omega

/-- `write_decimal_digits` at the cursor, which is moved. -/
def writeDecimalDigits (value : ℕ) (l : Layout) : Layout :=
  let count := countDigits value 19 10 1
  { l.writePairs value (l.cursor + count) with cursor := add32 l.cursor count }

/-- A digit. -/
def digitChar (upper : Bool) (digit : ℕ) : UInt8 :=
  if digit < 10 then UInt8.ofNat (48 + digit)
  else UInt8.ofNat ((if upper then 'A' else 'a').toNat + digit - 10)

/-- The loop that writes digits, the last one first, and counts what the exponent will be. A value without
a sign is a nonnegative one. -/
def writeDigits (base : Base) (value : ℤ) (eCount : ℕ) (l : Layout) : ℕ × Layout :=
  let digit := (value.tmod base).natAbs
  let l := l.push (digitChar l.formatInfo.upper digit)
  let value' := value.tdiv base
  let eCount := if value' > base then eCount + 1 else eCount
  if value' = 0 then (eCount, l) else writeDigits base value' eCount l
termination_by value.natAbs
decreasing_by
  rename_i hne
  have habs : (value.tdiv base).natAbs = value.natAbs / base := Int.natAbs_tdiv value base
  have hne' : value.natAbs / base.val ≠ 0 := fun h => hne (Int.natAbs_eq_zero.1 (habs.trans h))
  rw [habs]
  exact Nat.div_lt_self (Nat.pos_of_ne_zero fun h => hne' (by rw [h, Nat.zero_div])) base.property

/-- The loop that counts the digits of an exponent. -/
def bitCount (e : ℕ) : ℕ := if e / 10 = 0 then 1 else bitCount (e / 10) + 1
termination_by e
decreasing_by omega

/-- The loop that writes the digits of an exponent, the last one first. -/
def writeExponent (e : ℕ) (l : Layout) : Layout :=
  let l := l.push (UInt8.ofNat (48 + e % 10))
  if e / 10 = 0 then l else writeExponent (e / 10) l
termination_by e
decreasing_by omega

/-- `static_cast<std::int32_t>`. -/
def toI32 (n : ℕ) : ℤ := (BitVec.ofNat 32 n).toInt

/-- `fill_e_style`. -/
def fillEStyle (eCount beginCursor : ℕ) (l : Layout) : Layout :=
  let bitcount := bitCount eCount
  let l := l.expandBy (bitcount + 3)
  let jump := toI32 l.cursor - (toI32 (sub32 (add32 beginCursor l.formatInfo.width) bitcount) - 2)
  let l :=
    if 0 < jump then
      let l := { l with cursor := sub32 l.cursor jump.toNat }
      if l.cursor = beginCursor then { l with cursor := add32 l.cursor 1 } else l
    else l
  let l := l.push (ascii (if l.formatInfo.upper then 'E' else 'e'))
  let l := l.push (ascii '+')
  let beginCursor := l.cursor
  let l := l.writeExponent eCount
  let l := if eCount ≤ 9 then l.push (ascii '0') else l
  l.reverse beginCursor (sub32 l.cursor 1)

/-- The base prefix of the alternate form. -/
def pushPrefix (l : Layout) : Layout :=
  if l.formatInfo.prefixChar = ascii '#' then
    if l.formatInfo.type = ascii 'b' then
      (l.push (ascii '0')).push (ascii (if l.formatInfo.upper then 'B' else 'b'))
    else if l.formatInfo.type = ascii 'x' then
      (l.push (ascii '0')).push (ascii (if l.formatInfo.upper then 'X' else 'x'))
    else l
  else l

/-- What `insert_integral_unsigned` and `insert_integral_signed` share; `mark` is the sign that they write.
The number of characters written is returned. -/
def insertIntegral (mark : Option UInt8) (value : ℤ) (base : Base) (l : Layout) : ℕ × Layout :=
  let width := l.cursor
  let base := baseOfType l.formatInfo.type base
  let l := l.expandBy (if 16 ≤ base.val then 16 else if 10 ≤ base.val then 20 else 64)
  let l := match mark with
    | some c => l.push c
    | none => l
  let l := l.pushPrefix
  let beginCursor := l.cursor
  if base.val = 10 ∧ l.formatInfo.type ≠ ascii 'e' then
    let l := l.writeDecimalDigits value.natAbs
    (sub32 l.cursor width, l)
  else
    let (eCount, l) := l.writeDigits base value 0
    if l.formatInfo.type = ascii 'e' then
      let l := l.write l.cursor (l.content (sub32 l.cursor 1))
      let l := l.write (sub32 l.cursor 1) (ascii '.')
      let l := { l with cursor := add32 l.cursor 1 }
      let l := l.reverse beginCursor (sub32 l.cursor 1)
      let l := l.fillEStyle eCount beginCursor
      (sub32 l.cursor width, l)
    else
      let l := l.reverse beginCursor (sub32 l.cursor 1)
      (sub32 l.cursor width, l)

/-- `insert_integral_unsigned`. -/
def insertIntegralUnsigned (value : BitVec 64) (base : Base) (l : Layout) : ℕ × Layout :=
  insertIntegral (if 0 < value.toNat ∧ l.formatInfo.sign = ascii '+' then some (ascii '+') else none)
    value.toNat base l

/-- `insert_integral_signed`. -/
def insertIntegralSigned (value : BitVec 64) (base : Base) (l : Layout) : ℕ × Layout :=
  insertIntegral (if value.toInt < 0 then some (ascii '-')
    else if l.formatInfo.sign = ascii '+' then some (ascii '+') else none) value.toInt base l

/-- `insert_pointer`. -/
def insertPointer (ptr : BitVec 64) (l : Layout) : Layout :=
  if ptr ≠ 0 then ((l.expandBy 2).append (text "0x") |>.insertIntegralUnsigned ptr sixteen).2
  else (l.expandBy 4).append (text "null")

/-! ## Decimals -/

/-- The operations on a floating-point type that the layout uses. -/
structure FloatOps where
  carrier : Type
  ofBytes : List UInt8 → carrier
  nonneg : carrier → Bool
  toU64 : carrier → BitVec 64
  toI64 : carrier → BitVec 64
  subU64 : carrier → BitVec 64 → carrier
  subI64 : carrier → BitVec 64 → carrier
  fabs : carrier → carrier
  mulTen : carrier → carrier
  toI32 : carrier → ℤ
  subI32 : carrier → ℤ → carrier

/-- The loop that writes the digits of a fraction, for so many digits. -/
def writeFraction (ops : FloatOps) : ℕ → ops.carrier → Layout → Layout
  | 0, _, l => l
  | precision + 1, value, l =>
    let value := ops.mulTen value
    let digit := ops.toI32 value
    writeFraction ops precision (ops.subI32 value digit) (l.push (UInt8.ofNat ((48 + digit) % 256).toNat))

/-- The loop that moves the point to the left, and where the point is then. -/
def movePoint : ℕ → ℕ → Layout → ℕ × Layout
  | 0, pointIndex, l => (pointIndex, l)
  | moves + 1, pointIndex, l =>
    let temp := l.content pointIndex
    let l := l.write pointIndex (l.content (sub32 pointIndex 1))
    movePoint moves (sub32 pointIndex 1) (l.write (sub32 pointIndex 1) temp)

/-- What the two functions `insert_decimal` share. `defaultPrecision` is the precision when none is given,
and `narrow` computes one that leaves room for the integral part in the width. -/
def insertDecimalOf (ops : FloatOps) (defaultPrecision : ℕ) (narrow : ℕ → ℕ → ℤ) (value : ops.carrier)
    (l : Layout) : Layout :=
  let l := if l.formatInfo.type = ascii 'e' then
    { l with formatInfo := { l.formatInfo with type := ascii 'Z' } } else l
  let info := l.formatInfo
  let precision : ℤ := if info.precision ≠ 2 ^ 32 - 1 then info.precision else defaultPrecision
  let beginCursor := l.cursor
  let (intWidth, l) :=
    if ops.nonneg value then l.insertIntegralUnsigned (ops.toU64 value) ten
    else l.insertIntegralSigned (ops.toI64 value) ten
  let value := if ops.nonneg value then ops.subU64 value (ops.toU64 value) else ops.subI64 value (ops.toI64 value)
  let precision :=
    if 0 < info.width ∧ info.width < add32 (add32 precision.toNat 1) intWidth then narrow info.width intWidth
    else precision
  let value := ops.fabs value
  let l := l.expandBy (add32 (precision % 2 ^ 32).toNat 5)
  let hasPoint := decide (0 < precision ∨ info.type = ascii 'Z' ∧ 1 < intWidth)
  let pointIndex := if hasPoint then l.cursor else 0
  let l := if hasPoint then l.push (ascii '.') else l
  let l := writeFraction ops precision.toNat value l
  if l.formatInfo.type = ascii 'Z' then
    let l := { l with formatInfo := { l.formatInfo with type := ascii 'e' } }
    let moves := sub32 intWidth 1
    let (pointIndex, l) := if pointIndex ≠ 0 then movePoint moves pointIndex l else (pointIndex, l)
    let l :=
      if 0 < l.formatInfo.precision ∧ l.formatInfo.precision < sub32 l.cursor beginCursor then
        { l with cursor := add32 (add32 pointIndex l.formatInfo.precision) 1 }
      else l
    l.fillEStyle moves beginCursor
  else l

/-- `insert_decimal` of a `float`. -/
def insertDecimalFloat (ops : FloatOps) (value : ops.carrier) (l : Layout) : Layout :=
  insertDecimalOf ops 7 (fun width intWidth => toI32 (sub32 (sub32 width intWidth) 1)) value l

/-- `insert_decimal` of a `double`, whose narrowed precision is not negative. -/
def insertDecimalDouble (ops : FloatOps) (value : ops.carrier) (l : Layout) : Layout :=
  insertDecimalOf ops 15 (fun width intWidth => max (toI32 width - toI32 intWidth - 1) 0) value l

end Layout

end QLog
