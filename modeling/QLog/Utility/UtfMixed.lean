import QLog.Appender.Compressed.UtfMixed
import QLog.Utility.Hash
import QLog.Utility.UtfConversion

/-!
# UTF-mixed texts and their units

The functions on UTF-mixed texts, with the space that they are given and the buffer that they share. A text of
units is mixed as its bytes are (`utf16ToUtfMixed_eq`); from the mixed text, the hash of the units
(`hashUtfMixedAsUtf16_mixed`) and their UTF-8 text (`utfMixedToUtf8_mixed`) are recovered, whatever the buffer held.
-/

namespace QLog.Utf

open Bytes Hash
open Layout (utf16ToUtf8Sw unitsOf)
open Appender (utfMixedMark)

/-- The bytes of units. -/
def bytesOf (us : List UInt16) : List UInt8 := us.flatMap fun u => toLe 2 u.toNat

/-- The units that are ASCII, at the start of a text. -/
def asciiUnits (src : List UInt16) : List UInt16 := src.takeWhile (· ≤ 0x7F)

/-- What follows them. -/
def otherUnits (src : List UInt16) : List UInt16 := src.dropWhile (· ≤ 0x7F)

/-- `utf16_to_utf_mixed`, into so many characters. A failed assertion has no result. -/
def utf16ToUtfMixed (src : List UInt16) (dstCharacterNum : ℕ) : Option (List UInt8) :=
  let written := (asciiUnits src).length
  let dst := (asciiUnits src).map UInt16.toUInt8
  if dstCharacterNum ≤ written then none
  else if written = src.length then some dst
  else
    let leftChars := src.length - written
    let leftSpace := dstCharacterNum - (written + 1)
    if leftSpace < leftChars * 2 then none else some (dst ++ utfMixedMark :: bytesOf (src.drop written))

/-- `mixed_utf16_buffer_` when a function is left: more than 256 bytes are given back. -/
def shrink (buffer : List UInt8) : List UInt8 := if 256 < buffer.length then [] else buffer

/-- `utf_mixed_to_utf8`, for a text at an address, into so many characters: the UTF-8 text, and the buffer. -/
def utfMixedToUtf8 (address : ℕ) (src : List UInt8) (dstCharacterNum : ℕ) (buffer : List UInt8) :
    Option (List UInt8 × List UInt8) :=
  match src.findIdx? (· = utfMixedMark) with
  | none => some (src, buffer)
  | some utf8Len =>
    if dstCharacterNum < utf8Len then none
    else
      let leftCharacters := src.length - utf8Len - 1
      let utf16Start := src.drop (utf8Len + 1)
      -- units at an odd address are copied to the buffer
      let buffer := if (address + utf8Len + 1) % 2 ≠ 0 then utf16Start else buffer
      some (src.take utf8Len ++ utf16ToUtf8Sw ((unitsOf utf16Start).take (leftCharacters / 2)), shrink buffer)

/-- `hash_utf_mixed_as_utf16`: the hash, and the buffer. -/
def hashUtfMixedAsUtf16 (P : Platform) (mixed buffer : List UInt8) : BitVec 64 × List UInt8 :=
  let split := mixed.findIdx? (· = utfMixedMark)
  let asciiLen := split.getD mixed.length
  let suffixLen := if split.isSome then mixed.length - asciiLen - 1 else 0
  let total := asciiLen * 2 + suffixLen
  let buf := if buffer.length < total then List.replicate total 0 else buffer
  let buf := overwrite buf 0 ((mixed.take asciiLen).flatMap fun b => toLe 2 b.toNat)
  let buf := if 0 < suffixLen then overwrite buf (2 * asciiLen) (mixed.drop (asciiLen + 1)) else buf
  (hashOf P (buf.take total), shrink buf)

/-! ## Bytes and units -/

variable {us vs : List UInt16}

theorem bytesOf_cons (u : UInt16) (us : List UInt16) : bytesOf (u :: us) = toLe 2 u.toNat ++ bytesOf us :=
  List.flatMap_cons

theorem bytesOf_append (us vs : List UInt16) : bytesOf (us ++ vs) = bytesOf us ++ bytesOf vs := List.flatMap_append

@[simp] theorem length_bytesOf (us : List UInt16) : (bytesOf us).length = 2 * us.length := by
  induction us with
  | nil => rfl
  | cons u us ih =>
    rw [bytesOf_cons, List.length_append, length_toLe, ih, List.length_cons]
    omega

theorem toLe_two (v : ℕ) : toLe 2 v = [UInt8.ofNat v, UInt8.ofNat (v / 256)] := rfl

/-- The units are read back. -/
theorem unitsOf_bytesOf (us : List UInt16) : unitsOf (bytesOf us) = us.map UInt16.toNat := by
  induction us with
  | nil => rfl
  | cons u us ih =>
    have hu := u.toNat_lt
    have hunit : (UInt8.ofNat u.toNat).toNat + 256 * (UInt8.ofNat (u.toNat / 256)).toNat = u.toNat := by
      rw [UInt8.toNat_ofNat', UInt8.toNat_ofNat']
      omega
    rw [bytesOf_cons, toLe_two, List.cons_append, List.cons_append, List.nil_append, unitsOf, ih, hunit, List.map_cons]

/-- Bytes of whole units. -/
theorem exists_bytesOf {bs : List UInt8} (h : bs.length % 2 = 0) : ∃ us, bytesOf us = bs := by
  induction bs using Layout.unitsOf.induct with
  | case1 lo hi rest ih =>
    rw [List.length_cons, List.length_cons] at h
    obtain ⟨us, hus⟩ := ih (by omega)
    have hlo := lo.toNat_lt
    have hhi := hi.toNat_lt
    refine ⟨UInt16.ofNat (lo.toNat + 256 * hi.toNat) :: us, ?_⟩
    rw [bytesOf_cons, hus, toLe_two, UInt16.toNat_ofNat', Nat.mod_eq_of_lt (by omega),
      show (lo.toNat + 256 * hi.toNat) / 256 = hi.toNat by omega, UInt8.ofNat_toNat]
    have hlow : UInt8.ofNat (lo.toNat + 256 * hi.toNat) = lo := UInt8.toNat.inj (by
      rw [UInt8.toNat_ofNat']
      omega)
    rw [hlow]
    rfl
  | case2 bs hbs =>
    rcases bs with _ | ⟨lo, _ | ⟨hi, rest⟩⟩
    · exact ⟨[], rfl⟩
    · simp at h
    · exact absurd rfl (hbs lo hi rest)

theorem bytesOf_inj : bytesOf us = bytesOf vs ↔ us = vs := by
  refine ⟨fun h => ?_, fun h => h ▸ rfl⟩
  have hunits := congrArg unitsOf h
  rw [unitsOf_bytesOf, unitsOf_bytesOf] at hunits
  exact List.map_injective_iff.2 (fun a b => UInt16.toNat.inj) hunits

theorem units_cons_of_le {u : UInt16} (h : u ≤ 0x7F) (us : List UInt16) :
    asciiUnits (u :: us) = u :: asciiUnits us ∧ otherUnits (u :: us) = otherUnits us :=
  ⟨List.takeWhile_cons_of_pos (decide_eq_true h), List.dropWhile_cons_of_pos (decide_eq_true h)⟩

theorem units_cons_of_not_le {u : UInt16} (h : ¬ u ≤ 0x7F) (us : List UInt16) :
    asciiUnits (u :: us) = [] ∧ otherUnits (u :: us) = u :: us :=
  ⟨List.takeWhile_cons_of_neg (by simpa using h), List.dropWhile_cons_of_neg (by simpa using h)⟩

theorem asciiUnits_append_otherUnits (us : List UInt16) : asciiUnits us ++ otherUnits us = us :=
  List.takeWhile_append_dropWhile

theorem le_of_mem_asciiUnits {u : UInt16} (h : u ∈ asciiUnits us) : u.toNat ≤ 0x7F := by
  have hu := List.mem_takeWhile_imp h
  rw [decide_eq_true_eq] at hu
  exact UInt16.le_iff_toNat_le.1 hu

/-! ## Mixing -/

/-- The UTF-mixed text of units. -/
def mixed (us : List UInt16) : List UInt8 :=
  (asciiUnits us).map UInt16.toUInt8 ++ (if otherUnits us = [] then [] else utfMixedMark :: bytesOf (otherUnits us))

theorem length_split (us : List UInt16) : (asciiUnits us).length + (otherUnits us).length = us.length := by
  rw [← List.length_append, asciiUnits_append_otherUnits]

theorem drop_asciiUnits (us : List UInt16) : us.drop (asciiUnits us).length = otherUnits us := by
  have h : (asciiUnits us ++ otherUnits us).drop (asciiUnits us).length = otherUnits us := List.drop_left' rfl
  rwa [asciiUnits_append_otherUnits] at h

theorem length_mixed_le (us : List UInt16) : (mixed us).length ≤ 2 * us.length + (if us = [] then 0 else 1) := by
  have hlen := length_split us
  unfold mixed
  rw [List.length_append, List.length_map]
  by_cases hus : us = []
  · subst hus
    exact le_rfl
  · rw [if_neg hus]
    split_ifs
    · rw [List.length_nil]
      omega
    · rw [List.length_cons, length_bytesOf]
      omega

/-- **Units are mixed** when there is space. -/
theorem utf16ToUtfMixed_eq {n : ℕ} (h : 2 * us.length + 1 ≤ n) : utf16ToUtfMixed us n = some (mixed us) := by
  have hlen := length_split us
  unfold utf16ToUtfMixed mixed
  simp only
  rw [if_neg (by omega), drop_asciiUnits]
  by_cases hother : otherUnits us = []
  · rw [hother, List.length_nil] at hlen
    rw [if_pos (by omega), if_pos hother, List.append_nil]
  · have hpos := List.length_pos_iff.2 hother
    rw [if_neg (by omega), if_neg (by omega), if_neg hother]

/-- There is one mixed text, whatever the space. -/
theorem eq_mixed {n : ℕ} {m : List UInt8} (h : utf16ToUtfMixed us n = some m) : m = mixed us := by
  have hlen := length_split us
  unfold utf16ToUtfMixed at h
  simp only [drop_asciiUnits] at h
  unfold mixed
  by_cases hother : otherUnits us = []
  · rw [hother, List.length_nil] at hlen
    rw [if_pos (show (asciiUnits us).length = us.length by omega)] at h
    split_ifs at h
    rw [if_pos hother, List.append_nil, Option.some.inj h]
  · have hpos := List.length_pos_iff.2 hother
    rw [if_neg (show (asciiUnits us).length ≠ us.length by omega)] at h
    split_ifs at h
    rw [if_neg hother, Option.some.inj h]

/-- An ASCII unit as a byte. -/
theorem toNat_toUInt8 {u : UInt16} (h : u.toNat ≤ 0x7F) : u.toUInt8.toNat = u.toNat := by
  rw [UInt16.toNat_toUInt8]
  omega

/-- The bytes of the units are mixed in the same way. -/
theorem utf16ToUtfMixed_bytesOf (us : List UInt16) : Appender.utf16ToUtfMixed (bytesOf us) = mixed us := by
  induction us with
  | nil => rfl
  | cons u us ih =>
    have hu := u.toNat_lt
    rw [bytesOf_cons, toLe_two, List.cons_append, List.cons_append, List.nil_append, Appender.utf16ToUtfMixed]
    by_cases hascii : u.toNat ≤ 0x7F
    · have hle : u ≤ 0x7F := UInt16.le_iff_toNat_le.2 hascii
      have hhigh : UInt8.ofNat (u.toNat / 256) = 0 := by
        rw [Nat.div_eq_of_lt (by omega)]
        rfl
      have hlow : UInt8.ofNat u.toNat ≤ 0x7F := by
        rw [UInt8.le_iff_toNat_le, UInt8.toNat_ofNat']
        exact (Nat.mod_le _ _).trans hascii
      have hsame : UInt8.ofNat u.toNat = u.toUInt8 := UInt8.toNat.inj (by
        rw [toNat_toUInt8 hascii, UInt8.toNat_ofNat']
        omega)
      rw [if_pos ⟨hhigh, hlow⟩, ih, hsame, mixed, mixed, (units_cons_of_le hle us).1, (units_cons_of_le hle us).2]
      rfl
    · have hnot : ¬ u ≤ 0x7F := fun hle => hascii (UInt16.le_iff_toNat_le.1 hle)
      have hother : ¬ (UInt8.ofNat (u.toNat / 256) = 0 ∧ UInt8.ofNat u.toNat ≤ 0x7F) := by
        rintro ⟨hhigh, hlow⟩
        have hhigh' := congrArg UInt8.toNat hhigh
        rw [UInt8.le_iff_toNat_le, UInt8.toNat_ofNat'] at hlow
        rw [UInt8.toNat_ofNat'] at hhigh'
        change _ ≤ 0x7F at hlow
        change _ = 0 at hhigh'
        omega
      rw [if_neg hother, mixed, (units_cons_of_not_le hnot us).1, (units_cons_of_not_le hnot us).2,
        if_neg (List.cons_ne_nil _ _), bytesOf_cons, toLe_two]
      rfl

theorem mixed_inj : mixed us = mixed vs ↔ us = vs := by
  refine ⟨fun h => ?_, fun h => h ▸ rfl⟩
  have hback : ∀ us, Appender.unmix (mixed us) = some (bytesOf us) := fun us => by
    rw [← utf16ToUtfMixed_bytesOf, Appender.unmix_mix (by rw [length_bytesOf]; omega)]
  exact bytesOf_inj.1 (Option.some.inj ((hback us).symm.trans ((congrArg _ h).trans (hback vs))))

/-! ## Reading mixed texts -/

/-- The mark of a mixed text stands behind its ASCII characters, if there is more. -/
theorem findIdx_mixed (us : List UInt16) : (mixed us).findIdx? (· = utfMixedMark) =
    if otherUnits us = [] then none else some (asciiUnits us).length := by
  have hascii : ∀ b ∈ (asciiUnits us).map UInt16.toUInt8, ¬ b = utfMixedMark := by
    intro b hb hmark
    obtain ⟨u, hu, rfl⟩ := List.mem_map.1 hb
    have hle := le_of_mem_asciiUnits hu
    have hvalue := toNat_toUInt8 hle
    rw [hmark] at hvalue
    change 0xFF = _ at hvalue
    omega
  have hnone : ((asciiUnits us).map UInt16.toUInt8).findIdx? (· = utfMixedMark) = none :=
    List.findIdx?_eq_none_iff.2 fun b hb => decide_eq_false (hascii b hb)
  unfold mixed
  rw [List.findIdx?_append, hnone, Option.none_or, List.length_map]
  split_ifs
  · rfl
  · rw [List.findIdx?_cons, if_pos (decide_eq_true rfl), Option.map_some, Nat.zero_add]

/-- The ASCII characters of a mixed text. -/
theorem take_mixed (us : List UInt16) :
    (mixed us).take (asciiUnits us).length = (asciiUnits us).map UInt16.toUInt8 :=
  List.take_left' (List.length_map _)

/-- What stands behind the mark. -/
theorem drop_mixed (h : otherUnits us ≠ []) :
    (mixed us).drop ((asciiUnits us).length + 1) = bytesOf (otherUnits us) := by
  unfold mixed
  rw [if_neg h, ← List.drop_drop, List.drop_left' (List.length_map _)]
  rfl

theorem length_mixed (us : List UInt16) : (mixed us).length =
    (asciiUnits us).length + (if otherUnits us = [] then 0 else 1 + 2 * (otherUnits us).length) := by
  unfold mixed
  rw [List.length_append, List.length_map]
  split_ifs
  · rfl
  · rw [List.length_cons, length_bytesOf]
    omega

/-- The characters as units again. -/
theorem flatMap_toUInt8 {xs : List UInt16} (h : ∀ u ∈ xs, u.toNat ≤ 0x7F) :
    (xs.map UInt16.toUInt8).flatMap (fun b => toLe 2 b.toNat) = bytesOf xs := by
  rw [bytesOf, List.flatMap_map]
  exact List.flatMap_congr fun u hu => by rw [toNat_toUInt8 (h u hu)]

/-- What a buffer begins with after it has been written to. -/
theorem take_overwrite_zero (buffer xs : List UInt8) : (overwrite buffer 0 xs).take xs.length = xs := by
  rw [overwrite, List.take_zero, List.nil_append, List.take_left' rfl]

theorem take_overwrite_two (buffer xs ys : List UInt8) :
    (overwrite (overwrite buffer 0 xs) xs.length ys).take (xs.length + ys.length) = xs ++ ys := by
  rw [overwrite, take_overwrite_zero, List.take_left' List.length_append]

/-- **The hash of the units is recovered**, whatever the buffer held. -/
theorem hashUtfMixedAsUtf16_mixed (P : Platform) (us : List UInt16) (buffer : List UInt8) :
    (hashUtfMixedAsUtf16 P (mixed us) buffer).1 = hashOf P (bytesOf us) := by
  have hflat := flatMap_toUInt8 fun u hu => @le_of_mem_asciiUnits us u hu
  have hlen := length_bytesOf (asciiUnits us)
  have hlen' := length_bytesOf (otherUnits us)
  unfold hashUtfMixedAsUtf16
  rw [findIdx_mixed]
  by_cases hother : otherUnits us = []
  · have hus : asciiUnits us = us := by
      have h := asciiUnits_append_otherUnits us
      rwa [hother, List.append_nil] at h
    have hlength : (mixed us).length = (asciiUnits us).length := by rw [length_mixed, if_pos hother, Nat.add_zero]
    have htake := take_overwrite_zero (if buffer.length < (asciiUnits us).length * 2 then
      List.replicate ((asciiUnits us).length * 2) 0 else buffer) (bytesOf (asciiUnits us))
    rw [hlen, Nat.mul_comm] at htake
    simp only [if_pos hother, Option.getD_none, Option.isSome_none, Bool.false_eq_true, if_false, hlength, take_mixed,
      hflat, lt_irrefl, Nat.add_zero, htake]
    rw [hus]
  · have hsuffix : (mixed us).length - (asciiUnits us).length - 1 = 2 * (otherUnits us).length := by
      rw [length_mixed, if_neg hother]
      omega
    have hpos := List.length_pos_iff.2 hother
    obtain ⟨buf, hbuf⟩ : ∃ buf, (if buffer.length < (asciiUnits us).length * 2 + 2 * (otherUnits us).length then
      List.replicate ((asciiUnits us).length * 2 + 2 * (otherUnits us).length) 0 else buffer) = buf := ⟨_, rfl⟩
    have htake := take_overwrite_two buf (bytesOf (asciiUnits us)) (bytesOf (otherUnits us))
    rw [hlen, hlen', ← bytesOf_append, asciiUnits_append_otherUnits] at htake
    simp only [if_neg hother, Option.getD_some, Option.isSome_some, if_true, hsuffix, take_mixed, hflat,
      drop_mixed hother, if_pos (show 0 < 2 * (otherUnits us).length by omega), hbuf]
    rw [Nat.mul_comm (asciiUnits us).length 2, htake]

/-- The ASCII characters are their own UTF-8 text. -/
theorem utf16ToUtf8Sw_split (us : List UInt16) : utf16ToUtf8Sw (us.map UInt16.toNat) =
    (asciiUnits us).map UInt16.toUInt8 ++ utf16ToUtf8Sw ((otherUnits us).map UInt16.toNat) := by
  have hascii : ((asciiUnits us).map UInt16.toUInt8) = ((asciiUnits us).map UInt16.toNat).map UInt8.ofNat := by
    rw [List.map_map]
    refine List.map_congr_left fun u hu => UInt8.toNat.inj ?_
    have hle := le_of_mem_asciiUnits hu
    rw [toNat_toUInt8 hle, Function.comp_apply, UInt8.toNat_ofNat']
    omega
  conv_lhs => rw [← asciiUnits_append_otherUnits us, List.map_append]
  rw [hascii]
  refine utf16ToUtf8Sw_ascii (fun x hx => ?_) _
  obtain ⟨u, hu, rfl⟩ := List.mem_map.1 hx
  exact Nat.lt_succ_of_le (le_of_mem_asciiUnits hu)

/-- **The UTF-8 text of the units is recovered**, at every address and whatever the buffer held. -/
theorem utfMixedToUtf8_mixed (address : ℕ) (us : List UInt16) (buffer : List UInt8) {n : ℕ}
    (h : (utf16ToUtf8Sw (us.map UInt16.toNat)).length ≤ n) :
    (utfMixedToUtf8 address (mixed us) n buffer).map Prod.fst = some (utf16ToUtf8Sw (us.map UInt16.toNat)) := by
  rw [utf16ToUtf8Sw_split] at h ⊢
  rw [List.length_append, List.length_map] at h
  unfold utfMixedToUtf8
  rw [findIdx_mixed]
  by_cases hother : otherUnits us = []
  · rw [if_pos hother, hother]
    simp only [Option.map_some, mixed, hother, if_true]
    rfl
  · rw [if_neg hother]
    simp only [if_neg (show ¬ n < (asciiUnits us).length by omega), Option.map_some, take_mixed, drop_mixed hother,
      unitsOf_bytesOf]
    rw [length_mixed, if_neg hother, List.take_of_length_le (by rw [List.length_map]; omega)]

/-- **A UTF-mixed text stands for its units**: their hash and their UTF-8 text are recovered from it, it is no
longer than was estimated, and no other units have it. -/
theorem utfMixed_faithful (P : Platform) (s : List UInt16) : ∃ m,
    (∀ n, 3 * (2 * s.length) / 2 + 1 ≤ n → utf16ToUtfMixed s n = some m) ∧
    (∀ (buffer : List UInt8) (memory : Mem) (data : ℕ), memory.slice data (2 * s.length) = bytesOf s →
      (hashUtfMixedAsUtf16 P m buffer).1 = getHash64 P memory data (2 * s.length)) ∧
    (∀ (address n : ℕ) (buffer : List UInt8), (utf16ToUtf8Sw (s.map UInt16.toNat)).length ≤ n →
      (utfMixedToUtf8 address m n buffer).map Prod.fst = some (utf16ToUtf8Sw (s.map UInt16.toNat))) ∧
    m.length ≤ 3 * (2 * s.length) / 2 + 1 ∧
    ∀ (s' : List UInt16) (n : ℕ), utf16ToUtfMixed s' n = some m → s' = s := by
  refine ⟨mixed s, fun n hn => utf16ToUtfMixed_eq (by omega), fun buffer memory data hdata => ?_,
    fun address n buffer hn => utfMixedToUtf8_mixed address s buffer hn, ?_, fun s' n hs' => ?_⟩
  · rw [hashUtfMixedAsUtf16_mixed, getHash64_eq, hdata]
  · have hle := length_mixed_le s
    split_ifs at hle
    · omega
    · omega
  · exact mixed_inj.1 (eq_mixed hs').symm

end QLog.Utf
