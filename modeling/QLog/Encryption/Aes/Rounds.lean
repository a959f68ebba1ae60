import Mathlib

/-!
# The rounds of AES

The state of `aes_core` is a block of four columns, byte `r` of column `c` being `state[4 * c + r]`. The
steps of a round and of its inverse are modelled with the tables and the field multiplication of
`aes.cpp`. The tables are inverse to each other byte by byte; the column maps are linear over XOR, so that
they are inverse because they are on columns with one byte (`Word.eq_self_of_linear`).
-/

namespace QLog.Encryption.Aes

/-- A column of the state, or a word of the round keys. -/
@[ext] structure Word where
  b0 : UInt8
  b1 : UInt8
  b2 : UInt8
  b3 : UInt8
  deriving DecidableEq

/-- The state. -/
@[ext] structure Block where
  c0 : Word
  c1 : Word
  c2 : Word
  c3 : Word
  deriving DecidableEq

/-- The same function on all bytes. -/
def Word.map (f : UInt8 → UInt8) (w : Word) : Word := ⟨f w.b0, f w.b1, f w.b2, f w.b3⟩

/-- The XOR of two words. -/
def Word.xor (v w : Word) : Word := ⟨v.b0 ^^^ w.b0, v.b1 ^^^ w.b1, v.b2 ^^^ w.b2, v.b3 ^^^ w.b3⟩

/-- The same function on all columns. -/
def Block.map (f : Word → Word) (s : Block) : Block := ⟨f s.c0, f s.c1, f s.c2, f s.c3⟩

/-- `xor_block`. -/
def xorBlock (a b : Block) : Block := ⟨a.c0.xor b.c0, a.c1.xor b.c1, a.c2.xor b.c2, a.c3.xor b.c3⟩

/-- `add_round_key`. -/
def addRoundKey (state roundKey : Block) : Block := xorBlock state roundKey

/-- `xtime`. -/
def xtime (x : UInt8) : UInt8 := (x <<< 1) ^^^ if x &&& 0x80 ≠ 0 then 0x1b else 0x00

/-- The loop of `gf_mul`, with the product in `p`. -/
def gfMulLoop : ℕ → UInt8 → UInt8 → UInt8 → UInt8
  | 0, p, _, _ => p
  | i + 1, p, a, b =>
    let p := if b &&& 1 ≠ 0 then p ^^^ a else p
    let hi := a &&& 0x80
    let a := a <<< 1
    let a := if hi ≠ 0 then a ^^^ 0x1b else a
    gfMulLoop i p a (b >>> 1)

/-- `gf_mul`. -/
def gfMul (a b : UInt8) : UInt8 := gfMulLoop 8 0 a b

/-- `rcon`. -/
def rcon : ℕ → UInt8
  | 0 => 0
  | 1 => 1
  | i + 2 => xtime (rcon (i + 1))

/-- `sbox_`. -/
def sboxTable : List UInt8 :=
  [0x63, 0x7c, 0x77, 0x7b, 0xf2, 0x6b, 0x6f, 0xc5, 0x30, 0x01, 0x67, 0x2b, 0xfe, 0xd7, 0xab, 0x76,
    0xca, 0x82, 0xc9, 0x7d, 0xfa, 0x59, 0x47, 0xf0, 0xad, 0xd4, 0xa2, 0xaf, 0x9c, 0xa4, 0x72, 0xc0,
    0xb7, 0xfd, 0x93, 0x26, 0x36, 0x3f, 0xf7, 0xcc, 0x34, 0xa5, 0xe5, 0xf1, 0x71, 0xd8, 0x31, 0x15,
    0x04, 0xc7, 0x23, 0xc3, 0x18, 0x96, 0x05, 0x9a, 0x07, 0x12, 0x80, 0xe2, 0xeb, 0x27, 0xb2, 0x75,
    0x09, 0x83, 0x2c, 0x1a, 0x1b, 0x6e, 0x5a, 0xa0, 0x52, 0x3b, 0xd6, 0xb3, 0x29, 0xe3, 0x2f, 0x84,
    0x53, 0xd1, 0x00, 0xed, 0x20, 0xfc, 0xb1, 0x5b, 0x6a, 0xcb, 0xbe, 0x39, 0x4a, 0x4c, 0x58, 0xcf,
    0xd0, 0xef, 0xaa, 0xfb, 0x43, 0x4d, 0x33, 0x85, 0x45, 0xf9, 0x02, 0x7f, 0x50, 0x3c, 0x9f, 0xa8,
    0x51, 0xa3, 0x40, 0x8f, 0x92, 0x9d, 0x38, 0xf5, 0xbc, 0xb6, 0xda, 0x21, 0x10, 0xff, 0xf3, 0xd2,
    0xcd, 0x0c, 0x13, 0xec, 0x5f, 0x97, 0x44, 0x17, 0xc4, 0xa7, 0x7e, 0x3d, 0x64, 0x5d, 0x19, 0x73,
    0x60, 0x81, 0x4f, 0xdc, 0x22, 0x2a, 0x90, 0x88, 0x46, 0xee, 0xb8, 0x14, 0xde, 0x5e, 0x0b, 0xdb,
    0xe0, 0x32, 0x3a, 0x0a, 0x49, 0x06, 0x24, 0x5c, 0xc2, 0xd3, 0xac, 0x62, 0x91, 0x95, 0xe4, 0x79,
    0xe7, 0xc8, 0x37, 0x6d, 0x8d, 0xd5, 0x4e, 0xa9, 0x6c, 0x56, 0xf4, 0xea, 0x65, 0x7a, 0xae, 0x08,
    0xba, 0x78, 0x25, 0x2e, 0x1c, 0xa6, 0xb4, 0xc6, 0xe8, 0xdd, 0x74, 0x1f, 0x4b, 0xbd, 0x8b, 0x8a,
    0x70, 0x3e, 0xb5, 0x66, 0x48, 0x03, 0xf6, 0x0e, 0x61, 0x35, 0x57, 0xb9, 0x86, 0xc1, 0x1d, 0x9e,
    0xe1, 0xf8, 0x98, 0x11, 0x69, 0xd9, 0x8e, 0x94, 0x9b, 0x1e, 0x87, 0xe9, 0xce, 0x55, 0x28, 0xdf,
    0x8c, 0xa1, 0x89, 0x0d, 0xbf, 0xe6, 0x42, 0x68, 0x41, 0x99, 0x2d, 0x0f, 0xb0, 0x54, 0xbb, 0x16]

/-- `rsbox_`. -/
def rsboxTable : List UInt8 :=
  [0x52, 0x09, 0x6a, 0xd5, 0x30, 0x36, 0xa5, 0x38, 0xbf, 0x40, 0xa3, 0x9e, 0x81, 0xf3, 0xd7, 0xfb,
    0x7c, 0xe3, 0x39, 0x82, 0x9b, 0x2f, 0xff, 0x87, 0x34, 0x8e, 0x43, 0x44, 0xc4, 0xde, 0xe9, 0xcb,
    0x54, 0x7b, 0x94, 0x32, 0xa6, 0xc2, 0x23, 0x3d, 0xee, 0x4c, 0x95, 0x0b, 0x42, 0xfa, 0xc3, 0x4e,
    0x08, 0x2e, 0xa1, 0x66, 0x28, 0xd9, 0x24, 0xb2, 0x76, 0x5b, 0xa2, 0x49, 0x6d, 0x8b, 0xd1, 0x25,
    0x72, 0xf8, 0xf6, 0x64, 0x86, 0x68, 0x98, 0x16, 0xd4, 0xa4, 0x5c, 0xcc, 0x5d, 0x65, 0xb6, 0x92,
    0x6c, 0x70, 0x48, 0x50, 0xfd, 0xed, 0xb9, 0xda, 0x5e, 0x15, 0x46, 0x57, 0xa7, 0x8d, 0x9d, 0x84,
    0x90, 0xd8, 0xab, 0x00, 0x8c, 0xbc, 0xd3, 0x0a, 0xf7, 0xe4, 0x58, 0x05, 0xb8, 0xb3, 0x45, 0x06,
    0xd0, 0x2c, 0x1e, 0x8f, 0xca, 0x3f, 0x0f, 0x02, 0xc1, 0xaf, 0xbd, 0x03, 0x01, 0x13, 0x8a, 0x6b,
    0x3a, 0x91, 0x11, 0x41, 0x4f, 0x67, 0xdc, 0xea, 0x97, 0xf2, 0xcf, 0xce, 0xf0, 0xb4, 0xe6, 0x73,
    0x96, 0xac, 0x74, 0x22, 0xe7, 0xad, 0x35, 0x85, 0xe2, 0xf9, 0x37, 0xe8, 0x1c, 0x75, 0xdf, 0x6e,
    0x47, 0xf1, 0x1a, 0x71, 0x1d, 0x29, 0xc5, 0x89, 0x6f, 0xb7, 0x62, 0x0e, 0xaa, 0x18, 0xbe, 0x1b,
    0xfc, 0x56, 0x3e, 0x4b, 0xc6, 0xd2, 0x79, 0x20, 0x9a, 0xdb, 0xc0, 0xfe, 0x78, 0xcd, 0x5a, 0xf4,
    0x1f, 0xdd, 0xa8, 0x33, 0x88, 0x07, 0xc7, 0x31, 0xb1, 0x12, 0x10, 0x59, 0x27, 0x80, 0xec, 0x5f,
    0x60, 0x51, 0x7f, 0xa9, 0x19, 0xb5, 0x4a, 0x0d, 0x2d, 0xe5, 0x7a, 0x9f, 0x93, 0xc9, 0x9c, 0xef,
    0xa0, 0xe0, 0x3b, 0x4d, 0xae, 0x2a, 0xf5, 0xb0, 0xc8, 0xeb, 0xbb, 0x3c, 0x83, 0x53, 0x99, 0x61,
    0x17, 0x2b, 0x04, 0x7e, 0xba, 0x77, 0xd6, 0x26, 0xe1, 0x69, 0x14, 0x63, 0x55, 0x21, 0x0c, 0x7d]

def sbox (x : UInt8) : UInt8 := sboxTable.getD x.toNat 0

def rsbox (x : UInt8) : UInt8 := rsboxTable.getD x.toNat 0

/-- `sub_bytes`. -/
def subBytes (s : Block) : Block := s.map (Word.map sbox)

/-- `inv_sub_bytes`. -/
def invSubBytes (s : Block) : Block := s.map (Word.map rsbox)

/-- `shift_rows`. -/
def shiftRows (s : Block) : Block :=
  ⟨⟨s.c0.b0, s.c1.b1, s.c2.b2, s.c3.b3⟩, ⟨s.c1.b0, s.c2.b1, s.c3.b2, s.c0.b3⟩,
    ⟨s.c2.b0, s.c3.b1, s.c0.b2, s.c1.b3⟩, ⟨s.c3.b0, s.c0.b1, s.c1.b2, s.c2.b3⟩⟩

/-- `inv_shift_rows`. -/
def invShiftRows (s : Block) : Block :=
  ⟨⟨s.c0.b0, s.c3.b1, s.c2.b2, s.c1.b3⟩, ⟨s.c1.b0, s.c0.b1, s.c3.b2, s.c2.b3⟩,
    ⟨s.c2.b0, s.c1.b1, s.c0.b2, s.c3.b3⟩, ⟨s.c3.b0, s.c2.b1, s.c1.b2, s.c0.b3⟩⟩

/-- A turn of `mix_columns`. -/
def mixColumn (w : Word) : Word :=
  let t := w.b0 ^^^ w.b1 ^^^ w.b2 ^^^ w.b3
  let u := w.b0
  ⟨w.b0 ^^^ (t ^^^ xtime (w.b0 ^^^ w.b1)), w.b1 ^^^ (t ^^^ xtime (w.b1 ^^^ w.b2)),
    w.b2 ^^^ (t ^^^ xtime (w.b2 ^^^ w.b3)), w.b3 ^^^ (t ^^^ xtime (w.b3 ^^^ u))⟩

/-- `mix_columns`. -/
def mixColumns (s : Block) : Block := s.map mixColumn

/-- A turn of `inv_mix_columns`. -/
def invMixColumn (w : Word) : Word :=
  ⟨gfMul w.b0 0x0e ^^^ gfMul w.b1 0x0b ^^^ gfMul w.b2 0x0d ^^^ gfMul w.b3 0x09,
    gfMul w.b0 0x09 ^^^ gfMul w.b1 0x0e ^^^ gfMul w.b2 0x0b ^^^ gfMul w.b3 0x0d,
    gfMul w.b0 0x0d ^^^ gfMul w.b1 0x09 ^^^ gfMul w.b2 0x0e ^^^ gfMul w.b3 0x0b,
    gfMul w.b0 0x0b ^^^ gfMul w.b1 0x0d ^^^ gfMul w.b2 0x09 ^^^ gfMul w.b3 0x0e⟩

/-- `inv_mix_columns`. -/
def invMixColumns (s : Block) : Block := s.map invMixColumn

/-! ## The tables -/

/-- A property of bytes, byte by byte. -/
theorem forall_byte {P : UInt8 → Prop} (h : ∀ n < 256, P (UInt8.ofNat n)) (x : UInt8) : P x := by
  have := h x.toNat x.toNat_lt
  rwa [UInt8.ofNat_toNat] at this

theorem rsbox_sbox : ∀ x : UInt8, rsbox (sbox x) = x := forall_byte (by decide +kernel)

theorem sbox_rsbox : ∀ x : UInt8, sbox (rsbox x) = x := forall_byte (by decide +kernel)

@[simp] theorem invSubBytes_subBytes (s : Block) : invSubBytes (subBytes s) = s := by
  simp [invSubBytes, subBytes, Block.map, Word.map, rsbox_sbox]

@[simp] theorem subBytes_invSubBytes (s : Block) : subBytes (invSubBytes s) = s := by
  simp [invSubBytes, subBytes, Block.map, Word.map, sbox_rsbox]

@[simp] theorem invShiftRows_shiftRows (s : Block) : invShiftRows (shiftRows s) = s := rfl

@[simp] theorem shiftRows_invShiftRows (s : Block) : shiftRows (invShiftRows s) = s := rfl

theorem Word.xor_xor (v w : Word) : (v.xor w).xor w = v := by
  simp [xor]

@[simp] theorem xorBlock_xorBlock (a b : Block) : xorBlock (xorBlock a b) b = a := by
  simp [xorBlock, Word.xor_xor]

/-! ## The column maps -/

theorem and_xor (x y c : UInt8) : (x ^^^ y) &&& c = (x &&& c) ^^^ (y &&& c) := by
  apply UInt8.toBitVec_inj.1
  refine BitVec.eq_of_getLsbD_eq fun i _ => ?_
  simp only [UInt8.toBitVec_and, UInt8.toBitVec_xor, BitVec.getLsbD_and, BitVec.getLsbD_xor]
  exact Bool.and_xor_distrib_right _ _ _

theorem xor_xor_xor_cancel (x y c : UInt8) : (x ^^^ c) ^^^ (y ^^^ c) = x ^^^ y := by
  rw [UInt8.xor_assoc, UInt8.xor_comm y c, ← UInt8.xor_assoc c c, UInt8.xor_self, UInt8.zero_xor]

/-- The multiplication by the generator is linear. -/
theorem xtime_xor (x y : UInt8) : xtime (x ^^^ y) = xtime x ^^^ xtime y := by
  have hbit : ∀ z : UInt8, z &&& 0x80 = 0 ∨ z &&& 0x80 = 0x80 := forall_byte (by decide +kernel)
  unfold xtime
  rw [UInt8.shiftLeft_xor, and_xor]
  rcases hbit x with hx | hx <;> rcases hbit y with hy | hy <;> rw [hx, hy]
  · simp
  · simp [UInt8.xor_assoc]
  · simp only [UInt8.xor_zero, ne_eq, not_true_eq_false, if_false]
    ac_rfl
  · exact (UInt8.xor_zero).trans (xor_xor_xor_cancel _ _ _).symm

theorem gfMulLoop_succ (i : ℕ) (p a b : UInt8) :
    gfMulLoop (i + 1) p a b = gfMulLoop i (if b &&& 1 ≠ 0 then p ^^^ a else p) (xtime a) (b >>> 1) := by
  have hxtime : (if a &&& 0x80 ≠ 0 then a <<< 1 ^^^ 0x1b else a <<< 1) = xtime a := by
    unfold xtime
    split
    · rfl
    · rw [UInt8.xor_zero]
  rw [gfMulLoop, hxtime]

theorem gfMulLoop_xor (i : ℕ) (p q a c b : UInt8) :
    gfMulLoop i (p ^^^ q) (a ^^^ c) b = gfMulLoop i p a b ^^^ gfMulLoop i q c b := by
  induction i generalizing p q a c b with
  | zero => rfl
  | succ i ih =>
    rw [gfMulLoop_succ, gfMulLoop_succ, gfMulLoop_succ, xtime_xor, ← ih]
    split
    · congr 1
      ac_rfl
    · rfl

/-- A product is linear in its first factor. -/
theorem gfMul_xor (a c b : UInt8) : gfMul (a ^^^ c) b = gfMul a b ^^^ gfMul c b :=
  gfMulLoop_xor 8 0 0 a c b

/-- The products with the constants of the inverse map. -/
theorem gfMul_constants (x : UInt8) : gfMul x 0x09 = x ^^^ xtime (xtime (xtime x)) ∧
    gfMul x 0x0b = x ^^^ xtime x ^^^ xtime (xtime (xtime x)) ∧
    gfMul x 0x0d = x ^^^ xtime (xtime x) ^^^ xtime (xtime (xtime x)) ∧
    gfMul x 0x0e = xtime x ^^^ xtime (xtime x) ^^^ xtime (xtime (xtime x)) := by
  simp +decide only [gfMul, gfMulLoop_succ, show ∀ p a b, gfMulLoop 0 p a b = p from fun _ _ _ => rfl,
    if_true, if_false, UInt8.zero_xor, and_self]

theorem mixColumn_xor (v w : Word) : mixColumn (v.xor w) = (mixColumn v).xor (mixColumn w) := by
  simp only [mixColumn, Word.xor, xtime_xor, Word.mk.injEq]
  refine ⟨?_, ?_, ?_, ?_⟩ <;> ac_rfl

theorem invMixColumn_xor (v w : Word) :
    invMixColumn (v.xor w) = (invMixColumn v).xor (invMixColumn w) := by
  simp only [invMixColumn, Word.xor, gfMul_xor, Word.mk.injEq]
  refine ⟨?_, ?_, ?_, ?_⟩ <;> ac_rfl

/-- A linear map that keeps the columns with one byte keeps all columns. -/
theorem Word.eq_self_of_linear {f : Word → Word} (hf : ∀ v w, f (v.xor w) = (f v).xor (f w))
    (h : ∀ x : UInt8, f ⟨x, 0, 0, 0⟩ = ⟨x, 0, 0, 0⟩ ∧ f ⟨0, x, 0, 0⟩ = ⟨0, x, 0, 0⟩ ∧
      f ⟨0, 0, x, 0⟩ = ⟨0, 0, x, 0⟩ ∧ f ⟨0, 0, 0, x⟩ = ⟨0, 0, 0, x⟩) (w : Word) : f w = w := by
  have hsum : w = (((⟨w.b0, 0, 0, 0⟩ : Word).xor ⟨0, w.b1, 0, 0⟩).xor ⟨0, 0, w.b2, 0⟩).xor
      ⟨0, 0, 0, w.b3⟩ := by
    simp [Word.xor]
  rw [hsum, hf, hf, hf, (h _).1, (h _).2.1, (h _).2.2.1, (h _).2.2.2]

theorem xor_left_comm (x y z : UInt8) : x ^^^ (y ^^^ z) = y ^^^ (x ^^^ z) := by
  rw [← UInt8.xor_assoc, UInt8.xor_comm x y, UInt8.xor_assoc]

theorem xtime_zero : xtime 0 = 0 := by decide

theorem gfMul_zero (b : UInt8) : gfMul 0 b = 0 := by
  have := gfMul_xor 0 0 b
  rwa [UInt8.xor_self, UInt8.xor_self] at this

/-- The powers of the generator cancel. -/
theorem invMixColumn_mixColumn (w : Word) : invMixColumn (mixColumn w) = w := by
  refine Word.eq_self_of_linear (f := fun w => invMixColumn (mixColumn w))
    (fun v w => by rw [mixColumn_xor, invMixColumn_xor]) (fun x => ?_) w
  obtain ⟨h9, hb, hd, he⟩ := gfMul_constants x
  obtain ⟨h9', hb', hd', he'⟩ := gfMul_constants (xtime x)
  simp [invMixColumn, mixColumn, gfMul_xor, xtime_zero, h9, hb, hd, he, h9', hb', hd', he',
    UInt8.xor_assoc, UInt8.xor_comm, xor_left_comm]

theorem mixColumn_invMixColumn (w : Word) : mixColumn (invMixColumn w) = w := by
  refine Word.eq_self_of_linear (f := fun w => mixColumn (invMixColumn w))
    (fun v w => by rw [invMixColumn_xor, mixColumn_xor]) (fun x => ?_) w
  obtain ⟨h9, hb, hd, he⟩ := gfMul_constants x
  simp [invMixColumn, mixColumn, xtime_xor, gfMul_zero, h9, hb, hd, he, UInt8.xor_assoc, UInt8.xor_comm,
    xor_left_comm]

@[simp] theorem invMixColumns_mixColumns (s : Block) : invMixColumns (mixColumns s) = s := by
  simp [invMixColumns, mixColumns, Block.map, invMixColumn_mixColumn]

@[simp] theorem mixColumns_invMixColumns (s : Block) : mixColumns (invMixColumns s) = s := by
  simp [invMixColumns, mixColumns, Block.map, mixColumn_invMixColumn]

end QLog.Encryption.Aes
