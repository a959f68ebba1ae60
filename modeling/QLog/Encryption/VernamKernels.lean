import QLog.Foundations.While
import QLog.Encryption.Vernam

/-!
# The kernels of the Vernam cipher

The routines of `vernam.cpp` one by one, with their masks, their early returns and their inner loops
over blocks, and the dispatcher that picks one of them. A block is a register of 8, 16 or 32 bytes that
is loaded, XORed and stored. `Kernel.encrypt_eq` reduces every kernel to `vernamEncrypt`, so that all of
them are the plain XOR with the key stream, and `vernam_variants_agree` is what follows: two runs cancel,
and a buffer may be cut into pieces of any lengths.
-/

namespace QLog.Encryption

/-- `x & ~mask` of 64-bit words. -/
def andNot (x mask : ℕ) : ℕ := x &&& (2 ^ 64 - 1 - mask)

/-- Load the block at `p` and the block of the key, XOR them and store the result. -/
def xorBlock (key : Mem) (block : ℕ) (m : Mem) (p k : ℕ) : Mem :=
  m.store p block (m.load p block ^^^ key.load k block)

/-- The inner loop over `count` blocks. -/
def xorBlocks (key : Mem) (block : ℕ) : ℕ → Mem → ℕ → ℕ → Mem
  | 0, m, _, _ => m
  | count + 1, m, p, k => xorBlocks key block count (xorBlock key block m p k) (p + block) (k + block)

/-- The variables of a kernel, with the memory it works on. -/
structure Progress where
  mem : Mem
  p : ℕ
  remaining : ℕ
  currentKeyPos : ℕ

/-- How the kernels differ: the binary logarithm of the bytes of a block, whether the loop up to the
first block wraps the position in the key, whether the kernel returns as soon as nothing remains, and
whether it leaves the rest to a loop over bytes when less than a block remains. -/
structure Kernel where
  shift : ℕ
  maskHead : Bool
  returnsOnEmpty : Bool
  returnsOnShort : Bool

namespace Kernel

/-- `vernam_encrypt_scalar`. -/
def scalar : Kernel := ⟨3, true, true, false⟩

/-- `vernam_encrypt_sse`. -/
def sse : Kernel := ⟨4, true, false, true⟩

/-- `vernam_encrypt_avx2`. -/
def avx2 : Kernel := ⟨5, false, false, true⟩

/-- `vernam_encrypt_neon`. -/
def neon : Kernel := ⟨4, false, false, false⟩

variable (k : Kernel)

/-- A turn of the loop over blocks: as many blocks as the key is contiguous for. -/
def turn (key : Mem) (keySizePow2 : ℕ) (s : Progress) : Progress :=
  let contiguousKeyLen := (keySizePow2 + 2 ^ 64 - s.currentKeyPos) % 2 ^ 64
  let chunkLen := if contiguousKeyLen < s.remaining then contiguousKeyLen else s.remaining
  let loopLen := andNot chunkLen (2 ^ k.shift - 1)
  let currentKeyPos := s.currentKeyPos + loopLen
  { mem := xorBlocks key (2 ^ k.shift) (loopLen >>> k.shift) s.mem s.p s.currentKeyPos
    p := s.p + loopLen
    remaining := s.remaining - loopLen
    currentKeyPos := if currentKeyPos = keySizePow2 then 0 else currentKeyPos }

/-- The kernel on the `len` bytes at `buf`; no result if the loop over blocks goes on for too long. -/
def encrypt (m : Mem) (buf len : ℕ) (key : Mem) (keySizePow2 keyStreamOffset : ℕ) : Option Mem :=
  if k.returnsOnEmpty ∧ len = 0 then some m
  else
    let keyMask := keySizePow2 - 1
    let alignMask := 2 ^ k.shift - 1
    let masked := fun pos => (pos + 1) &&& keyMask
    let alignDiff := (2 ^ k.shift - (buf &&& alignMask)) &&& alignMask
    let headLen := if alignDiff < len then alignDiff else len
    let head := byteLoop key (if k.maskHead then masked else (· + 1)) headLen m buf
      (keyStreamOffset &&& keyMask)
    let tail := fun s : Progress =>
      (byteLoop key masked s.remaining s.mem s.p (s.currentKeyPos &&& keyMask)).1
    let s : Progress := ⟨head.1, buf + headLen, len - headLen, head.2⟩
    if k.returnsOnEmpty ∧ s.remaining = 0 then some s.mem
    else if k.returnsOnShort ∧ s.remaining < 2 ^ k.shift then some (tail s)
    else
      (whileLoop (fun s : Progress => 2 ^ k.shift ≤ s.remaining)
        (fun s => some (k.turn key keySizePow2 s)) (2 * len + 2) s).map tail

/-- The width and the head loop of a kernel. -/
def lanes : Lanes := ⟨2 ^ k.shift, k.maskHead⟩

end Kernel

/-- `hardware_acceleration_mode_`. -/
inductive AccelerationMode
  | autoDetect
  | scalar
  | sse
  | avx2

/-- The processors that the dispatcher is compiled for. -/
inductive Architecture
  | x86
  | armNeon
  | arm
  | other

/-- The kernel that `vernam_encrypt_32bytes_aligned` picks; the mode only counts in a build for unit
tests. -/
def dispatch (arch : Architecture) (unitTest : Bool) (mode : AccelerationMode) (avx2Support : Bool) :
    Kernel :=
  match arch, unitTest, mode with
  | .x86, true, .scalar => .scalar
  | .x86, true, .sse => .sse
  | .x86, _, _ => if avx2Support then .avx2 else .sse
  | .armNeon, true, .scalar => .scalar
  | .armNeon, _, _ => .neon
  | .arm, _, _ => .scalar
  | .other, _, _ => .scalar

/-- `vernam_encrypt_32bytes_aligned`. -/
def vernamEncrypt32bytesAligned (arch : Architecture) (unitTest : Bool) (mode : AccelerationMode)
    (avx2Support : Bool) (m : Mem) (buf len : ℕ) (key : Mem) (keySizePow2 keyStreamOffset : ℕ) :
    Option Mem :=
  (dispatch arch unitTest mode avx2Support).encrypt m buf len key keySizePow2 keyStreamOffset

/-- What a kernel and the dispatcher are: the memory, the address and the length of the buffer, the key,
its size and the offset in the stream. -/
abbrev Routine := Mem → ℕ → ℕ → Mem → ℕ → ℕ → Option Mem

/-- The kernels and the dispatcher of any build. -/
inductive IsVariant : Routine → Prop
  | scalar : IsVariant Kernel.scalar.encrypt
  | sse : IsVariant Kernel.sse.encrypt
  | avx2 : IsVariant Kernel.avx2.encrypt
  | neon : IsVariant Kernel.neon.encrypt
  | dispatcher (arch : Architecture) (unitTest : Bool) (mode : AccelerationMode) (avx2Support : Bool) :
      IsVariant (vernamEncrypt32bytesAligned arch unitTest mode avx2Support)

/-- Encrypt consecutive pieces of a buffer, the offset in the stream advanced by each. -/
def encryptPieces (f : Routine) (key : Mem) (keySizePow2 : ℕ) :
    List ℕ → Mem → ℕ → ℕ → Option Mem
  | [], m, _, _ => some m
  | n :: ns, m, buf, off =>
    (f m buf n key keySizePow2 off).bind fun m' =>
      encryptPieces f key keySizePow2 ns m' (buf + n) (off + n)

/-! ## Masks and blocks -/

theorem andNot_eq {x s : ℕ} (hx : x < 2 ^ 64) (hs : s ≤ 64) :
    andNot x (2 ^ s - 1) = x / 2 ^ s * 2 ^ s := by
  have hle : 2 ^ s ≤ 2 ^ 64 := Nat.pow_le_pow_right (by decide) hs
  have hmask : 2 ^ 64 - 1 - (2 ^ s - 1) = (2 ^ (64 - s) - 1) * 2 ^ s := by
    rw [Nat.sub_mul, Nat.one_mul, ← Nat.pow_add, Nat.sub_add_cancel hs]
    have := Nat.two_pow_pos s
    omega
  rw [andNot, hmask]
  refine Nat.eq_of_testBit_eq fun i => ?_
  rw [Nat.testBit_and, Nat.testBit_mul_two_pow, Nat.testBit_mul_two_pow, Nat.testBit_two_pow_sub_one,
    Nat.testBit_div_two_pow]
  by_cases hi : s ≤ i
  · rw [Nat.sub_add_cancel hi]
    by_cases hi' : i < 64
    · simp [hi, show i - s < 64 - s by omega]
    · have : x.testBit i = false :=
        Nat.testBit_lt_two_pow (hx.trans_le (Nat.pow_le_pow_right (by decide) (by omega)))
      simp [this]
  · simp [hi]

/-- Byte `j` of the number in a block. -/
theorem load_div_mod (m : Mem) (a : ℕ) {j n : ℕ} (h : j < n) :
    m.load a n / 256 ^ j % 256 = (m (a + j)).toNat := by
  induction j generalizing a n with
  | zero =>
    obtain ⟨n, rfl⟩ := Nat.exists_eq_add_of_lt h
    have := (m a).toNat_lt
    rw [Nat.zero_add, Mem.load, Nat.pow_zero, Nat.div_one, Nat.add_mul_mod_self_left, Nat.add_zero]
    exact Nat.mod_eq_of_lt this
  | succ j ih =>
    obtain ⟨n, rfl⟩ : ∃ n', n = n' + 1 := ⟨n - 1, by omega⟩
    have hlow : ((m a).toNat + 256 * m.load (a + 1) n) / 256 = m.load (a + 1) n := by
      have := (m a).toNat_lt
      omega
    rw [Mem.load, Nat.pow_succ', ← Nat.div_div_eq_div_mul, hlow, ih (a + 1) (by omega)]
    congr 2
    omega

/-- The XOR of two registers is the XOR of their bytes. -/
theorem xorBlock_eq (key : Mem) (block : ℕ) (m : Mem) (p k : ℕ) :
    xorBlock key block m p k = xorAt m p block fun i => key (k + i) := by
  funext x
  unfold xorBlock xorAt
  by_cases hx : p ≤ x ∧ x < p + block
  · rw [Mem.store_apply_of_mem _ _ hx.1 hx.2, if_pos hx]
    apply UInt8.toNat.inj
    rw [UInt8.toNat_ofNat', UInt8.toNat_xor, show (256 : ℕ) = 2 ^ 8 from rfl, ← Nat.pow_mul,
      ← Nat.shiftRight_eq_div_pow, Nat.shiftRight_xor_distrib, Nat.xor_mod_two_pow,
      Nat.shiftRight_eq_div_pow, Nat.shiftRight_eq_div_pow, Nat.pow_mul, show (2 : ℕ) ^ 8 = 256 from rfl,
      load_div_mod m p (by omega), load_div_mod key k (by omega), Nat.add_sub_cancel' hx.1]
  · rw [Mem.store_apply_of_not_mem _ _ (by omega), if_neg hx]

theorem xorBlocks_eq (key : Mem) (block count : ℕ) (m : Mem) (p k : ℕ) :
    xorBlocks key block count m p k = xorAt m p (count * block) fun i => key (k + i) := by
  induction count generalizing m p k with
  | zero => rw [xorBlocks, Nat.zero_mul, xorAt_zero]
  | succ count ih =>
    have hnext : (fun i => key (k + block + i)) = fun i => key (k + (block + i)) := by
      funext i
      rw [Nat.add_assoc]
    rw [xorBlocks, ih, xorBlock_eq, hnext, xorAt_add m p block (count * block) fun i => key (k + i),
      Nat.succ_mul, Nat.add_comm]

/-! ## Every kernel is the plain XOR -/

section Kernels

variable {k : Kernel} {key : Mem} {keySize : ℕ}

/-- The loop of a kernel is the loop over blocks. -/
theorem Kernel.whileLoop_turn (hshift : k.shift ≤ 64) (fuel : ℕ) (s : Progress) :
    (whileLoop (fun s : Progress => 2 ^ k.shift ≤ s.remaining) (fun s => some (k.turn key keySize s))
        fuel s).map (fun s => (s.mem, s.p, s.remaining, s.currentKeyPos)) =
      blockLoop key keySize (2 ^ k.shift) fuel s.mem s.p s.remaining s.currentKeyPos := by
  induction fuel generalizing s with
  | zero => rfl
  | succ fuel ih =>
    rw [whileLoop, blockLoop]
    by_cases hrem : 2 ^ k.shift ≤ s.remaining
    · have hmin : (if (keySize + 2 ^ 64 - s.currentKeyPos) % 2 ^ 64 < s.remaining then
          (keySize + 2 ^ 64 - s.currentKeyPos) % 2 ^ 64 else s.remaining) =
          min ((keySize + 2 ^ 64 - s.currentKeyPos) % 2 ^ 64) s.remaining := by
        split <;> omega
      have hlt : min ((keySize + 2 ^ 64 - s.currentKeyPos) % 2 ^ 64) s.remaining < 2 ^ 64 :=
        (Nat.min_le_left _ _).trans_lt (Nat.mod_lt _ (by decide))
      rw [if_pos hrem, if_pos hrem, Option.bind_some, ih]
      simp only [turn, hmin, andNot_eq hlt hshift, xorBlocks_eq, Nat.shiftRight_eq_div_pow]
      rw [Nat.mul_div_cancel _ (Nat.two_pow_pos _)]
    · rw [if_neg hrem, if_neg hrem]
      rfl

/-- A kernel with its masks and early returns is the routine of its width: a return only skips loops
that have nothing to do. -/
theorem Kernel.encrypt_eq (hshift : k.shift ≤ 64) {a : ℕ} (m : Mem) (buf len off : ℕ) :
    k.encrypt m buf len key (2 ^ a) off = vernamEncrypt k.lanes m buf len key (2 ^ a) off := by
  have hmin : ∀ x : ℕ, (if x < len then x else len) = min x len := fun x => by split <;> omega
  change _ = vernamEncrypt ⟨2 ^ k.shift, k.maskHead⟩ m buf len key (2 ^ a) off
  unfold encrypt vernamEncrypt
  simp only [Nat.and_two_pow_sub_one_eq_mod, hmin]
  by_cases hempty : k.returnsOnEmpty ∧ len = 0
  · rw [if_pos hempty]
    obtain ⟨-, rfl⟩ := hempty
    rw [ Nat.min_zero, Nat.zero_sub, blockLoop, if_neg (Nat.two_pow_pos _).not_ge]
    rfl
  rw [if_neg hempty]
  generalize hhead : byteLoop key _ _ m buf (off % 2 ^ a) = head
  generalize hrest : len - min ((2 ^ k.shift - buf % 2 ^ k.shift) % 2 ^ k.shift) len = rest
  generalize buf + min ((2 ^ k.shift - buf % 2 ^ k.shift) % 2 ^ k.shift) len = p
  by_cases hnone : k.returnsOnEmpty ∧ rest = 0
  · rw [if_pos hnone]
    obtain ⟨-, rfl⟩ := hnone
    rw [blockLoop, if_neg (Nat.two_pow_pos _).not_ge]
    rfl
  rw [if_neg hnone]
  by_cases hshort : k.returnsOnShort ∧ rest < 2 ^ k.shift
  · rw [if_pos hshort, blockLoop, if_neg hshort.2.not_ge]
    rfl
  have hloop := @Kernel.whileLoop_turn k key (2 ^ a) hshift (2 * len + 2) ⟨head.1, p, rest, head.2⟩
  rw [if_neg hshort, ← hloop, Option.map_map]
  rfl

/-- **Every variant is the XOR with the key stream**, for a key of a power of two of bytes that fills
whole registers. -/
theorem IsVariant.encrypt_eq {f : Routine} (hf : IsVariant f) {a : ℕ}
    (hdvd : 32 ∣ 2 ^ a) (ha : a < 64) {buf off : ℕ} (halign : buf % 32 = off % 32) (m : Mem) (len : ℕ) :
    f m buf len key (2 ^ a) off = some (xorAt m buf len fun i => key ((off + i) % 2 ^ a)) := by
  have hkernel : ∀ k : Kernel, k.shift ≤ 5 → k.encrypt m buf len key (2 ^ a) off =
      some (xorAt m buf len fun i => key ((off + i) % 2 ^ a)) := by
    intro k hk
    have hblock : 2 ^ k.shift ∣ 32 := Nat.pow_dvd_pow 2 hk
    rw [Kernel.encrypt_eq (by omega)]
    refine vernamEncrypt_eq (Nat.two_pow_pos _) (hblock.trans hdvd) (Nat.two_pow_pos _)
      (Nat.pow_lt_pow_right (by decide) ha) ?_ m len
    change buf % 2 ^ k.shift = off % 2 ^ k.shift
    rw [← Nat.mod_mod_of_dvd buf hblock, halign, Nat.mod_mod_of_dvd off hblock]
  cases hf with
  | scalar => exact hkernel _ (by decide)
  | sse => exact hkernel _ (by decide)
  | avx2 => exact hkernel _ (by decide)
  | neon => exact hkernel _ (by decide)
  | dispatcher arch unitTest mode avx2Support =>
    refine hkernel _ ?_
    cases arch <;> cases unitTest <;> cases mode <;> cases avx2Support <;> decide

end Kernels

/-! ## What follows for the cipher -/

theorem xorAt_xorAt (m : Mem) (p n : ℕ) (s : ℕ → UInt8) : xorAt (xorAt m p n s) p n s = m := by
  funext x
  unfold xorAt
  split
  · rw [UInt8.xor_assoc, UInt8.xor_self, UInt8.xor_zero]
  · rfl

/-- Pieces that follow each other are one buffer. -/
theorem IsVariant.encryptPieces_eq {f : Routine} (hf : IsVariant f)
    {key : Mem} {a : ℕ} (hdvd : 32 ∣ 2 ^ a) (ha : a < 64) (lens : List ℕ) {buf off : ℕ}
    (halign : buf % 32 = off % 32) (m : Mem) :
    encryptPieces f key (2 ^ a) lens m buf off =
      some (xorAt m buf lens.sum fun i => key ((off + i) % 2 ^ a)) := by
  induction lens generalizing buf off m with
  | nil => rw [encryptPieces, List.sum_nil, xorAt_zero]
  | cons n ns ih =>
    have hrest : (fun i => key ((off + n + i) % 2 ^ a)) = fun i => key ((off + (n + i)) % 2 ^ a) := by
      funext i
      rw [Nat.add_assoc]
    rw [encryptPieces, hf.encrypt_eq hdvd ha halign, Option.bind_some, ih (by omega), hrest,
      xorAt_add m buf n ns.sum fun i => key ((off + i) % 2 ^ a), List.sum_cons]

/-- **The kernels agree.** For a key whose size is a power of two and a multiple of 32, and a buffer
whose address agrees with the offset in the stream modulo 32, every kernel and the dispatcher of every
build finish and XOR byte `i` of the buffer with byte `(off + i) % keySize` of the key, and leave the
other bytes alone. Two runs with the same offset cancel, and cutting the buffer into pieces, with the
offset advanced, changes nothing. -/
theorem vernam_variants_agree {keySize : ℕ} (hpow : ∃ a, keySize = 2 ^ a) (hdvd : 32 ∣ keySize)
    (hsize : keySize < 2 ^ 64) {buf off : ℕ} (halign : buf % 32 = off % 32) (m key : Mem) (len : ℕ) :
    ∃ m', (∀ i < len, m' (buf + i) = m (buf + i) ^^^ key ((off + i) % keySize)) ∧
      (∀ x, x < buf ∨ buf + len ≤ x → m' x = m x) ∧
      ∀ f, IsVariant f → f m buf len key keySize off = some m' ∧
        f m' buf len key keySize off = some m ∧
        ∀ lens : List ℕ, lens.sum = len → encryptPieces f key keySize lens m buf off = some m' := by
  obtain ⟨a, rfl⟩ := hpow
  have ha : a < 64 := (Nat.pow_lt_pow_iff_right (by decide)).1 hsize
  refine ⟨xorAt m buf len fun i => key ((off + i) % 2 ^ a), fun i hi => ?_, fun x hx => ?_,
    fun f hf => ⟨hf.encrypt_eq hdvd ha halign m len, ?_, fun lens hlens => ?_⟩⟩
  · rw [xorAt, if_pos (by omega), Nat.add_sub_cancel_left]
  · rw [xorAt, if_neg (by omega)]
  · rw [hf.encrypt_eq hdvd ha halign, xorAt_xorAt]
  · rw [hf.encryptPieces_eq hdvd ha lens halign, hlens]

theorem vernam_variants_agree_32 :
    ∃ m' : Mem, (∀ i < 70, m' (5 + i) = (fun _ => 0 : Mem) (5 + i) ^^^ (fun _ => 7 : Mem) ((37 + i) % 32)) ∧
      (∀ x, x < 5 ∨ 5 + 70 ≤ x → m' x = (fun _ => 0 : Mem) x) ∧
      ∀ f, IsVariant f → f (fun _ => 0) 5 70 (fun _ => 7) 32 37 = some m' ∧
        f m' 5 70 (fun _ => 7) 32 37 = some (fun _ => 0) ∧
        ∀ lens : List ℕ, lens.sum = 70 →
          encryptPieces f (fun _ => 7) 32 lens (fun _ => 0) 5 37 = some m' :=
  @vernam_variants_agree 32 ⟨5, rfl⟩ (Nat.dvd_refl 32) (by decide) 5 37 (by decide) (fun _ => 0)
    (fun _ => 7) 70

end QLog.Encryption
