import QLog.Foundations.ByteMemory

/-!
# The Vernam cipher

A model of `vernam_encrypt_32bytes_aligned`, which XORs a buffer with a key stream in place. The
routines differ in the width of a block: they go byte by byte up to an aligned address, then block by
block as long as the key is contiguous, and byte by byte at the end. Key sizes are powers of two; the
masks of the source are remainders here.

The blocks only meet the key if the buffer and the position in the key agree modulo the width:
otherwise a rest of the key shorter than a block keeps the loop from going on. `vernamEncrypt_eq` says
that with this alignment every routine is the plain XOR with the key stream.
-/

namespace QLog.Encryption

/-- XOR of the `n` bytes at `p` with a stream. -/
def xorAt (m : Mem) (p n : ℕ) (stream : ℕ → UInt8) : Mem := fun x =>
  if p ≤ x ∧ x < p + n then m x ^^^ stream (x - p) else m x

/-- A routine: the bytes of a block, and whether the loop up to the first block wraps the position in
the key. -/
structure Lanes where
  block : ℕ
  maskHead : Bool

/-- `vernam_encrypt_scalar`. -/
def Lanes.scalar : Lanes := ⟨8, true⟩

/-- `vernam_encrypt_sse`. -/
def Lanes.sse : Lanes := ⟨16, true⟩

/-- `vernam_encrypt_avx2`. -/
def Lanes.avx2 : Lanes := ⟨32, false⟩

/-- `vernam_encrypt_neon`. -/
def Lanes.neon : Lanes := ⟨16, false⟩

/-- The routines that the dispatcher chooses from. -/
def Lanes.IsRoutine (v : Lanes) : Prop := v = .scalar ∨ v = .sse ∨ v = .avx2 ∨ v = .neon

/-- A loop over `n` single bytes; `next` moves the position in the key. -/
def byteLoop (key : Mem) (next : ℕ → ℕ) : ℕ → Mem → ℕ → ℕ → Mem × ℕ
  | 0, m, _, pos => (m, pos)
  | n + 1, m, p, pos => byteLoop key next n (m.poke p (m p ^^^ key pos)) (p + 1) (next pos)

/-- The loop over blocks, for so many turns: the memory, the address, the bytes that remain and the
position in the key. -/
def blockLoop (key : Mem) (keySize block : ℕ) : ℕ → Mem → ℕ → ℕ → ℕ → Option (Mem × ℕ × ℕ × ℕ)
  | 0, _, _, _, _ => none
  | fuel + 1, m, p, remaining, pos =>
    if block ≤ remaining then
      let contiguousKeyLen := (keySize + 2 ^ 64 - pos) % 2 ^ 64
      let chunkLen := min contiguousKeyLen remaining
      let loopLen := chunkLen / block * block
      let pos' := pos + loopLen
      blockLoop key keySize block fuel (xorAt m p loopLen fun i => key (pos + i)) (p + loopLen)
        (remaining - loopLen) (if pos' = keySize then 0 else pos')
    else some (m, p, remaining, pos)

/-- `vernam_encrypt_32bytes_aligned` of the `len` bytes at `p`. -/
def vernamEncrypt (v : Lanes) (m : Mem) (p len : ℕ) (key : Mem) (keySize keyStreamOffset : ℕ) :
    Option Mem :=
  let headLen := min ((v.block - p % v.block) % v.block) len
  let masked := fun i => (i + 1) % keySize
  let head := byteLoop key (if v.maskHead then masked else (· + 1)) headLen m p
    (keyStreamOffset % keySize)
  (blockLoop key keySize v.block (2 * len + 2) head.1 (p + headLen) (len - headLen) head.2).map
    fun (m, p, remaining, pos) => (byteLoop key masked remaining m p (pos % keySize)).1

/-! ## The plain XOR -/

section Xor

variable {m : Mem} {p n : ℕ} {s s' : ℕ → UInt8}

@[simp] theorem xorAt_zero (m : Mem) (p : ℕ) (s : ℕ → UInt8) : xorAt m p 0 s = m := by
  funext x
  exact if_neg (by omega)

theorem xorAt_congr (h : ∀ i < n, s i = s' i) : xorAt m p n s = xorAt m p n s' := by
  funext x
  unfold xorAt
  split
  · rw [h _ (by omega)]
  · rfl

theorem xorAt_add (m : Mem) (p n k : ℕ) (s : ℕ → UInt8) :
    xorAt (xorAt m p n s) (p + n) k (fun i => s (n + i)) = xorAt m p (n + k) s := by
  funext x
  unfold xorAt
  by_cases h1 : p ≤ x ∧ x < p + n
  · rw [if_neg (by omega), if_pos h1, if_pos (by omega)]
  · by_cases h2 : p + n ≤ x ∧ x < p + n + k
    · rw [if_pos h2, if_neg h1, if_pos (by omega)]
      change m x ^^^ s (n + (x - (p + n))) = _
      rw [show n + (x - (p + n)) = x - p by omega]
    · rw [if_neg h2, if_neg h1, if_neg (by omega)]

theorem xorAt_one (m : Mem) (p : ℕ) (s : ℕ → UInt8) : xorAt m p 1 s = m.poke p (m p ^^^ s 0) := by
  funext x
  unfold xorAt Mem.poke
  by_cases h : x = p
  · subst h
    rw [if_pos (by omega), if_pos rfl, Nat.sub_self]
  · rw [if_neg (by omega), if_neg h]

/-- The bytes that a XOR leaves alone. -/
theorem slice_xorAt_of_le {a k : ℕ} (h : a + k ≤ p ∨ p + n ≤ a) :
    (xorAt m p n s).slice a k = m.slice a k :=
  Mem.slice_congr fun _ _ _ => if_neg (by omega)

theorem slice_xorAt (m : Mem) (p n : ℕ) (s : ℕ → UInt8) :
    (xorAt m p n s).slice p n = (List.range n).map fun i => m (p + i) ^^^ s i := by
  refine List.map_congr_left fun i hi => ?_
  rw [List.mem_range] at hi
  rw [xorAt, if_pos (by omega), Nat.add_sub_cancel_left]

end Xor

/-! ## The loops -/

theorem byteLoop_eq (key : Mem) (next : ℕ → ℕ) (n : ℕ) (m : Mem) (p pos : ℕ) :
    byteLoop key next n m p pos = (xorAt m p n fun i => key (next^[i] pos), next^[n] pos) := by
  induction n generalizing m p pos with
  | zero => rw [byteLoop, xorAt_zero, Function.iterate_zero_apply]
  | succ n ih =>
    rw [byteLoop, ih, Function.iterate_succ_apply, Nat.add_comm n 1, ← xorAt_add, xorAt_one]
    congr 1
    refine xorAt_congr fun i _ => ?_
    rw [Nat.add_comm 1 i, Function.iterate_succ_apply]

theorem iterate_mask {keySize pos : ℕ} (h : pos < keySize) (n : ℕ) :
    (fun i => (i + 1) % keySize)^[n] pos = (pos + n) % keySize := by
  induction n with
  | zero => rw [Function.iterate_zero_apply, Nat.add_zero, Nat.mod_eq_of_lt h]
  | succ n ih =>
    rw [Function.iterate_succ_apply', ih]
    rw [Nat.mod_add_mod, Nat.add_assoc]

theorem iterate_succ (pos n : ℕ) : (· + 1)^[n] pos = pos + n := by
  induction n with
  | zero => rfl
  | succ n ih => rw [Function.iterate_succ_apply', ih, Nat.add_assoc]

/-- **The loop over blocks**: with the key at a border of a block it encrypts all blocks and leaves less
than one. A turn at the end of the key only goes back to its start. -/
theorem blockLoop_eq {key : Mem} {keySize block : ℕ} (hblock : 0 < block) (hdvd : block ∣ keySize)
    (hkey : 0 < keySize) (hlt : keySize < 2 ^ 64) {fuel : ℕ} {m : Mem} {p remaining pos : ℕ} (hpos : pos ≤ keySize)
    (halign : block ≤ remaining → block ∣ pos)
    (hfuel : 2 * remaining + (if pos = keySize then 1 else 0) < fuel) :
    ∃ n pos', blockLoop key keySize block fuel m p remaining pos =
        some (xorAt m p n fun i => key ((pos + i) % keySize), p + n, remaining - n, pos') ∧
      n ≤ remaining ∧ pos' % keySize = (pos + n) % keySize := by
  induction fuel generalizing m p remaining pos with
  | zero => omega
  | succ fuel ih =>
    rw [blockLoop]
    by_cases hrem : block ≤ remaining
    swap
    · rw [if_neg hrem]
      exact ⟨0, pos, by rw [xorAt_zero, Nat.add_zero, Nat.sub_zero], Nat.zero_le _, rfl⟩
    rw [if_pos hrem]
    have hcontig : (keySize + 2 ^ 64 - pos) % 2 ^ 64 = keySize - pos := by omega
    simp only [hcontig]
    obtain ⟨k, hk⟩ := halign hrem
    obtain ⟨c, hc⟩ := hdvd
    have hloop : block ∣ min (keySize - pos) remaining / block * block := Dvd.intro_left _ rfl
    have hle := Nat.div_mul_le_self (min (keySize - pos) remaining) block
    -- the turn moves on unless the key is at its end
    have hmove : pos ≠ keySize → 0 < min (keySize - pos) remaining / block * block := by
      intro hne
      have hone : block ≤ keySize - pos := by
        have hkc : k + 1 ≤ c := by
          by_contra hck
          have := Nat.mul_le_mul_left block (show c ≤ k by omega)
          omega
        have := Nat.mul_le_mul_left block hkc
        rw [Nat.mul_add, Nat.mul_one] at this
        omega
      have := Nat.div_pos (show block ≤ min (keySize - pos) remaining by omega) hblock
      exact Nat.mul_pos this hblock
    generalize min (keySize - pos) remaining / block * block = l at *
    have hnext : (if pos + l = keySize then 0 else pos + l) ≤ keySize := by
      split <;> omega
    have halign' : block ∣ if pos + l = keySize then 0 else pos + l := by
      split
      · exact Dvd.intro _ (Nat.mul_zero _)
      · exact (Nat.dvd_add_right ⟨k, hk⟩).2 hloop
    have hfuel' : 2 * (remaining - l) +
        (if (if pos + l = keySize then 0 else pos + l) = keySize then 1 else 0) < fuel := by
      rw [if_neg (by split <;> omega)]
      rcases eq_or_ne pos keySize with heq | hne
      · rw [if_pos heq] at hfuel
        omega
      · have := hmove hne
        omega
    obtain ⟨n, pos', hrun, hn, hmod⟩ := ih (m := xorAt m p l fun i => key (pos + i)) (p := p + l)
      hnext (fun _ => halign') hfuel'
    have hwrap : ∀ i, ((if pos + l = keySize then 0 else pos + l) + i) % keySize =
        (pos + (l + i)) % keySize := by
      intro i
      split
      · rename_i hend
        rw [← Nat.add_assoc, hend, Nat.zero_add, Nat.add_mod_left]
      · rw [Nat.add_assoc]
    refine ⟨l + n, pos', ?_, by omega, ?_⟩
    · rw [hrun, ← xorAt_add, Nat.add_assoc, Nat.sub_sub]
      congr 2
      have hfirst : (xorAt m p l fun i => key (pos + i)) =
          xorAt m p l fun i => key ((pos + i) % keySize) := by
        refine xorAt_congr fun i hi => ?_
        rw [Nat.mod_eq_of_lt (by omega)]
      rw [hfirst]
      exact xorAt_congr fun i _ => by rw [hwrap]
    · rw [hmod, hwrap]

/-- The head loop: the positions in the key are those of the stream, also without a mask, since the key
ends at a border of a block. -/
theorem headLoop_eq {key : Mem} {keySize off p : ℕ} {v : Lanes} (hblock : 0 < v.block)
    (hdvd : v.block ∣ keySize) (hkey : 0 < keySize) (halign : p % v.block = off % v.block) {n : ℕ}
    (hn : n ≤ (v.block - p % v.block) % v.block) (m : Mem) :
    ∃ pos, byteLoop key (if v.maskHead then fun i => (i + 1) % keySize else (· + 1)) n m p
        (off % keySize) = (xorAt m p n fun i => key ((off + i) % keySize), pos) ∧
      pos ≤ keySize ∧ pos % keySize = (off + n) % keySize ∧
      (n = (v.block - p % v.block) % v.block → v.block ∣ pos) := by
  have hlt : off % keySize < keySize := Nat.mod_lt _ hkey
  have hmod : off % keySize % v.block = p % v.block := by rw [Nat.mod_mod_of_dvd _ hdvd, halign]
  -- up to the border of the block the key does not end
  have hle : off % keySize + (v.block - p % v.block) % v.block ≤ keySize := by
    obtain ⟨c, hc⟩ := hdvd
    have hdiv := Nat.div_add_mod (off % keySize) v.block
    have hp := Nat.mod_lt p hblock
    rcases Nat.eq_zero_or_pos (p % v.block) with h0 | h0
    · rw [h0, Nat.sub_zero, Nat.mod_self]
      omega
    · rw [Nat.mod_eq_of_lt (show v.block - p % v.block < v.block by omega)]
      have hq : off % keySize / v.block + 1 ≤ c := by
        have hqc : v.block * (off % keySize / v.block) < v.block * c := by omega
        exact Nat.lt_of_mul_lt_mul_left hqc
      have := Nat.mul_le_mul_left v.block hq
      rw [Nat.mul_add, Nat.mul_one] at this
      omega
  have hborder : n = (v.block - p % v.block) % v.block → v.block ∣ off % keySize + n := by
    intro hfull
    rw [Nat.dvd_iff_mod_eq_zero, Nat.add_mod, hmod, hfull, Nat.mod_mod, ← Nat.add_mod]
    have hp := Nat.mod_lt p hblock
    have hdiv := Nat.div_add_mod p v.block
    have hup : p + (v.block - p % v.block) = v.block * (p / v.block + 1) := by
      rw [Nat.mul_add, Nat.mul_one]
      omega
    rw [hup, Nat.mul_mod_right]
  rw [byteLoop_eq]
  split
  · rw [iterate_mask hlt, Nat.mod_add_mod]
    refine ⟨_, ?_, (Nat.mod_lt _ hkey).le, Nat.mod_mod _ _, fun hfull => ?_⟩
    · congr 1
      exact xorAt_congr fun i _ => by rw [iterate_mask hlt, Nat.mod_add_mod]
    · rw [← Nat.mod_add_mod]
      exact (Nat.dvd_mod_iff hdvd).2 (hborder hfull)
  · rw [iterate_succ]
    refine ⟨_, ?_, by omega, Nat.mod_add_mod _ _ _, hborder⟩
    congr 1
    refine xorAt_congr fun i hi => ?_
    rw [iterate_succ, ← Nat.mod_add_mod off keySize i,
      Nat.mod_eq_of_lt (show off % keySize + i < keySize by omega)]

/-- **Every routine is the XOR with the key stream** when the address and the offset in the stream agree
modulo the width of a block. -/
theorem vernamEncrypt_eq {v : Lanes} {key : Mem} {keySize off p : ℕ} (hblock : 0 < v.block)
    (hdvd : v.block ∣ keySize) (hkey : 0 < keySize) (hlt : keySize < 2 ^ 64)
    (halign : p % v.block = off % v.block) (m : Mem) (len : ℕ) :
    vernamEncrypt v m p len key keySize off =
      some (xorAt m p len fun i => key ((off + i) % keySize)) := by
  unfold vernamEncrypt
  simp only
  obtain ⟨pos, hhead, hpos, hmod, hborder⟩ := headLoop_eq hblock hdvd hkey halign
    (Nat.min_le_left ((v.block - p % v.block) % v.block) len) m
  rw [hhead]
  have hrest : v.block ≤ len - min ((v.block - p % v.block) % v.block) len → v.block ∣ pos :=
    fun hrem => hborder (by omega)
  have hhead_le := Nat.min_le_right ((v.block - p % v.block) % v.block) len
  generalize min ((v.block - p % v.block) % v.block) len = h at *
  have hfuel : 2 * (len - h) + (if pos = keySize then 1 else 0) < 2 * len + 2 := by
    split <;> omega
  obtain ⟨n, pos', hrun, hn, hmod'⟩ := blockLoop_eq hblock hdvd hkey hlt
    (m := xorAt m p h fun i => key ((off + i) % keySize)) (p := p + h) hpos hrest hfuel
  simp only
  rw [hrun, Option.map_some, byteLoop_eq]
  -- the three parts are consecutive parts of one stream
  have hsecond : ∀ i, (pos + i) % keySize = (off + (h + i)) % keySize := by
    intro i
    rw [← Nat.mod_add_mod, hmod, Nat.mod_add_mod, Nat.add_assoc]
  have hthird : ∀ i, (fun i => (i + 1) % keySize)^[i] (pos' % keySize) =
      (off + (h + n + i)) % keySize := by
    intro i
    rw [iterate_mask (Nat.mod_lt _ hkey), Nat.mod_add_mod, ← Nat.mod_add_mod, hmod',
      Nat.mod_add_mod, Nat.add_assoc, hsecond, Nat.add_assoc h]
  simp only [hsecond, hthird]
  rw [xorAt_add m p h n fun i => key ((off + i) % keySize), Nat.add_assoc,
    xorAt_add m p (h + n) (len - h - n) fun i => key ((off + i) % keySize)]
  congr 2
  omega

end QLog.Encryption
