import QLog.Encryption.BigNumber

/-!
# Trimmed numbers

`trim_be` and `fixed_limbs_to_min_be` of `rsa.cpp`, with the indices they read. Both scan for the first
byte that is not zero and copy from there on. When all bytes are zero the scan stops behind the input, and
one byte is copied all the same: the index of the copy and its length do not belong together.
-/

namespace QLog.Encryption.Trimming

/-- Bytes in memory, with what lies behind them. -/
def memory (bytes : List UInt8) (beyond : ℕ → UInt8) (j : ℕ) : UInt8 :=
  bytes.getD j (beyond (j - bytes.length))

/-- The result of a trimming, and the indices that were read for it. -/
structure Trimmed where
  out : List UInt8
  reads : List ℕ
deriving DecidableEq

/-- The scan over leading zeros from `i` on, with so many bytes left: where it stops, and what it reads. -/
def skipZeros (input : ℕ → UInt8) : ℕ → ℕ → ℕ × List ℕ
  | 0, i => (i, [])
  | left + 1, i =>
    if input i = 0 then
      let r := skipZeros input left (i + 1)
      (r.1, i :: r.2)
    else (i, [i])

/-- The scan and the copy. -/
def trim (input : ℕ → UInt8) (len : ℕ) : Trimmed :=
  let scan := skipZeros input len 0
  let i := scan.1
  let n := if i = len then 1 else len - i
  ⟨(List.range' i n).map input, scan.2 ++ List.range' i n⟩

/-- `trim_be`. -/
def trimBe (input : ℕ → UInt8) (inLen : ℕ) : Trimmed := trim input inLen

/-- The limbs that `bn_to_be_bytes` reads. -/
def limbReads (l outLen : ℕ) : List ℕ :=
  (List.range outLen).filterMap fun i => if i >>> 2 < l then some (i >>> 2) else none

/-- `fixed_limbs_to_min_be`, with what lies behind its temporary bytes. -/
def fixedLimbsToMinBe (x : List UInt32) (l : ℕ) (beyond : ℕ → UInt8) : Trimmed :=
  let k := l * 4
  let tmp := bnToBeBytes x l k
  trim (memory tmp beyond) k

/-- What trimming a number of `len` bytes is for. -/
structure Trims (len value : ℕ) (t : Trimmed) : Prop where
  inBounds : ∀ j ∈ t.reads, j < len
  canonical : t.out.head? = some 0 → t.out = [0] ∧ value = 0
  value_eq : ofBe t.out = value

/-! ## The scan -/

theorem memory_eq_getElem {bytes : List UInt8} {j : ℕ} (hj : j < bytes.length) (beyond : ℕ → UInt8) :
    memory bytes beyond j = bytes[j] := List.getD_eq_getElem _ _ hj

/-- The scan passes zeros only, stops at a byte that is none, and reads no index from its end on. -/
theorem skipZeros_spec (input : ℕ → UInt8) (left i : ℕ) :
    i ≤ (skipZeros input left i).1 ∧ (skipZeros input left i).1 ≤ i + left ∧
      (∀ j, i ≤ j → j < (skipZeros input left i).1 → input j = 0) ∧
      ((skipZeros input left i).1 < i + left → input (skipZeros input left i).1 ≠ 0) ∧
      ∀ j ∈ (skipZeros input left i).2, j < i + left := by
  induction left generalizing i with
  | zero =>
    refine ⟨le_refl _, le_refl _, fun j h1 h2 => ?_, fun h => ?_, fun j hj => ?_⟩
    · exact absurd h2 (not_lt.2 h1)
    · exact absurd h (lt_irrefl _)
    · cases hj
  | succ left ih =>
    obtain ⟨h1, h2, hzero, hstop, hreads⟩ := ih (i + 1)
    rw [skipZeros]
    split
    · rename_i h0
      refine ⟨(Nat.le_succ i).trans h1, h2.trans_eq (by omega), fun j hij hj => ?_,
        fun h => hstop (h.trans_eq (by omega)), fun j hj => ?_⟩
      · rcases Nat.eq_or_lt_of_le hij with rfl | hlt
        · exact h0
        · exact hzero j hlt hj
      · rcases List.mem_cons.1 hj with rfl | hj
        · omega
        · have := hreads j hj
          omega
    · rename_i h0
      refine ⟨le_refl _, by omega, fun j hij hj => ?_, fun _ => h0, fun j hj => ?_⟩
      · exact absurd hj (not_lt.2 hij)
      · rw [List.mem_singleton.1 hj]
        omega

/-- The bytes behind the scan. -/
theorem map_range'_memory {bytes : List UInt8} {i : ℕ} (hi : i ≤ bytes.length) (beyond : ℕ → UInt8) :
    (List.range' i (bytes.length - i)).map (memory bytes beyond) = bytes.drop i := by
  apply List.ext_getElem
  · rw [List.length_map, List.length_range', List.length_drop]
  · intro j h1 h2
    rw [List.length_drop] at h2
    rw [List.getElem_map, List.getElem_range', List.getElem_drop, Nat.one_mul,
      memory_eq_getElem (by omega)]

/-! ## Values -/

theorem ofBe_cons (b : UInt8) (bs : List UInt8) : ofBe (b :: bs) = ofBe bs + 256 ^ bs.length * b.toNat := by
  rw [ofBe, List.reverse_cons, Bytes.ofLe_append, List.length_reverse, Bytes.ofLe, Bytes.ofLe,
    Nat.mul_zero, Nat.add_zero]
  rfl

theorem ofBe_eq_zero_iff (bs : List UInt8) : ofBe bs = 0 ↔ ∀ b ∈ bs, b = 0 := by
  induction bs with
  | nil => exact iff_of_true rfl fun b hb => by cases hb
  | cons b bs ih =>
    have hb : b.toNat = 0 ↔ b = 0 := by rw [← UInt8.toNat_inj]; rfl
    rw [ofBe_cons, Nat.add_eq_zero_iff, ih, Nat.mul_eq_zero, List.forall_mem_cons, hb, and_comm,
      or_iff_right (Nat.pow_pos (by decide)).ne']

/-- Leading zeros do not count. -/
theorem ofBe_drop_of_zeros {bs : List UInt8} {i : ℕ} (hi : i ≤ bs.length)
    (hzero : ∀ j, (hj : j < bs.length) → j < i → bs[j] = 0) : ofBe (bs.drop i) = ofBe bs := by
  induction i with
  | zero => rfl
  | succ i ih =>
    have hdrop := List.drop_eq_getElem_cons (show i < bs.length by omega)
    rw [hzero i (by omega) (Nat.lt_succ_self i)] at hdrop
    have hval := ih (by omega) fun j hj hji => hzero j hj (by omega)
    rw [hdrop, ofBe_cons, show (0 : UInt8).toNat = 0 from rfl, Nat.mul_zero, Nat.add_zero] at hval
    exact hval

/-- The scan stops inside the input exactly if it finds a byte that is not zero. -/
theorem skipZeros_lt_iff (bytes : List UInt8) (beyond : ℕ → UInt8) :
    (skipZeros (memory bytes beyond) bytes.length 0).1 < bytes.length ↔ ∃ b ∈ bytes, b ≠ 0 := by
  obtain ⟨-, hle, hzero, hstop, -⟩ := skipZeros_spec (memory bytes beyond) bytes.length 0
  rw [Nat.zero_add] at hle hstop
  constructor
  · intro hlt
    refine ⟨_, List.getElem_mem hlt, ?_⟩
    rw [← memory_eq_getElem hlt beyond]
    exact hstop hlt
  · rintro ⟨b, hb, hne⟩
    obtain ⟨j, hj, rfl⟩ := List.getElem_of_mem hb
    by_contra hge
    refine hne ?_
    rw [← memory_eq_getElem hj beyond]
    exact hzero j (Nat.zero_le _) (by omega)

/-- **A trimming is right exactly for the numbers other than zero.** -/
theorem trims_trim_iff (bytes : List UInt8) (beyond : ℕ → UInt8) :
    Trims bytes.length (ofBe bytes) (trim (memory bytes beyond) bytes.length) ↔ ∃ b ∈ bytes, b ≠ 0 := by
  rw [← skipZeros_lt_iff bytes beyond]
  obtain ⟨-, hle, hzero, hstop, hreads⟩ := skipZeros_spec (memory bytes beyond) bytes.length 0
  rw [Nat.zero_add] at hle hstop hreads
  generalize hscan : skipZeros (memory bytes beyond) bytes.length 0 = scan at *
  have htrim : trim (memory bytes beyond) bytes.length =
      ⟨(List.range' scan.1 (if scan.1 = bytes.length then 1 else bytes.length - scan.1)).map
        (memory bytes beyond),
      scan.2 ++ List.range' scan.1 (if scan.1 = bytes.length then 1 else bytes.length - scan.1)⟩ := by
    rw [trim, hscan]
  constructor
  · rintro ⟨hin, -, -⟩
    by_contra hge
    have hend : scan.1 = bytes.length := by omega
    -- the one byte that is copied lies behind the input
    have := hin bytes.length (by rw [htrim, if_pos hend, hend]; simp)
    exact lt_irrefl _ this
  · intro hlt
    rw [htrim, if_neg hlt.ne, map_range'_memory hle]
    refine ⟨fun j hj => ?_, fun hhead => ?_, ?_⟩
    · rcases List.mem_append.1 hj with hj | hj
      · exact hreads j hj
      · rw [List.mem_range'_1] at hj
        omega
    · rw [List.head?_drop, List.getElem?_eq_getElem hlt, Option.some.injEq] at hhead
      rw [← memory_eq_getElem hlt beyond] at hhead
      exact absurd hhead (hstop hlt)
    · exact ofBe_drop_of_zeros hle fun j hj hji =>
        (memory_eq_getElem hj beyond).symm.trans (hzero j (Nat.zero_le _) hji)

/-- With zeros only, the one byte that is copied is the byte behind the input. -/
theorem out_trim_of_zeros {bytes : List UInt8} (hzero : ∀ b ∈ bytes, b = 0) (beyond : ℕ → UInt8) :
    (trim (memory bytes beyond) bytes.length).out = [beyond 0] := by
  have hend : (skipZeros (memory bytes beyond) bytes.length 0).1 = bytes.length := by
    refine le_antisymm ((skipZeros_spec _ _ _).2.1.trans_eq (Nat.zero_add _)) (not_lt.1 fun hlt => ?_)
    obtain ⟨b, hb, hne⟩ := (skipZeros_lt_iff bytes beyond).1 hlt
    exact hne (hzero b hb)
  simp only [trim, hend]
  simp [memory]

/-- With a byte other than zero, what is copied starts with it. -/
theorem out_trim_of_ne {bytes : List UInt8} (hne : ∃ b ∈ bytes, b ≠ 0) (beyond : ℕ → UInt8) :
    (trim (memory bytes beyond) bytes.length).out = bytes.dropWhile (· == 0) := by
  have hlt := (skipZeros_lt_iff bytes beyond).2 hne
  obtain ⟨-, hle, hzero, hstop, -⟩ := skipZeros_spec (memory bytes beyond) bytes.length 0
  rw [Nat.zero_add] at hle hstop
  have hidx : bytes.findIdx (!· == 0) = (skipZeros (memory bytes beyond) bytes.length 0).1 := by
    refine (List.findIdx_eq hlt).2 ⟨?_, fun j hj => ?_⟩
    · have := hstop hlt
      rw [memory_eq_getElem hlt] at this
      simpa using this
    · have := hzero j (Nat.zero_le _) hj
      rw [memory_eq_getElem (hj.trans hlt)] at this
      simpa using this
  rw [List.dropWhile_eq_drop_findIdx_not, hidx, ← map_range'_memory hle beyond]
  simp only [trim, if_neg hlt.ne]

/-- The parser of keys takes its numbers from this function. -/
theorem trimBe_eq_out (beyond : UInt8) {data : List UInt8} {len : ℕ} (hlen : len ≤ data.length) :
    Encryption.trimBe beyond data len = (trimBe (memory data fun _ => beyond) len).out := by
  have hlength : (data.take len).length = len := List.length_take_of_le hlen
  have hmem : memory data (fun _ => beyond) =
      memory (data.take len) (memory (data.drop len) fun _ => beyond) := by
    funext j
    unfold memory
    rw [hlength]
    by_cases hj : j < len
    · rw [List.getD_eq_getElem _ _ (hj.trans_le hlen), List.getD_eq_getElem _ _ (hlength.symm ▸ hj),
        List.getElem_take]
    · rw [List.getD_eq_default (data.take len) _ (by rw [hlength]; omega), List.getD_eq_getElem?_getD,
        List.getD_eq_getElem?_getD, List.getElem?_drop, show len + (j - len) = j by omega]
  have hout : (trimBe (memory data fun _ => beyond) len).out =
      (trim (memory (data.take len) (memory (data.drop len) fun _ => beyond))
        (data.take len).length).out := by
    rw [hlength, ← hmem]
    rfl
  rw [hout, Encryption.trimBe]
  by_cases hne : ∃ b ∈ data.take len, b ≠ 0
  · rw [out_trim_of_ne hne]
    cases hdrop : (data.take len).dropWhile (· == 0) with
    | nil =>
      obtain ⟨b, hb, hb0⟩ := hne
      rw [List.dropWhile_eq_nil_iff] at hdrop
      exact absurd (by simpa using hdrop b hb) hb0
    | cons b bs => rfl
  · simp only [not_exists, not_and, not_not] at hne
    have hdrop : (data.take len).dropWhile (· == 0) = [] := by
      rw [List.dropWhile_eq_nil_iff]
      intro b hb
      simpa using hne b hb
    rw [out_trim_of_zeros hne, hdrop]
    cases data.drop len <;> rfl

/-! ## The functions -/

theorem limbReads_lt (l outLen : ℕ) : ∀ wi ∈ limbReads l outLen, wi < l := by
  intro wi hwi
  obtain ⟨i, -, hi⟩ := List.mem_filterMap.1 hwi
  split at hi
  · rename_i hlt
    exact Option.some.inj hi ▸ hlt
  · cases hi

theorem bnVal_eq_zero_iff (x : List UInt32) : bnVal x = 0 ↔ ∀ w ∈ x, w = 0 := by
  induction x with
  | nil => exact iff_of_true rfl fun w hw => by cases hw
  | cons w ws ih =>
    have hw : w.toNat = 0 ↔ w = 0 := by rw [← UInt32.toNat_inj]; rfl
    rw [bnVal_cons, Nat.add_eq_zero_iff, Nat.mul_eq_zero, ih, List.forall_mem_cons, hw,
      or_iff_right (by decide)]

/-- **Trimming of limbs**, through all their bytes. -/
theorem trims_fixedLimbsToMinBe_iff (x : List UInt32) (beyond : ℕ → UInt8) :
    Trims (x.length * 4) (bnVal x) (fixedLimbsToMinBe x x.length beyond) ↔ ∃ w ∈ x, w ≠ 0 := by
  obtain ⟨hlen, hval⟩ := bnToBeBytes_spec x (x.length * 4)
  rw [Nat.mod_eq_of_lt ((bnVal_lt x).trans_eq (by congr 1; omega))] at hval
  have htrim := trims_trim_iff (bnToBeBytes x x.length (x.length * 4)) beyond
  rw [hlen, hval] at htrim
  have hbytes := ofBe_eq_zero_iff (bnToBeBytes x x.length (x.length * 4))
  rw [hval, bnVal_eq_zero_iff] at hbytes
  refine htrim.trans ?_
  rw [← not_iff_not]
  simpa only [not_exists, not_and, not_not] using hbytes.symm

/-- **Trimming.** For all bytes and all limbs, whatever lies behind them: the function reads only inside
its input, returns no leading zero but for the number zero, and keeps the value exactly if one byte or one
limb is not zero. The limbs themselves are always read in bounds. -/
theorem trimming_iff (bytes : List UInt8) (x : List UInt32) (beyond : ℕ → UInt8) :
    (Trims bytes.length (ofBe bytes) (trimBe (memory bytes beyond) bytes.length) ↔ ∃ b ∈ bytes, b ≠ 0) ∧
    (∀ wi ∈ limbReads x.length (x.length * 4), wi < x.length) ∧
    (Trims (x.length * 4) (bnVal x) (fixedLimbsToMinBe x x.length beyond) ↔ ∃ w ∈ x, w ≠ 0) :=
  ⟨trims_trim_iff bytes beyond, limbReads_lt _ _, trims_fixedLimbsToMinBe_iff x beyond⟩

/-- Two zero bytes followed by a seven, and one zero limb: the byte behind is read and returned. -/
theorem trimming_zero_reads_beyond :
    trimBe (memory [0, 0] fun _ => 7) 2 = ⟨[7], [0, 1, 2]⟩ ∧
      ¬Trims 2 (ofBe [0, 0]) (trimBe (memory [0, 0] fun _ => 7) 2) ∧
      fixedLimbsToMinBe [0] 1 (fun _ => 7) = ⟨[7], [0, 1, 2, 3, 4]⟩ ∧
      ¬Trims 4 (bnVal [0]) (fixedLimbsToMinBe [0] 1 fun _ => 7) := by
  have hbytes : trimBe (memory [0, 0] fun _ => 7) 2 = ⟨[7], [0, 1, 2]⟩ := by decide
  have hlimbs : fixedLimbsToMinBe [0] 1 (fun _ => 7) = ⟨[7], [0, 1, 2, 3, 4]⟩ := by decide
  refine ⟨hbytes, fun h => ?_, hlimbs, fun h => ?_⟩
  · have := h.inBounds 2 (by rw [hbytes]; decide)
    exact lt_irrefl _ this
  · have := h.inBounds 4 (by rw [hlimbs]; decide)
    exact lt_irrefl _ this

end QLog.Encryption.Trimming
