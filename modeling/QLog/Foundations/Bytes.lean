import QLog.Foundations.ByteMemory

/-!
# Byte strings

Little-endian numbers of a fixed width, parts of a byte string, and writing over a part of it. A part
that begins near the end of the string is short, as a read at the end of a file is.
-/

namespace QLog.Bytes

/-- The little-endian bytes of a number, `k` of them. -/
def toLe : ℕ → ℕ → List UInt8
  | 0, _ => []
  | k + 1, v => UInt8.ofNat v :: toLe k (v / 256)

/-- The number with these little-endian bytes. -/
def ofLe : List UInt8 → ℕ
  | [] => 0
  | b :: bs => b.toNat + 256 * ofLe bs

/-- The `n` bytes at `pos`, or those that there are. -/
def sub (bs : List UInt8) (pos n : ℕ) : List UInt8 := (bs.drop pos).take n

/-- Write `data` over the bytes at `pos`; the string grows when they do not suffice. -/
def overwrite (bs : List UInt8) (pos : ℕ) (data : List UInt8) : List UInt8 :=
  bs.take pos ++ data ++ bs.drop (pos + data.length)

/-! ## Numbers -/

@[simp] theorem length_toLe (k v : ℕ) : (toLe k v).length = k := by
  induction k generalizing v with
  | zero => rfl
  | succ k ih => rw [toLe, List.length_cons, ih]

theorem ofLe_toLe_mod (k v : ℕ) : ofLe (toLe k v) = v % 256 ^ k := by
  induction k generalizing v with
  | zero => rw [pow_zero, Nat.mod_one]; rfl
  | succ k ih => rw [toLe, ofLe, ih, UInt8.toNat_ofNat', pow_succ' 256 k, Nat.mod_mul]

/-- **A number that fits is read back.** -/
theorem ofLe_toLe {k v : ℕ} (h : v < 256 ^ k) : ofLe (toLe k v) = v := by
  rw [ofLe_toLe_mod, Nat.mod_eq_of_lt h]

theorem ofLe_lt (bs : List UInt8) : ofLe bs < 256 ^ bs.length := by
  induction bs with
  | nil => exact Nat.one_pos
  | cons b bs ih =>
    have hb := b.toNat_lt
    rw [ofLe, List.length_cons, pow_succ]
    omega

theorem ofLe_append (bs cs : List UInt8) : ofLe (bs ++ cs) = ofLe bs + 256 ^ bs.length * ofLe cs := by
  induction bs with
  | nil => rw [List.nil_append, ofLe, List.length_nil, pow_zero, one_mul, zero_add]
  | cons b bs ih =>
    rw [List.cons_append, ofLe, ofLe, ih, List.length_cons, pow_succ']
    ring

/-- The bytes are those of the number they stand for. -/
theorem toLe_ofLe (bs : List UInt8) : toLe bs.length (ofLe bs) = bs := by
  induction bs with
  | nil => rfl
  | cons b bs ih =>
    have hb := b.toNat_lt
    have hdiv : (b.toNat + 256 * ofLe bs) / 256 = ofLe bs := by omega
    have hbyte : UInt8.ofNat (b.toNat + 256 * ofLe bs) = b := by
      apply UInt8.toNat.inj
      rw [UInt8.toNat_ofNat']
      omega
    rw [List.length_cons, ofLe, toLe, hdiv, hbyte, ih]

theorem take_toLe {j k : ℕ} (h : j ≤ k) (v : ℕ) : (toLe k v).take j = toLe j v := by
  induction j generalizing k v with
  | zero => rfl
  | succ j ih =>
    obtain ⟨k, rfl⟩ : ∃ n, k = n + 1 := ⟨k - 1, by omega⟩
    rw [toLe, List.take_succ_cons, ih (by omega), toLe]

theorem toLe_inj {k v w : ℕ} : toLe k v = toLe k w ↔ v % 256 ^ k = w % 256 ^ k := by
  refine ⟨fun h => ?_, fun h => ?_⟩
  · rw [← ofLe_toLe_mod, ← ofLe_toLe_mod, h]
  · have hv := toLe_ofLe (toLe k v)
    have hw := toLe_ofLe (toLe k w)
    rw [length_toLe, ofLe_toLe_mod] at hv hw
    rw [← hv, ← hw, h]

/-! ## Parts -/

theorem length_sub (bs : List UInt8) (pos n : ℕ) : (sub bs pos n).length = min n (bs.length - pos) := by
  rw [sub, List.length_take, List.length_drop]

theorem length_sub_of_le {bs : List UInt8} {pos n : ℕ} (h : pos + n ≤ bs.length) :
    (sub bs pos n).length = n := by
  rw [length_sub]
  omega

theorem getElem?_sub {bs : List UInt8} {pos n i : ℕ} (h : i < n) :
    (sub bs pos n)[i]? = bs[pos + i]? := by
  rw [sub, List.getElem?_take_of_lt h, List.getElem?_drop]

theorem sub_append_of_le {bs cs : List UInt8} {pos n : ℕ} (h : pos + n ≤ bs.length) :
    sub (bs ++ cs) pos n = sub bs pos n := by
  rw [sub, sub, List.drop_append_of_le_length (by omega), List.take_append_of_le_length]
  rw [List.length_drop]
  omega

theorem sub_append_right (bs cs : List UInt8) (n : ℕ) : sub (bs ++ cs) bs.length n = cs.take n := by
  rw [sub, List.drop_left]

theorem sub_add (bs : List UInt8) (pos n k : ℕ) :
    sub bs pos (n + k) = sub bs pos n ++ sub bs (pos + n) k := by
  rw [sub, List.take_add, List.drop_drop]
  rfl

theorem sub_min (bs : List UInt8) (pos n : ℕ) : sub bs pos (min n (bs.length - pos)) = sub bs pos n := by
  rw [sub, sub, ← List.length_drop, ← List.take_eq_take_min]

theorem drop_sub (bs : List UInt8) (pos n k : ℕ) : (sub bs pos n).drop k = sub bs (pos + k) (n - k) := by
  rw [sub, List.drop_take, List.drop_drop]
  rfl

theorem take_sub (bs : List UInt8) (pos n k : ℕ) : (sub bs pos n).take k = sub bs pos (min k n) := by
  rw [sub, List.take_take]
  rfl

/-! ## Writing -/

theorem length_overwrite {bs data : List UInt8} {pos : ℕ} (h : pos ≤ bs.length) :
    (overwrite bs pos data).length = max bs.length (pos + data.length) := by
  simp only [overwrite, List.length_append, List.length_take, List.length_drop]
  omega

theorem overwrite_end (bs data : List UInt8) : overwrite bs bs.length data = bs ++ data := by
  simp [overwrite]

theorem getElem?_overwrite_of_not_mem {bs data : List UInt8} {pos i : ℕ} (hpos : pos ≤ bs.length)
    (h : i < pos ∨ pos + data.length ≤ i) : (overwrite bs pos data)[i]? = bs[i]? := by
  have hlen : (bs.take pos).length = pos := by
    rw [List.length_take]
    omega
  rcases h with h | h
  · rw [overwrite, List.append_assoc, List.getElem?_append_left (by omega), List.getElem?_take_of_lt h]
  · rw [overwrite, List.getElem?_append_right (by rw [List.length_append]; omega),
      List.getElem?_drop, List.length_append, hlen]
    congr 1
    omega

theorem sub_overwrite_of_disjoint {bs data : List UInt8} {pos a n : ℕ} (hpos : pos ≤ bs.length)
    (h : a + n ≤ pos ∨ pos + data.length ≤ a) : sub (overwrite bs pos data) a n = sub bs a n := by
  refine List.ext_getElem? fun i => ?_
  rcases lt_or_ge i n with hi | hi
  · rw [getElem?_sub hi, getElem?_sub hi]
    exact getElem?_overwrite_of_not_mem hpos (by omega)
  · rw [List.getElem?_eq_none (by rw [length_sub]; omega),
      List.getElem?_eq_none (by rw [length_sub]; omega)]

theorem sub_overwrite_self {bs : List UInt8} (data : List UInt8) {pos : ℕ} (hpos : pos ≤ bs.length) :
    sub (overwrite bs pos data) pos data.length = data := by
  have hlen : (bs.take pos).length = pos := by
    rw [List.length_take]
    omega
  have := sub_append_right (bs.take pos) (data ++ bs.drop (pos + data.length)) data.length
  rw [hlen, ← List.append_assoc, List.take_left] at this
  exact this

theorem overwrite_append {bs cs data : List UInt8} {pos : ℕ} (h : pos + data.length ≤ bs.length) :
    overwrite (bs ++ cs) pos data = overwrite bs pos data ++ cs := by
  rw [overwrite, overwrite, List.take_append_of_le_length (by omega),
    List.drop_append_of_le_length h, List.append_assoc, List.append_assoc]
  simp only [List.append_assoc]

/-- Writing changes nothing exactly when the bytes are those that stand there. -/
theorem overwrite_eq_self_iff {bs data : List UInt8} {pos : ℕ} (h : pos + data.length ≤ bs.length) :
    overwrite bs pos data = bs ↔ sub bs pos data.length = data := by
  refine ⟨fun heq => ?_, fun heq => ?_⟩
  · have := sub_overwrite_self data (show pos ≤ bs.length by omega)
    rwa [heq] at this
  · have hsplit := List.take_append_drop pos bs
    have hrest := List.take_append_drop data.length (bs.drop pos)
    rw [List.drop_drop] at hrest
    change sub bs pos data.length ++ _ = _ at hrest
    rw [heq] at hrest
    rw [overwrite, List.append_assoc, hrest, hsplit]

/-! ## Memory -/

/-- The number in the `n` bytes at `pos`, which are all there. -/
def readLe (bs : List UInt8) (pos n : ℕ) : Option ℕ :=
  if pos + n ≤ bs.length then some (ofLe (sub bs pos n)) else none

theorem store_eq_write (m : Mem) (a k v : ℕ) : m.store a k v = m.write a (toLe k v) := by
  induction k generalizing m a v with
  | zero =>
    funext x
    rw [toLe, Mem.write_nil, Mem.store_apply_of_not_mem _ _ (by omega)]
  | succ k ih =>
    have hcons : m.write a (toLe (k + 1) v) = (m.write a [UInt8.ofNat v]).write (a + 1)
        (toLe k (v / 256)) := Mem.write_append m a [UInt8.ofNat v] _ |>.symm
    rw [hcons, ← ih]
    funext x
    rcases Nat.lt_trichotomy x a with hx | rfl | hx
    · rw [Mem.store_apply_of_lt _ _ hx, Mem.store_apply_of_lt _ _ (by omega),
        Mem.write_apply_of_lt _ _ hx]
    · rw [Mem.store_apply_of_mem _ _ le_rfl (by omega), Mem.store_apply_of_lt _ _ (by omega),
        Nat.sub_self, pow_zero, Nat.div_one, Mem.write, if_pos le_rfl, Nat.sub_self]
      rfl
    · rcases Nat.lt_or_ge x (a + 1 + k) with hx' | hx'
      · rw [Mem.store_apply_of_mem _ _ (by omega) (by omega),
          Mem.store_apply_of_mem _ _ (by omega) hx', Nat.div_div_eq_div_mul, ← pow_succ',
          show x - (a + 1) + 1 = x - a by omega]
      · rw [Mem.store_apply_of_le _ _ (by omega), Mem.store_apply_of_le _ _ hx',
          Mem.write_apply_of_not_mem m (.inr (by rw [List.length_singleton]; omega))]

theorem load_eq_ofLe (m : Mem) (a k : ℕ) : m.load a k = ofLe (m.slice a k) := by
  induction k generalizing a with
  | zero => rfl
  | succ k ih =>
    rw [Nat.add_comm k 1, Mem.slice_add, Nat.add_comm 1 k, Mem.load, ih]
    rfl

theorem getElem?_slice (m : Mem) {a n i : ℕ} (h : i < n) : (m.slice a n)[i]? = some (m (a + i)) := by
  rw [Mem.slice, List.getElem?_map, List.getElem?_range h]
  rfl

theorem sub_slice (m : Mem) {a n i k : ℕ} (h : i + k ≤ n) :
    sub (m.slice a n) i k = m.slice (a + i) k := by
  obtain ⟨r, rfl⟩ := Nat.exists_eq_add_of_le h
  rw [Mem.slice_add, Mem.slice_add, sub, List.append_assoc,
    List.drop_left' (Mem.length_slice m a i), List.take_left' (Mem.length_slice m (a + i) k)]

theorem readLe_slice (m : Mem) {a n i k : ℕ} (h : i + k ≤ n) :
    readLe (m.slice a n) i k = some (m.load (a + i) k) := by
  rw [readLe, if_pos (by rw [Mem.length_slice]; exact h), sub_slice m h, load_eq_ofLe]

end QLog.Bytes
