import Mathlib

/-!
# Byte-addressed memory

A memory is a function from addresses to bytes. `load m a k` is the little-endian number in the
`k` bytes at `a`, `store m a k v` overwrites these bytes by `v`, and `slice m a n` is the list of
the `n` bytes at `a`. The frame lemmas (`load_congr`, `slice_congr`) say that each of them looks
at its own bytes only.
-/

namespace QLog

/-- A byte-addressed memory. -/
abbrev Mem := ℕ → UInt8

namespace Mem

/-- The little-endian number in the `k` bytes at `a`. -/
def load (m : Mem) (a : ℕ) : ℕ → ℕ
  | 0 => 0
  | k + 1 => (m a).toNat + 256 * load m (a + 1) k

/-- Overwrite the `k` bytes at `a` by the little-endian digits of `v`. -/
def store (m : Mem) (a k v : ℕ) : Mem := fun x =>
  if a ≤ x ∧ x < a + k then UInt8.ofNat (v / 256 ^ (x - a)) else m x

/-- Overwrite one byte. -/
def poke (m : Mem) (a : ℕ) (b : UInt8) : Mem := fun x => if x = a then b else m x

/-- The `n` bytes at `a`. -/
def slice (m : Mem) (a n : ℕ) : List UInt8 := (List.range n).map fun i => m (a + i)

@[simp] theorem length_slice (m : Mem) (a n : ℕ) : (m.slice a n).length = n := by
  simp [slice]

theorem store_apply_of_lt {a k x : ℕ} (m : Mem) (v : ℕ) (h : x < a) : m.store a k v x = m x :=
  if_neg fun h' => by omega

theorem store_apply_of_le {a k x : ℕ} (m : Mem) (v : ℕ) (h : a + k ≤ x) :
    m.store a k v x = m x :=
  if_neg fun h' => by omega

theorem store_apply_of_not_mem {a k x : ℕ} (m : Mem) (v : ℕ) (h : x < a ∨ a + k ≤ x) :
    m.store a k v x = m x := by
  rcases h with h | h
  · exact store_apply_of_lt m v h
  · exact store_apply_of_le m v h

theorem store_apply_of_mem {a k x : ℕ} (m : Mem) (v : ℕ) (h : a ≤ x) (h' : x < a + k) :
    m.store a k v x = UInt8.ofNat (v / 256 ^ (x - a)) :=
  if_pos ⟨h, h'⟩

@[simp] theorem poke_self (m : Mem) (a : ℕ) (b : UInt8) : m.poke a b a = b := if_pos rfl

theorem poke_apply_of_ne {a x : ℕ} (m : Mem) (b : UInt8) (h : x ≠ a) : m.poke a b x = m x :=
  if_neg h

theorem load_congr {m m' : Mem} {a k : ℕ} (h : ∀ x, a ≤ x → x < a + k → m x = m' x) :
    m.load a k = m'.load a k := by
  induction k generalizing a with
  | zero => rfl
  | succ k ih =>
    rw [load, load, h a le_rfl (by omega), ih fun x hx hx' => h x (by omega) (by omega)]

theorem slice_congr {m m' : Mem} {a n : ℕ} (h : ∀ x, a ≤ x → x < a + n → m x = m' x) :
    m.slice a n = m'.slice a n := by
  refine List.map_congr_left fun i hi => h _ (by omega) ?_
  rw [List.mem_range] at hi
  omega

theorem load_lt (m : Mem) (a k : ℕ) : m.load a k < 256 ^ k := by
  induction k generalizing a with
  | zero => simp [load]
  | succ k ih =>
    have h := ih (a + 1)
    have hb := (m a).toNat_lt
    rw [load, pow_succ]
    omega

/-- The digits written by a store, read back one after the other. -/
theorem load_store_shift (m : Mem) (a k v j : ℕ) (h : j ≤ k) :
    (m.store a k v).load (a + j) (k - j) = v / 256 ^ j % 256 ^ (k - j) := by
  obtain ⟨n, rfl⟩ := Nat.exists_eq_add_of_le h
  rw [Nat.add_sub_cancel_left]
  induction n generalizing j with
  | zero => simp [load, Nat.mod_one]
  | succ n ih =>
    have hrec := ih (j + 1) (by omega)
    rw [show j + 1 + n = j + (n + 1) by omega, show a + (j + 1) = a + j + 1 by omega] at hrec
    rw [load, hrec, store_apply_of_mem m v (by omega) (by omega), Nat.add_sub_cancel_left,
      UInt8.toNat_ofNat', pow_succ 256 j, ← Nat.div_div_eq_div_mul, pow_succ' 256 n, Nat.mod_mul]

/-- **A stored number that fits is read back.** -/
theorem load_store {k v : ℕ} (m : Mem) (a : ℕ) (h : v < 256 ^ k) : (m.store a k v).load a k = v := by
  have := load_store_shift m a k v 0 (Nat.zero_le k)
  rw [Nat.add_zero, Nat.sub_zero, pow_zero, Nat.div_one, Nat.mod_eq_of_lt h] at this
  exact this

/-- `memmove` of `n` bytes. -/
def move (m : Mem) (dst src n : ℕ) : Mem := fun x =>
  if dst ≤ x ∧ x < dst + n then m (src + (x - dst)) else m x

/-- The bytes of a list put in place. -/
def write (m : Mem) (a : ℕ) (bytes : List UInt8) : Mem := fun x =>
  if a ≤ x then bytes.getD (x - a) (m x) else m x

theorem slice_add (m : Mem) (a n k : ℕ) : m.slice a (n + k) = m.slice a n ++ m.slice (a + n) k := by
  simp only [slice, List.range_add, List.map_append, List.map_map, Nat.add_assoc]
  rfl

theorem slice_move (m : Mem) (dst src n : ℕ) : (m.move dst src n).slice dst n = m.slice src n := by
  refine List.map_congr_left fun i hi => ?_
  rw [List.mem_range] at hi
  rw [move, if_pos (by omega), Nat.add_sub_cancel_left]

theorem slice_write (m : Mem) (a : ℕ) (bytes : List UInt8) :
    (m.write a bytes).slice a bytes.length = bytes := by
  refine List.ext_getElem (by simp) fun i hi hi' => ?_
  simp [slice, write, List.getD_eq_getElem?_getD, List.getElem?_eq_getElem hi']

theorem write_apply_of_lt (m : Mem) {a x : ℕ} (bytes : List UInt8) (h : x < a) :
    m.write a bytes x = m x := if_neg (by omega)

theorem write_apply_of_not_mem (m : Mem) {a x : ℕ} {bytes : List UInt8}
    (h : x < a ∨ a + bytes.length ≤ x) : m.write a bytes x = m x := by
  rcases h with h | h
  · exact write_apply_of_lt m bytes h
  · rw [write, if_pos (by omega), List.getD_eq_default _ _ (by omega)]

@[simp] theorem write_nil (m : Mem) (a : ℕ) : m.write a [] = m := by
  funext x
  exact write_apply_of_not_mem m (by rw [List.length_nil]; omega)

/-- Two writes side by side are one. -/
theorem write_append (m : Mem) (a : ℕ) (xs ys : List UInt8) :
    (m.write a xs).write (a + xs.length) ys = m.write a (xs ++ ys) := by
  funext x
  rcases Nat.lt_or_ge x (a + xs.length) with hx | hx
  · rw [write_apply_of_lt _ _ hx, write, write]
    split
    · rw [List.getD_append _ _ _ _ (by omega)]
    · rfl
  · rw [write, if_pos hx, write_apply_of_not_mem m (.inr hx), write, if_pos (by omega),
      List.getD_append_right _ _ _ _ (by omega)]
    congr 1
    omega

theorem poke_eq_write (m : Mem) (a : ℕ) (b : UInt8) : m.poke a b = m.write a [b] := by
  funext x
  rcases eq_or_ne x a with rfl | hx
  · rw [poke_self, write, if_pos le_rfl, Nat.sub_self]
    rfl
  · rw [poke_apply_of_ne m b hx,
      write_apply_of_not_mem m (by rw [List.length_singleton]; omega)]

/-- Two writes side by side are one, in either order. -/
theorem write_append_left (m : Mem) (a : ℕ) (xs ys : List UInt8) :
    (m.write (a + xs.length) ys).write a xs = m.write a (xs ++ ys) := by
  rw [← write_append]
  funext x
  rcases Nat.lt_or_ge x (a + xs.length) with hx | hx
  · have hys : m.write (a + xs.length) ys x = m x := write_apply_of_lt m ys hx
    rw [write_apply_of_lt _ _ hx, write, hys, write]
  · have hxs : m.write a xs x = m x := write_apply_of_not_mem m (.inr hx)
    rw [write_apply_of_not_mem _ (.inr hx), write, write, hxs]

/-- A write is lost when it is written over. -/
theorem write_write_of_le (m : Mem) (a : ℕ) {xs ys : List UInt8} (h : xs.length ≤ ys.length) :
    (m.write a xs).write a ys = m.write a ys := by
  funext x
  rcases Nat.lt_or_ge x a with hx | hx
  · rw [write_apply_of_lt _ _ hx, write_apply_of_lt _ _ hx, write_apply_of_lt _ _ hx]
  · rcases Nat.lt_or_ge x (a + ys.length) with hy | hy
    · have hlt : x - a < ys.length := by omega
      rw [write, if_pos hx, List.getD_eq_getElem _ _ hlt, write, if_pos hx,
        List.getD_eq_getElem _ _ hlt]
    · rw [write_apply_of_not_mem _ (.inr hy), write_apply_of_not_mem _ (.inr hy),
        write_apply_of_not_mem _ (.inr (by omega))]

theorem slice_write_of_disjoint (m : Mem) {a b n : ℕ} {bytes : List UInt8}
    (h : a + n ≤ b ∨ b + bytes.length ≤ a) : (m.write b bytes).slice a n = m.slice a n :=
  slice_congr fun _ _ _ => write_apply_of_not_mem m (by omega)

/-- A store elsewhere is not seen. -/
theorem load_store_of_disjoint {a k b l v : ℕ} (m : Mem) (h : a + k ≤ b ∨ b + l ≤ a) :
    (m.store b l v).load a k = m.load a k :=
  load_congr fun _ hx hx' => store_apply_of_not_mem m v (by omega)

end Mem

end QLog
