import Mathlib

/-!
# Rings of blocks addressed by 32-bit cursors

A ring of `2 ^ k` blocks is addressed by free-running 32-bit cursors: the block of a cursor is its
value masked by the block count minus one, and distances are differences modulo `2 ^ 32`. Proofs
work with unbounded positions, of which the cursors are the residues.

* `sub32`, `add32`: cursor arithmetic; `sub32_mod` recovers the true distance of two positions
  that are less than `2 ^ 32` apart.
* `mod_ne_mod`: two positions less than a ring apart lie on different blocks.
* `offset ns k`: where the `k`-th of consecutive intervals of lengths `ns` begins.
-/

namespace QLog

/-! ## Cursor arithmetic -/

/-- Addition of 32-bit cursors. -/
def add32 (a b : ℕ) : ℕ := (a + b) % 2 ^ 32

/-- Difference of 32-bit cursors. -/
def sub32 (a b : ℕ) : ℕ := (a + 2 ^ 32 - b % 2 ^ 32) % 2 ^ 32

theorem add32_mod (a b : ℕ) : add32 (a % 2 ^ 32) b = (a + b) % 2 ^ 32 := by
  unfold add32
  omega

theorem sub32_mod_mod {a b : ℕ} (h : b ≤ a) :
    sub32 (a % 2 ^ 32) (b % 2 ^ 32) = (a - b) % 2 ^ 32 := by
  unfold sub32
  omega

/-- The distance of two positions less than `2 ^ 32` apart is the difference of their cursors. -/
theorem sub32_mod {a b : ℕ} (h : b ≤ a) (h' : a - b < 2 ^ 32) :
    sub32 (a % 2 ^ 32) (b % 2 ^ 32) = a - b := by
  rw [sub32_mod_mod h, Nat.mod_eq_of_lt h']

theorem sub32_lt (a b : ℕ) : sub32 a b < 2 ^ 32 := Nat.mod_lt _ (by norm_num)

theorem add32_lt (a b : ℕ) : add32 a b < 2 ^ 32 := Nat.mod_lt _ (by norm_num)

/-! ## Blocks -/

/-- A power-of-two number of blocks that a 32-bit count can hold. -/
structure BlockCount where
  log2 : ℕ
  log2_lt : log2 < 32

namespace BlockCount

variable (N : BlockCount)

/-- The number of blocks. -/
def count : ℕ := 2 ^ N.log2

theorem count_pos : 0 < N.count := Nat.two_pow_pos _

theorem count_lt : N.count < 2 ^ 32 := Nat.pow_lt_pow_right (by norm_num) N.log2_lt

theorem two_mul_count_le : 2 * N.count ≤ 2 ^ 32 := by
  rw [count, ← pow_succ']
  exact Nat.pow_le_pow_right (by norm_num) N.log2_lt

theorem count_dvd : N.count ∣ 2 ^ 32 := pow_dvd_pow 2 N.log2_lt.le

/-- The block index of a cursor, `cursor & (count - 1)`. -/
def index (cursor : ℕ) : ℕ := cursor &&& (N.count - 1)

theorem index_eq_mod (cursor : ℕ) : N.index cursor = cursor % N.count :=
  Nat.and_two_pow_sub_one_eq_mod cursor N.log2

theorem index_lt (cursor : ℕ) : N.index cursor < N.count := by
  rw [index_eq_mod]
  exact Nat.mod_lt _ N.count_pos

/-- Reducing a position to 32 bits does not change its block. -/
theorem index_mod (p : ℕ) : N.index (p % 2 ^ 32) = p % N.count := by
  rw [index_eq_mod, Nat.mod_mod_of_dvd _ N.count_dvd]

end BlockCount

/-- Positions less than a ring apart lie on different blocks. -/
theorem mod_ne_mod {a b n : ℕ} (h : a < b) (h' : b < a + n) : a % n ≠ b % n := by
  intro he
  have hd : n ∣ b - a := (Nat.modEq_iff_dvd' h.le).mp he
  have := Nat.le_of_dvd (by omega) hd
  omega

/-- The blocks of the `n` positions from `p` on. -/
def ringBlocks (count p n : ℕ) : Set ℕ := {b | ∃ i < n, b = (p + i) % count}

/-- Two stretches of positions inside one window of the ring's size share no block. -/
theorem disjoint_ringBlocks {count p n q m : ℕ} (h : p + n ≤ q) (h' : q + m ≤ p + count) :
    Disjoint (ringBlocks count p n) (ringBlocks count q m) := by
  rw [Set.disjoint_left]
  rintro b ⟨i, hi, rfl⟩ ⟨j, hj, he⟩
  exact mod_ne_mod (by omega) (by omega) he

/-- Reducing the cursor to 32 bits does not change the blocks. -/
theorem ringBlocks_mod (N : BlockCount) (p n : ℕ) :
    ringBlocks N.count (p % 2 ^ 32) n = ringBlocks N.count p n := by
  have hmod : ∀ i, (p % 2 ^ 32 + i) % N.count = (p + i) % N.count := by
    intro i
    rw [Nat.add_mod, Nat.mod_mod_of_dvd _ N.count_dvd, ← Nat.add_mod]
  simp only [ringBlocks, hmod]

theorem mod_mem_ringBlocks {count n : ℕ} (p : ℕ) (h : 0 < n) : p % count ∈ ringBlocks count p n :=
  ⟨0, h, by rw [Nat.add_zero]⟩

/-- A stretch that ends before the ring does is a range of block indices. -/
theorem mod_add_mem_ringBlocks {count p n j : ℕ} (h : p % count + n ≤ count) (hj : j < n) :
    p % count + j ∈ ringBlocks count p n := by
  refine ⟨j, hj, ?_⟩
  have hlt : p % count + j < count := by omega
  rw [← Nat.mod_add_mod, Nat.mod_eq_of_lt hlt]

/-! ## Consecutive intervals -/

/-- Where the `k`-th of consecutive intervals of the given lengths begins. -/
def offset (ns : List ℕ) (k : ℕ) : ℕ := (ns.take k).sum

@[simp] theorem offset_zero (ns : List ℕ) : offset ns 0 = 0 := by simp [offset]

theorem offset_succ {ns : List ℕ} {k : ℕ} (h : k < ns.length) :
    offset ns (k + 1) = offset ns k + ns.get ⟨k, h⟩ := by
  simp [offset, List.sum_take_succ, h]

theorem offset_length (ns : List ℕ) : offset ns ns.length = ns.sum := by simp [offset]

theorem offset_append_of_le {ns : List ℕ} (ms : List ℕ) {k : ℕ} (h : k ≤ ns.length) :
    offset (ns ++ ms) k = offset ns k := by
  simp [offset, List.take_append_of_le_length h]

/-- Consecutive intervals leave no gap. -/
theorem exists_offset_le_lt {ns : List ℕ} {q : ℕ} (h : q < ns.sum) :
    ∃ k < ns.length, offset ns k ≤ q ∧ q < offset ns (k + 1) := by
  induction ns generalizing q with
  | nil => simp at h
  | cons n ns ih =>
    by_cases hq : q < n
    · exact ⟨0, by simp, by simp, by simpa [offset] using hq⟩
    · rw [List.sum_cons] at h
      obtain ⟨k, hk, hle, hlt⟩ := ih (show q - n < ns.sum by omega)
      refine ⟨k + 1, by simpa using hk, ?_, ?_⟩ <;>
        simp only [offset, List.take_succ_cons, List.sum_cons] at * <;> omega

theorem offset_mono (ns : List ℕ) {i j : ℕ} (h : i ≤ j) : offset ns i ≤ offset ns j := by
  induction j, h using Nat.le_induction with
  | base => exact le_rfl
  | succ j _ ih =>
    by_cases hj : j < ns.length
    · rw [offset_succ hj]
      omega
    · have : ns.take (j + 1) = ns.take j := by
        rw [List.take_of_length_le (by omega), List.take_of_length_le (by omega)]
      simpa [offset, this] using ih

end QLog
