import Mathlib

/-!
# UTF-16

Code points and their code units. `encodeChar` writes a code point as one unit or as a surrogate
pair, and `decode` reads a list of units back, pairs first. On the scalar values, the code points
that are not surrogates, `decode` undoes `encode` (`decode_encode`).
-/

namespace QLog.Utf16

/-- The units of a code point. -/
def encodeChar (c : ℕ) : List ℕ :=
  if c ≤ 0xFFFF then [c] else [(c - 0x10000) / 0x400 + 0xD800, (c - 0x10000) % 0x400 + 0xDC00]

/-- The units of a list of code points. -/
def encode (cs : List ℕ) : List ℕ := cs.flatMap encodeChar

/-- A high surrogate followed by a low one. -/
def IsPair (u v : ℕ) : Prop := (0xD800 ≤ u ∧ u < 0xDC00) ∧ 0xDC00 ≤ v ∧ v < 0xE000

instance (u v : ℕ) : Decidable (IsPair u v) := by unfold IsPair; infer_instance

/-- The code points of a list of units. A surrogate without its partner stands for itself. -/
def decode : List ℕ → List ℕ
  | [] => []
  | [u] => [u]
  | u :: v :: rest =>
    if IsPair u v then (0x10000 + (u - 0xD800) * 0x400 + (v - 0xDC00)) :: decode rest
    else u :: decode (v :: rest)

/-- A Unicode scalar value: a code point that is not a surrogate. -/
def IsScalar (c : ℕ) : Prop := c < 0xD800 ∨ (0xE000 ≤ c ∧ c < 0x110000)

instance (c : ℕ) : Decidable (IsScalar c) := by unfold IsScalar; infer_instance

theorem decode_cons_of_not_high {u : ℕ} (h : ¬(0xD800 ≤ u ∧ u < 0xDC00)) (rest : List ℕ) :
    decode (u :: rest) = u :: decode rest := by
  cases rest with
  | nil => rfl
  | cons v rest => rw [decode, if_neg fun hp => h hp.1]

theorem decode_pair {u v : ℕ} (h : IsPair u v) (rest : List ℕ) :
    decode (u :: v :: rest) = (0x10000 + (u - 0xD800) * 0x400 + (v - 0xDC00)) :: decode rest := by
  rw [decode, if_pos h]

/-- **Scalar values survive UTF-16.** -/
theorem decode_encode {cs : List ℕ} (h : ∀ c ∈ cs, IsScalar c) : decode (encode cs) = cs := by
  induction cs with
  | nil => rfl
  | cons c cs ih =>
    have hc : IsScalar c := h c List.mem_cons_self
    have hcs := ih fun d hd => h d (List.mem_cons_of_mem c hd)
    unfold IsScalar at hc
    rw [encode, List.flatMap_cons, ← encode, encodeChar]
    split
    · rw [List.singleton_append, decode_cons_of_not_high (by omega), hcs]
    · have hpair : IsPair ((c - 0x10000) / 0x400 + 0xD800) ((c - 0x10000) % 0x400 + 0xDC00) := by
        unfold IsPair
        omega
      have hval : 0x10000 + ((c - 0x10000) / 0x400 + 0xD800 - 0xD800) * 0x400 +
          ((c - 0x10000) % 0x400 + 0xDC00 - 0xDC00) = c := by omega
      rw [List.cons_append, List.cons_append, List.nil_append, decode_pair hpair, hcs, hval]

theorem encode_lt {cs : List ℕ} (h : ∀ c ∈ cs, IsScalar c) : ∀ u ∈ encode cs, u < 2 ^ 16 := by
  intro u hu
  obtain ⟨c, hc, hu⟩ := List.mem_flatMap.1 hu
  have hs : IsScalar c := h c hc
  unfold IsScalar at hs
  unfold encodeChar at hu
  split at hu
  · rw [List.mem_singleton] at hu
    omega
  · rw [List.mem_cons, List.mem_singleton] at hu
    omega

theorem length_decode_le (us : List ℕ) : (decode us).length ≤ us.length := by
  induction us using decode.induct with
  | case1 => exact le_rfl
  | case2 u => exact le_rfl
  | case3 u v rest hp ih =>
    rw [decode_pair hp, List.length_cons, List.length_cons, List.length_cons]
    omega
  | case4 u v rest hp ih =>
    rw [decode, if_neg hp, List.length_cons, List.length_cons]
    omega

theorem length_encodeChar (c : ℕ) : (encodeChar c).length = if c ≤ 0xFFFF then 1 else 2 := by
  unfold encodeChar
  split <;> rfl

theorem encode_cons (c : ℕ) (cs : List ℕ) : encode (c :: cs) = encodeChar c ++ encode cs :=
  List.flatMap_cons

end QLog.Utf16
