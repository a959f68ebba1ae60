import QLog.Utility.StringUtils

/-!
# Numbers in strings

The function `strtol` with base ten, on the characters of a string. `Reads` says which number a string
begins with: blanks, a sign and digits. `strtol_of_reads` and `exists_reads_of_converted` say that the
function finds this number, and none if there is none.
-/

namespace QLog.Utility

/-- What `strtol` returns: the value, whether it moves `end`, where `end` then points, and whether `errno`
becomes `ERANGE`. -/
structure Strtol where
  value : ℤ
  converted : Bool
  rest : List Char
  erange : Bool
  deriving DecidableEq

/-- A sign in front. -/
def splitSign : List Char → Bool × List Char
  | '-' :: s => (true, s)
  | '+' :: s => (false, s)
  | s => (false, s)

/-- A number with its sign. -/
def signed (neg : Bool) (n : ℤ) : ℤ := if neg then -n else n

/-- `strtol` with base ten; a `long` has 64 bits. -/
def strtol (s : List Char) : Strtol :=
  let t := splitSign (s.dropWhile isspace)
  let digits := t.2.takeWhile Char.isDigit
  let rest := t.2.dropWhile Char.isDigit
  let n := signed t.1 (Nat.ofDigitChars 10 digits 0)
  if digits = [] then ⟨0, false, s, false⟩
  else if n < -2 ^ 63 then ⟨-2 ^ 63, true, rest, true⟩
  else if 2 ^ 63 - 1 < n then ⟨2 ^ 63 - 1, true, rest, true⟩
  else ⟨n, true, rest, false⟩

/-! ## What a string begins with -/

/-- How a sign is written. -/
def IsSign (neg : Bool) (sign : List Char) : Prop := if neg then sign = ['-'] else sign = [] ∨ sign = ['+']

/-- `s` begins with the number `n`, negated if `neg`, and `rest` lies behind it. -/
def Reads (s : List Char) (neg : Bool) (n : ℕ) (rest : List Char) : Prop :=
  ∃ blanks sign digits, s = blanks ++ (sign ++ (digits ++ rest)) ∧ (∀ c ∈ blanks, isspace c = true) ∧
    IsSign neg sign ∧ digits ≠ [] ∧ (∀ c ∈ digits, c.isDigit = true) ∧
    (∀ c, rest.head? = some c → c.isDigit = false) ∧ n = Nat.ofDigitChars 10 digits 0

/-- No digit is a blank or a sign. -/
theorem of_isDigit {c : Char} (h : c.isDigit = true) : isspace c = false ∧ c ≠ '-' ∧ c ≠ '+' := by
  have hc : 48 ≤ c.toNat ∧ c.toNat ≤ 57 := by
    rw [Char.isDigit, Bool.and_eq_true, decide_eq_true_eq, decide_eq_true_eq] at h
    exact ⟨UInt32.le_iff_toNat_le.1 h.1, UInt32.le_iff_toNat_le.1 h.2⟩
  refine ⟨?_, ?_, ?_⟩
  · rw [isspace, Bool.or_eq_false_iff, beq_eq_false_iff_ne, Bool.and_eq_false_iff, decide_eq_false_iff_not,
      decide_eq_false_iff_not]
    omega
  · rintro rfl
    exact absurd hc (by decide)
  · rintro rfl
    exact absurd hc (by decide)

theorem splitSign_digits {digits : List Char} (hne : digits ≠ []) (h : ∀ c ∈ digits, c.isDigit = true)
    (rest : List Char) : splitSign (digits ++ rest) = (false, digits ++ rest) := by
  cases digits with
  | nil => exact absurd rfl hne
  | cons c cs =>
    obtain ⟨-, h1, h2⟩ := of_isDigit (h c List.mem_cons_self)
    rw [List.cons_append, splitSign]
    · exact fun s hs => h1 (List.cons.inj hs).1
    · exact fun s hs => h2 (List.cons.inj hs).1

/-- What the parts of `strtol` are on a string that begins with a number. -/
theorem parts_of_reads {s rest : List Char} {neg : Bool} {n : ℕ} (h : Reads s neg n rest) :
    ∃ digits, digits ≠ [] ∧ n = Nat.ofDigitChars 10 digits 0 ∧
      splitSign (s.dropWhile isspace) = (neg, digits ++ rest) ∧
      (digits ++ rest).takeWhile Char.isDigit = digits ∧ (digits ++ rest).dropWhile Char.isDigit = rest := by
  obtain ⟨blanks, sign, digits, rfl, hblanks, hsign, hne, hdigits, hrest, hn⟩ := h
  refine ⟨digits, hne, hn, ?_, ?_, ?_⟩
  · rw [List.dropWhile_append_of_pos hblanks]
    cases neg with
    | true =>
      rw [show sign = ['-'] from hsign]
      rfl
    | false =>
      rcases (show sign = [] ∨ sign = ['+'] from hsign) with rfl | rfl
      · have hhead : (digits ++ rest).dropWhile isspace = digits ++ rest := by
          cases digits with
          | nil => exact absurd rfl hne
          | cons c cs =>
            rw [List.cons_append, List.dropWhile_cons_of_neg]
            rw [(of_isDigit (hdigits c List.mem_cons_self)).1]
            decide
        rw [List.nil_append, hhead, splitSign_digits hne hdigits]
      · rfl
  · rw [List.takeWhile_append_of_pos hdigits]
    cases rest with
    | nil => simp
    | cons c cs => rw [List.takeWhile_cons_of_neg (by rw [hrest c rfl]; decide), List.append_nil]
  · rw [List.dropWhile_append_of_pos hdigits]
    cases rest with
    | nil => rfl
    | cons c cs => rw [List.dropWhile_cons_of_neg (by rw [hrest c rfl]; decide)]

/-- **`strtol` finds the number** that a string begins with. -/
theorem strtol_of_reads {s rest : List Char} {neg : Bool} {n : ℕ} (h : Reads s neg n rest) :
    strtol s = if signed neg n < -2 ^ 63 then ⟨-2 ^ 63, true, rest, true⟩
      else if 2 ^ 63 - 1 < signed neg n then ⟨2 ^ 63 - 1, true, rest, true⟩
      else ⟨signed neg n, true, rest, false⟩ := by
  obtain ⟨digits, hne, rfl, hsplit, htake, hdrop⟩ := parts_of_reads h
  simp only [strtol, hsplit, htake, hdrop, if_neg hne]

theorem Reads.converted {s rest : List Char} {neg : Bool} {n : ℕ} (h : Reads s neg n rest) :
    (strtol s).converted = true := by
  rw [strtol_of_reads h]
  split
  · rfl
  · split <;> rfl

/-- A string begins with one number at most. -/
theorem Reads.unique {s rest rest' : List Char} {neg neg' : Bool} {n n' : ℕ} (h : Reads s neg n rest)
    (h' : Reads s neg' n' rest') : neg = neg' ∧ n = n' ∧ rest = rest' := by
  obtain ⟨digits, -, hn, hsplit, htake, hdrop⟩ := parts_of_reads h
  obtain ⟨digits', -, hn', hsplit', htake', hdrop'⟩ := parts_of_reads h'
  obtain ⟨rfl, hsame⟩ := Prod.mk.inj (hsplit.symm.trans hsplit')
  rw [← hsame] at htake' hdrop'
  obtain rfl := htake.symm.trans htake'
  exact ⟨rfl, hn.trans hn'.symm, hdrop.symm.trans hdrop'⟩

theorem exists_splitSign (s : List Char) :
    ∃ sign, IsSign (splitSign s).1 sign ∧ s = sign ++ (splitSign s).2 := by
  unfold splitSign
  split
  · exact ⟨['-'], rfl, rfl⟩
  · exact ⟨['+'], .inr rfl, rfl⟩
  · exact ⟨[], .inl rfl, rfl⟩

/-- **`strtol` converts nothing** unless the string begins with a number. -/
theorem exists_reads_of_converted {s : List Char} (h : (strtol s).converted = true) :
    ∃ neg n rest, Reads s neg n rest := by
  obtain ⟨sign, hsign, hs⟩ := exists_splitSign (s.dropWhile isspace)
  refine ⟨_, _, (splitSign (s.dropWhile isspace)).2.dropWhile Char.isDigit, s.takeWhile isspace, sign,
    (splitSign (s.dropWhile isspace)).2.takeWhile Char.isDigit, ?_, fun c hc => ?_, hsign, fun hnil => ?_,
    fun c hc => ?_, fun c hc => ?_, rfl⟩
  · rw [List.takeWhile_append_dropWhile, ← hs, List.takeWhile_append_dropWhile]
  · exact List.mem_takeWhile_imp hc
  · simp only [strtol, hnil, if_true] at h
    cases h
  · exact List.mem_takeWhile_imp hc
  · have := List.head?_dropWhile_not Char.isDigit (splitSign (s.dropWhile isspace)).2
    rw [hc] at this
    simpa using this

/-- **A number that passes checks** is one the string begins with, in the bounds. -/
theorem strtol_cases {lo hi : ℤ} (hlo : -2 ^ 63 ≤ lo) (hhi : hi ≤ 2 ^ 63 - 1) (s : List Char) :
    (((strtol s).converted = false ∨ (strtol s).erange = true ∨
        (strtol s).value < lo ∨ hi < (strtol s).value) ∧
      ∀ neg n rest, Reads s neg n rest → ¬(lo ≤ signed neg n ∧ signed neg n ≤ hi)) ∨
    ∃ neg n rest, Reads s neg n rest ∧ (lo ≤ signed neg n ∧ signed neg n ≤ hi) ∧
      strtol s = ⟨signed neg n, true, rest, false⟩ := by
  by_cases hconv : (strtol s).converted = true
  swap
  · exact .inl ⟨.inl (Bool.eq_false_of_not_eq_true hconv), fun neg n rest h _ => hconv h.converted⟩
  obtain ⟨neg, n, rest, h⟩ := exists_reads_of_converted hconv
  have hvalue := strtol_of_reads h
  by_cases hmem : lo ≤ signed neg n ∧ signed neg n ≤ hi
  · rw [if_neg (by omega), if_neg (by omega)] at hvalue
    exact .inr ⟨neg, n, rest, h, hmem, hvalue⟩
  · refine .inl ⟨?_, fun neg' n' rest' h' hmem' => ?_⟩
    · rw [hvalue]
      split
      · exact .inr (.inl rfl)
      split
      · exact .inr (.inl rfl)
      · rcases not_and_or.1 hmem with hlt | hlt
        · exact .inr (.inr (.inl (not_le.1 hlt)))
        · exact .inr (.inr (.inr (not_le.1 hlt)))
    · obtain ⟨rfl, rfl, rfl⟩ := h.unique h'
      exact hmem hmem'

end QLog.Utility
