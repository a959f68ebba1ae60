import QLog.Foundations.Pieces

/-!
# Strings

`trim` and `split_nonempty` of `string_utils.cpp`, on the characters of a string.
-/

namespace QLog.Utility

/-- `isspace` in the C locale. -/
def isspace (c : Char) : Bool := c.toNat == 32 || (9 ≤ c.toNat && c.toNat ≤ 13)

/-- `trim`: the first loop from the front, the second from the back. -/
def trim (value : List Char) : List Char :=
  ((value.dropWhile isspace).reverse.dropWhile isspace).reverse

/-- The loop of `split_nonempty`; `piece` is what lies between `first` and the place of the search. -/
def splitLoop (delimiter : Char) : List Char → List Char → List (List Char)
  | piece, [] => if piece = [] then [] else [piece]
  | piece, c :: cs =>
    if c = delimiter then
      if piece = [] then splitLoop delimiter [] cs else piece :: splitLoop delimiter [] cs
    else splitLoop delimiter (piece ++ [c]) cs

/-- `split_nonempty`. -/
def splitNonempty (value : List Char) (delimiter : Char) : List (List Char) := splitLoop delimiter [] value

theorem splitLoop_eq_pieces (delimiter : Char) (piece rest : List Char)
    (hpiece : ∀ c ∈ piece, (c == delimiter) = false) :
    splitLoop delimiter piece rest = pieces (· == delimiter) (piece ++ rest) := by
  induction rest generalizing piece with
  | nil => rw [splitLoop, List.append_nil, pieces_run hpiece]
  | cons c cs ih =>
    rw [splitLoop]
    split
    · rename_i hc
      have hrest : splitLoop delimiter [] cs = pieces (· == delimiter) cs :=
        ih [] fun d hd => (List.not_mem_nil hd).elim
      rw [pieces_append_cons (by simpa using hc), pieces_run hpiece, hrest]
      split
      · rfl
      · rfl
    · rename_i hc
      rw [List.append_cons piece c cs]
      refine ih (piece ++ [c]) fun d hd => ?_
      rcases List.mem_append.1 hd with hd | hd
      · exact hpiece d hd
      · rw [List.mem_singleton.1 hd]
        simpa using hc

/-- **`split_nonempty`** returns the pieces between the delimiters. -/
theorem splitNonempty_eq_pieces (value : List Char) (delimiter : Char) :
    splitNonempty value delimiter = pieces (· == delimiter) value :=
  splitLoop_eq_pieces delimiter [] value fun _ hc => (List.not_mem_nil hc).elim

/-! ## White space -/

variable {c : Char} {value : List Char}

/-- What `trim` takes away is white space. -/
theorem exists_trim (value : List Char) : ∃ front back, value = front ++ trim value ++ back ∧
    (∀ c ∈ front, isspace c = true) ∧ ∀ c ∈ back, isspace c = true := by
  refine ⟨value.takeWhile isspace, ((value.dropWhile isspace).reverse.takeWhile isspace).reverse, ?_,
    fun c hc => List.mem_takeWhile_imp hc, fun c hc => List.mem_takeWhile_imp (List.mem_reverse.1 hc)⟩
  rw [trim, List.append_assoc, ← List.reverse_append, List.takeWhile_append_dropWhile, List.reverse_reverse,
    List.takeWhile_append_dropWhile]

theorem not_isspace_of_head?_dropWhile (h : (value.dropWhile isspace).head? = some c) :
    isspace c = false := by
  have hnot := List.head?_dropWhile_not isspace value
  rw [h] at hnot
  exact hnot

theorem not_isspace_of_getLast?_trim (h : (trim value).getLast? = some c) : isspace c = false := by
  rw [trim, List.getLast?_reverse] at h
  exact not_isspace_of_head?_dropWhile h

theorem not_isspace_of_head?_trim (h : (trim value).head? = some c) : isspace c = false := by
  have hprefix : trim value <+: value.dropWhile isspace := by
    rw [trim, ← List.reverse_suffix, List.reverse_reverse]
    exact List.dropWhile_suffix _
  obtain ⟨back, hback⟩ := hprefix
  refine not_isspace_of_head?_dropWhile (show (value.dropWhile isspace).head? = some c from ?_)
  rw [← hback, List.head?_append, h]
  rfl

theorem dropWhile_eq_self (h : ∀ c, value.head? = some c → isspace c = false) :
    value.dropWhile isspace = value := by
  cases value with
  | nil => rfl
  | cons c cs => rw [List.dropWhile_cons_of_neg (by simp [h c rfl])]

/-- **`trim` leaves what begins and ends with no white space.** -/
theorem trim_eq_self (hhead : ∀ c, value.head? = some c → isspace c = false)
    (hlast : ∀ c, value.getLast? = some c → isspace c = false) : trim value = value := by
  rw [trim, dropWhile_eq_self hhead, dropWhile_eq_self (by simpa using hlast), List.reverse_reverse]

@[simp] theorem trim_trim (value : List Char) : trim (trim value) = trim value :=
  trim_eq_self (fun _ => not_isspace_of_head?_trim) fun _ => not_isspace_of_getLast?_trim

theorem isInfix_trim (value : List Char) : trim value <:+: value := by
  obtain ⟨front, back, heq, -⟩ := exists_trim value
  exact ⟨front, back, heq.symm⟩

/-- White space behind a text is taken away. -/
theorem trim_append_space (hc : isspace c = true) : trim (value ++ [c]) = trim value := by
  rw [trim, trim, List.dropWhile_append]
  split
  · rename_i hnil
    rw [List.isEmpty_iff.1 hnil, List.dropWhile_cons_of_pos hc]
    rfl
  · rw [List.reverse_append, List.reverse_singleton, List.singleton_append, List.dropWhile_cons_of_pos hc]

/-- Only the end of a text is trimmed when it begins with no white space. -/
theorem exists_trim_append (hhead : ∀ c, value.head? = some c → isspace c = false) :
    ∃ back, value = trim value ++ back ∧ ∀ c ∈ back, isspace c = true := by
  obtain ⟨front, back, heq, hfront, hback⟩ := exists_trim value
  cases front with
  | nil => exact ⟨back, heq, hback⟩
  | cons c front =>
    have hc := hhead c (by rw [heq]; rfl)
    rw [hfront c List.mem_cons_self] at hc
    cases hc

end QLog.Utility
