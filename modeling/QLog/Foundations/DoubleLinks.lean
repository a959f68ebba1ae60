import QLog.Foundations.Chain

/-!
# Doubly linked lists

A doubly linked list has a link forwards and one backwards for every node, the node it begins with and the
one it ends with. The place in front of the first node is named `none`, and so is the place behind the last
one: `after` and `before` are the links with the two ends among them. `Represents s l` says that `l` is the
list, read in both directions. A node is linked in between two neighbours (`Represents.link`), or taken out
(`Represents.unlink`).
-/

namespace QLog

/-- The links of a doubly linked list. -/
@[ext]
structure Links (α : Type*) where
  next : α → Option α
  prev : α → Option α
  head : Option α
  tail : Option α

variable {α : Type*}

/-- From every place but the last one, `f` leads to the node behind it. -/
def Leads (f : Option α → Option α) (l : List α) : Prop :=
  ∀ pre post, l = pre ++ post → f pre.getLast? = post.head?

/-- Two places with one node in front of them are the same. -/
theorem eq_of_getLast? {pre pre' : List α} (post post' : List α) (h : (pre ++ post).Nodup)
    (heq : pre ++ post = pre' ++ post') (hlast : pre.getLast? = pre'.getLast?) : pre = pre' := by
  rcases List.append_eq_append_iff.1 heq with ⟨as, rfl, rfl⟩ | ⟨as, rfl, rfl⟩
  · rcases List.eq_nil_or_concat as with rfl | ⟨bs, b, rfl⟩
    · rw [List.append_nil]
    · rw [List.concat_eq_append, List.getLast?_append_of_ne_nil _ (by simp), List.getLast?_concat] at hlast
      refine absurd (List.mem_of_getLast? hlast) fun hb => ?_
      exact (List.nodup_append.1 h).2.2 b hb b (by simp) rfl
  · rcases List.eq_nil_or_concat as with rfl | ⟨bs, b, rfl⟩
    · rw [List.append_nil]
    · rw [List.concat_eq_append, List.getLast?_append_of_ne_nil _ (by simp), List.getLast?_concat] at hlast
      refine absurd (List.mem_of_getLast? hlast.symm) fun hb => ?_
      rw [heq] at h
      exact (List.nodup_append.1 h).2.2 b hb b (by simp) rfl

namespace Leads

variable {f f' : Option α → Option α} {l pre post : List α} {a : α}

theorem isChain (h : Leads f l) : IsChain (fun b => f (some b)) (f none) l := by
  suffices hrest : ∀ post pre, l = pre ++ post → IsChain (fun b => f (some b)) (f pre.getLast?) post from
    hrest l [] rfl
  intro post
  induction post with
  | nil => exact fun pre hpre => h pre [] hpre
  | cons b post ih =>
    intro pre hpre
    refine ⟨h pre (b :: post) hpre, ?_⟩
    have hrest := ih (pre ++ [b]) (by rw [hpre, List.append_assoc, List.singleton_append])
    rwa [List.getLast?_concat] at hrest

/-- A node between two places of the list. -/
theorem insert (h : Leads f (pre ++ post)) (hl : (pre ++ post).Nodup) (ha : a ∉ pre ++ post)
    (hnew : f' (some a) = post.head?) (hplace : f' pre.getLast? = some a)
    (hframe : ∀ x, x ≠ some a → x ≠ pre.getLast? → f' x = f x) : Leads f' (pre ++ a :: post) := by
  intro before behind heq
  have hnot : ∀ b ∈ pre ++ post, some b ≠ some a := fun b hb hba => ha (Option.some.inj hba ▸ hb)
  rcases List.append_eq_append_iff.1 heq with ⟨as, rfl, hpost⟩ | ⟨as, rfl, rfl⟩
  · cases as with
    | nil =>
      obtain rfl : behind = a :: post := hpost.symm
      rw [List.append_nil]
      exact hplace
    | cons b as =>
      obtain ⟨rfl, rfl⟩ : a = b ∧ post = as ++ behind := by simpa using hpost
      rcases List.eq_nil_or_concat as with rfl | ⟨bs, b, rfl⟩
      · rw [List.getLast?_concat]
        exact hnew
      · -- The place lies behind the new node.
        have hlast : (pre ++ a :: bs.concat b).getLast? = some b := by
          rw [List.concat_eq_append, ← List.cons_append, ← List.append_assoc, List.getLast?_concat]
        have hold := h (pre ++ bs.concat b) behind (by rw [List.append_assoc])
        have hlast' : (pre ++ bs.concat b).getLast? = some b := by
          rw [List.concat_eq_append, ← List.append_assoc, List.getLast?_concat]
        rw [hlast'] at hold
        rw [hlast, hframe (some b) (hnot b (by simp)) fun hb => ?_, hold]
        exact (List.nodup_append.1 hl).2.2 b (List.mem_of_getLast? hb.symm) b (by simp) rfl
  · cases as with
    | nil =>
      rw [List.append_nil] at hplace
      exact hplace
    | cons b as =>
      have hold := h before (b :: as ++ post) (by rw [List.append_assoc])
      have hother : before.getLast? ≠ (before ++ b :: as).getLast? := fun hlast => by
        have hsame := eq_of_getLast? (b :: as ++ post) post
          (by rwa [← List.append_assoc]) (List.append_assoc _ _ _).symm hlast
        simpa using congrArg List.length hsame
      rw [hframe _ (fun hb => ?_) hother, hold]
      · rfl
      · exact ha (by simp [List.mem_of_getLast? hb])

/-- A node taken out. -/
theorem erase (h : Leads f (pre ++ a :: post)) (hl : (pre ++ a :: post).Nodup)
    (hplace : f' pre.getLast? = f (some a))
    (hframe : ∀ x, x ≠ some a → x ≠ pre.getLast? → f' x = f x) : Leads f' (pre ++ post) := by
  have hnext : f (some a) = post.head? := by
    have hold := h (pre ++ [a]) post (by rw [List.append_assoc, List.singleton_append])
    rwa [List.getLast?_concat] at hold
  intro before behind heq
  rcases List.append_eq_append_iff.1 heq with ⟨as, rfl, rfl⟩ | ⟨as, rfl, rfl⟩
  · rcases List.eq_nil_or_concat as with rfl | ⟨bs, b, rfl⟩
    · rw [List.append_nil, hplace, hnext, List.nil_append]
    · have hold := h (pre ++ a :: bs.concat b) behind (by simp)
      have hlast : (pre ++ a :: bs.concat b).getLast? = some b := by
        rw [List.concat_eq_append, ← List.cons_append, ← List.append_assoc, List.getLast?_concat]
      have hlast' : (pre ++ bs.concat b).getLast? = some b := by
        rw [List.concat_eq_append, ← List.append_assoc, List.getLast?_concat]
      obtain ⟨-, hcons, hdisj⟩ := List.nodup_append.1 hl
      have hne : b ≠ a := fun hb => (List.nodup_cons.1 hcons).1 (by simp [hb])
      rw [hlast] at hold
      rw [hlast', hframe (some b) (fun hb => hne (Option.some.inj hb)) fun hb => ?_, hold]
      exact hdisj b (List.mem_of_getLast? hb.symm) b (by simp) rfl
  · cases as with
    | nil =>
      rw [List.append_nil] at hplace
      rw [hplace, hnext, List.nil_append]
    | cons b as =>
      have hold := h before (b :: as ++ a :: post) (by rw [List.append_assoc])
      have hother : before.getLast? ≠ (before ++ b :: as).getLast? := fun hlast => by
        have hsame := eq_of_getLast? (b :: as ++ a :: post) (a :: post)
          (by rwa [← List.append_assoc]) (List.append_assoc _ _ _).symm hlast
        simpa using congrArg List.length hsame
      rw [hframe _ (fun hb => ?_) hother, hold]
      · rfl
      · exact (List.nodup_append.1 hl).2.2 a (by simp [List.mem_of_getLast? hb]) a (by simp) rfl

/-- The links are read at the places of the list only. -/
theorem congr (h : Leads f l) (hnone : f' none = f none) (hl : ∀ b ∈ l, f' (some b) = f (some b)) :
    Leads f' l := by
  intro pre post heq
  rw [← h pre post heq]
  cases hlast : pre.getLast? with
  | none => exact hnone
  | some b => exact hl b (heq ▸ List.mem_append_left post (List.mem_of_getLast? hlast))

end Leads

namespace Links

variable (s : Links α)

/-- The node behind a place. -/
def after : Option α → Option α
  | none => s.head
  | some a => s.next a

/-- The node in front of a place. -/
def before : Option α → Option α
  | none => s.tail
  | some a => s.prev a

variable {s} {s' : Links α} {a b : α} {l pre post : List α}

/-- The list is read off in both directions. -/
structure Represents (s : Links α) (l : List α) : Prop where
  nodup : l.Nodup
  forward : Leads s.after l
  backward : Leads s.before l.reverse

theorem represents_nil (hhead : s.head = none) (htail : s.tail = none) : s.Represents [] := by
  refine ⟨List.nodup_nil, fun pre post h => ?_, fun pre post h => ?_⟩
  · obtain ⟨rfl, rfl⟩ := List.append_eq_nil_iff.1 h.symm
    exact hhead
  · obtain ⟨rfl, rfl⟩ := List.append_eq_nil_iff.1 h.symm
    exact htail

namespace Represents

theorem after_eq (h : s.Represents (pre ++ post)) : s.after pre.getLast? = post.head? := h.forward pre post rfl

theorem before_eq (h : s.Represents (pre ++ post)) : s.before post.head? = pre.getLast? := by
  have hback := h.backward post.reverse pre.reverse List.reverse_append
  rwa [List.getLast?_reverse, List.head?_reverse] at hback

theorem next_eq (h : s.Represents (pre ++ a :: post)) : s.next a = post.head? := by
  have hsplit : pre ++ a :: post = (pre ++ [a]) ++ post := by rw [List.append_assoc, List.singleton_append]
  have hafter := (hsplit ▸ h).after_eq
  rwa [List.getLast?_concat] at hafter

theorem prev_eq (h : s.Represents (pre ++ a :: post)) : s.prev a = pre.getLast? := h.before_eq

theorem isChain (h : s.Represents l) : IsChain s.next s.head l := h.forward.isChain

theorem congr (h : s.Represents l) (hnext : ∀ b ∈ l, s'.next b = s.next b)
    (hprev : ∀ b ∈ l, s'.prev b = s.prev b) (hhead : s'.head = s.head) (htail : s'.tail = s.tail) :
    s'.Represents l :=
  ⟨h.nodup, h.forward.congr hhead hnext,
    h.backward.congr htail fun b hb => hprev b (List.mem_reverse.1 hb)⟩

end Represents

/-! ## Linking -/

variable [DecidableEq α]

/-- A store to the link forwards of a place: of a node, or in front to the head. -/
def setAfter (s : Links α) (p v : Option α) : Links α :=
  match p with
  | none => { s with head := v }
  | some a => { s with next := Function.update s.next a v }

/-- A store to the link backwards of a place: of a node, or at the end to the tail. -/
def setBefore (s : Links α) (p v : Option α) : Links α :=
  match p with
  | none => { s with tail := v }
  | some a => { s with prev := Function.update s.prev a v }

/-- The two links of a node. -/
def setNode (s : Links α) (a : α) (prev next : Option α) : Links α :=
  { s with next := Function.update s.next a next, prev := Function.update s.prev a prev }

/-- A node between two places. -/
def link (s : Links α) (a : α) (prev next : Option α) : Links α :=
  ((s.setNode a prev next).setAfter prev (some a)).setBefore next (some a)

/-- The neighbours of a node are linked to each other. -/
def unlink (s : Links α) (a : α) : Links α := (s.setAfter (s.prev a) (s.next a)).setBefore (s.next a) (s.prev a)

variable {p v x prev next : Option α}

@[simp] theorem after_setAfter : (s.setAfter p v).after x = if x = p then v else s.after x := by
  cases p <;> cases x <;> simp [setAfter, after, Function.update_apply]

@[simp] theorem before_setAfter : (s.setAfter p v).before x = s.before x := by
  cases p <;> cases x <;> rfl

@[simp] theorem after_setBefore : (s.setBefore p v).after x = s.after x := by
  cases p <;> cases x <;> rfl

@[simp] theorem before_setBefore : (s.setBefore p v).before x = if x = p then v else s.before x := by
  cases p <;> cases x <;> simp [setBefore, before, Function.update_apply]

@[simp] theorem after_setNode :
    (s.setNode a prev next).after x = if x = some a then next else s.after x := by
  cases x <;> simp [setNode, after, Function.update_apply]

@[simp] theorem before_setNode :
    (s.setNode a prev next).before x = if x = some a then prev else s.before x := by
  cases x <;> simp [setNode, before, Function.update_apply]

/-- The links of the other nodes. -/
theorem next_link {i : α} (hia : i ≠ a) (hip : prev ≠ some i) : (s.link a prev next).next i = s.next i := by
  change (s.link a prev next).after (some i) = s.after (some i)
  rw [link, after_setBefore, after_setAfter, if_neg hip.symm, after_setNode,
    if_neg fun h => hia (Option.some.inj h)]

theorem next_unlink {i : α} (hip : s.prev a ≠ some i) : (s.unlink a).next i = s.next i := by
  change (s.unlink a).after (some i) = s.after (some i)
  rw [unlink, after_setBefore, after_setAfter, if_neg hip.symm]

namespace Represents

/-- A node linked in between two neighbours. -/
theorem link (h : s.Represents (pre ++ post)) (ha : a ∉ pre ++ post) :
    (s.link a pre.getLast? post.head?).Represents (pre ++ a :: post) := by
  have hpre : pre.getLast? ≠ some a := fun hp => ha (List.mem_append_left post (List.mem_of_getLast? hp))
  have hpost : post.head? ≠ some a := fun hp => ha (List.mem_append_right pre (List.mem_of_head? hp))
  have hrev : (pre ++ a :: post).reverse = post.reverse ++ a :: pre.reverse := by simp
  refine ⟨List.nodup_middle.2 (List.nodup_cons.2 ⟨ha, h.nodup⟩), ?_, ?_⟩
  · refine h.forward.insert h.nodup ha ?_ ?_ fun x hxa hx => ?_
    · rw [Links.link, after_setBefore, after_setAfter, if_neg hpre.symm, after_setNode, if_pos rfl]
    · rw [Links.link, after_setBefore, after_setAfter, if_pos rfl]
    · rw [Links.link, after_setBefore, after_setAfter, if_neg hx, after_setNode, if_neg hxa]
  · rw [hrev]
    have hback := h.backward
    rw [List.reverse_append] at hback
    have hnodup : (post.reverse ++ pre.reverse).Nodup := by
      rw [← List.reverse_append]
      exact List.nodup_reverse.2 h.nodup
    refine hback.insert hnodup (by simpa [or_comm] using ha) ?_ ?_ fun x hxa hx => ?_
    · rw [Links.link, before_setBefore, if_neg hpost.symm, before_setAfter, before_setNode, if_pos rfl,
        List.head?_reverse]
    · rw [Links.link, before_setBefore, List.getLast?_reverse, if_pos rfl]
    · rw [List.getLast?_reverse] at hx
      rw [Links.link, before_setBefore, if_neg hx, before_setAfter, before_setNode, if_neg hxa]

/-- A node taken out. -/
theorem unlink (h : s.Represents (pre ++ a :: post)) : (s.unlink a).Represents (pre ++ post) := by
  have hnext := h.next_eq
  have hprev := h.prev_eq
  have hrev : (pre ++ a :: post).reverse = post.reverse ++ a :: pre.reverse := by simp
  refine ⟨List.Nodup.of_cons (List.nodup_middle.1 h.nodup), ?_, ?_⟩
  · refine h.forward.erase h.nodup ?_ fun x hxa hx => ?_
    · rw [Links.unlink, after_setBefore, after_setAfter, hprev, if_pos rfl]
      rfl
    · rw [Links.unlink, after_setBefore, after_setAfter, hprev, if_neg hx]
  · have hback := h.backward
    have hnodup := List.nodup_reverse.2 h.nodup
    rw [hrev] at hback hnodup
    rw [List.reverse_append]
    refine hback.erase hnodup ?_ fun x hxa hx => ?_
    · rw [Links.unlink, before_setBefore, hnext, List.getLast?_reverse, if_pos rfl]
      rfl
    · rw [List.getLast?_reverse] at hx
      rw [Links.unlink, before_setBefore, hnext, if_neg hx, before_setAfter]

/-- A node moved behind one that comes before it. -/
theorem move {mid : List α} (h : s.Represents (pre ++ b :: mid ++ a :: post)) :
    ((s.unlink a).link a (some b) (mid ++ post).head?).Represents (pre ++ b :: a :: (mid ++ post)) := by
  have hout := h.unlink
  have hsplit : pre ++ b :: mid ++ post = (pre ++ [b]) ++ (mid ++ post) := by simp
  have ha : a ∉ pre ++ b :: mid ++ post := (List.nodup_cons.1 (List.nodup_middle.1 h.nodup)).1
  rw [hsplit] at hout ha
  have hin := hout.link ha
  rw [List.getLast?_concat, List.append_assoc, List.singleton_append] at hin
  exact hin

end Represents

end Links

end QLog
