import QLog.Appender.Segment

/-!
# Appending a segment

The chain of the file format, what the scanner knows about it, and what `append_new_segment` does to it.
-/

namespace QLog.Appender

open Bytes

/-! ## Heads -/

namespace SegHead

theorem ofByte?_segType (s : SegType) : SegType.ofByte? s.toByte = some s := by
  cases s <;> rfl

theorem ofByte?_encType (e : EncType) : EncType.ofByte? e.toByte = some e := by
  cases e <;> rfl

@[simp] theorem length_bytes (h : SegHead) : h.bytes.length = 12 := by
  simp [bytes]

theorem parse_append {bs : List UInt8} (v : ℕ) :
    parse (toLe 8 v ++ bs) = (SegType.ofByte? (bs.getD 0 0)).bind fun segType =>
      (EncType.ofByte? (bs.getD 1 0)).map fun encType => ⟨v % 2 ^ 64, segType, encType⟩ := by
  have h8 : (toLe 8 v ++ bs).getD 8 0 = bs.getD 0 0 := by
    rw [List.getD_eq_getElem?_getD, List.getElem?_append_right (by simp), length_toLe,
      List.getD_eq_getElem?_getD]
  have h9 : (toLe 8 v ++ bs).getD 9 0 = bs.getD 1 0 := by
    rw [List.getD_eq_getElem?_getD, List.getElem?_append_right (by simp), length_toLe,
      List.getD_eq_getElem?_getD]
  rw [parse, h8, h9, List.take_left' (length_toLe 8 v), ofLe_toLe_mod]
  rfl

/-- **A head is read back.** -/
theorem parse_bytes {h : SegHead} (hnext : h.nextSegPos < 2 ^ 64) : parse h.bytes = some h := by
  rw [bytes, parse_append, Nat.mod_eq_of_lt hnext]
  simp only [List.getD_cons_zero, List.getD_cons_succ, ofByte?_segType, ofByte?_encType,
    Option.bind_some, Option.map_some]

/-- Another link leaves the types of a head as they are. -/
theorem parse_relink {bs : List UInt8} {h : SegHead} (hparse : parse bs = some h) {v : ℕ}
    (hv : v < 2 ^ 64) : parse (toLe 8 v ++ bs.drop 8) = some { h with nextSegPos := v } := by
  simp only [parse, Option.bind_eq_some_iff, Option.map_eq_some_iff] at hparse
  obtain ⟨s, hs, e, he, rfl⟩ := hparse
  have h0 : (bs.drop 8).getD 0 0 = bs.getD 8 0 := by
    rw [List.getD_eq_getElem?_getD, List.getElem?_drop, List.getD_eq_getElem?_getD]
  have h1 : (bs.drop 8).getD 1 0 = bs.getD 9 0 := by
    rw [List.getD_eq_getElem?_getD, List.getElem?_drop, List.getD_eq_getElem?_getD]
  rw [parse_append, h0, h1, hs, he, Nat.mod_eq_of_lt hv]
  rfl

/-- The link of a head is in its first eight bytes. -/
theorem toLe_nextSegPos {bs : List UInt8} {h : SegHead} (hparse : parse bs = some h)
    (hlen : 8 ≤ bs.length) : toLe 8 h.nextSegPos = bs.take 8 := by
  simp only [parse, Option.bind_eq_some_iff, Option.map_eq_some_iff] at hparse
  obtain ⟨s, -, e, -, rfl⟩ := hparse
  have := toLe_ofLe (bs.take 8)
  rw [List.length_take, Nat.min_eq_left hlen] at this
  exact this

end SegHead

/-! ## The chain -/

/-- The head at a place of the file. -/
def headAt (file : List UInt8) (s : ℕ) : Option SegHead :=
  if s + 12 ≤ file.length then SegHead.parse (sub file s 12) else none

/-- The segments from `s` on: their heads are linked, and the last has no link. -/
inductive Chain (file : List UInt8) : ℕ → List ℕ → Prop
  | last {s : ℕ} {head : SegHead} (hhead : headAt file s = some head)
      (hnext : head.nextSegPos = noNext) : Chain file s [s]
  | next {s : ℕ} {head : SegHead} {rest : List ℕ} (hhead : headAt file s = some head)
      (hne : head.nextSegPos ≠ noNext) (hle : s + 12 ≤ head.nextSegPos)
      (h : Chain file head.nextSegPos rest) : Chain file s (s :: rest)

/-- The segments of a file begin at these places. -/
def Segments (file : List UInt8) (starts : List ℕ) : Prop :=
  if file.length = 8 then starts = [] else Chain file 8 starts

theorem headAt_eq {file : List UInt8} {s : ℕ} {head : SegHead} (h : headAt file s = some head) :
    s + 12 ≤ file.length ∧ SegHead.parse (sub file s 12) = some head := by
  unfold headAt at h
  split at h
  · rename_i hle
    exact ⟨hle, h⟩
  · cases h

/-- `f'` is the file with one more segment behind it, to which the segment at `last` is linked. -/
structure Extends (file f' : List UInt8) (last : ℕ) : Prop where
  last_le : last + 12 ≤ file.length
  size_lt : file.length < noNext
  room : file.length + 12 ≤ f'.length
  same : ∀ a n, a + n ≤ file.length → (a + n ≤ last ∨ last + 8 ≤ a) → sub f' a n = sub file a n
  link : sub f' last 8 = toLe 8 file.length

namespace Extends

variable {file f' : List UInt8} {last : ℕ}

theorem head_of_le (h : Extends file f' last) {s : ℕ} (hs : s + 12 ≤ last) :
    sub f' s 12 = sub file s 12 :=
  h.same s 12 (by have := h.last_le; omega) (.inl hs)

theorem head_last (h : Extends file f' last) :
    sub f' last 12 = toLe 8 file.length ++ (sub file last 12).drop 8 := by
  rw [show 12 = 8 + 4 by rfl, sub_add, h.link, drop_sub,
    h.same (last + 8) 4 (by have := h.last_le; omega) (.inr le_rfl)]

theorem headAt_of_le (h : Extends file f' last) {s : ℕ} (hs : s + 12 ≤ last) :
    headAt f' s = headAt file s := by
  have h1 := h.last_le
  have h2 := h.room
  rw [headAt, headAt, if_pos (by omega), if_pos (by omega), h.head_of_le hs]

theorem headAt_last (h : Extends file f' last) {head : SegHead} (hhead : headAt file last = some head) :
    headAt f' last = some { head with nextSegPos := file.length } := by
  have h1 := h.last_le
  have h2 := h.room
  have h3 := h.size_lt
  rw [headAt, if_pos (by omega), h.head_last]
  refine SegHead.parse_relink (headAt_eq hhead).2 ?_
  unfold noNext at h3
  omega

end Extends

namespace Chain

variable {file f' : List UInt8} {s last : ℕ} {starts : List ℕ}

theorem getLast_mem (h : Chain file s starts) : ∃ l, starts.getLast? = some l ∧ s ≤ l ∧
    (s = l ∨ s + 12 ≤ l) := by
  induction h with
  | last hhead hnext => exact ⟨_, rfl, le_rfl, .inl rfl⟩
  | next hhead hne hle h ih =>
    obtain ⟨l, hl, h1, -⟩ := ih
    refine ⟨l, ?_, by omega, .inr (by omega)⟩
    rw [List.getLast?_cons, hl]
    rfl

/-- The links determine the chain. -/
theorem unique {starts' : List ℕ} (h : Chain file s starts) (h' : Chain file s starts') :
    starts = starts' := by
  induction h generalizing starts' with
  | @last s head hhead hnext =>
    cases h' with
    | last _ _ => rfl
    | next hhead' hne _ _ =>
      obtain rfl := Option.some.inj (hhead.symm.trans hhead')
      exact absurd hnext hne
  | @next s head rest hhead hne hle h ih =>
    cases h' with
    | last hhead' hnext =>
      obtain rfl := Option.some.inj (hhead.symm.trans hhead')
      exact absurd hnext hne
    | next hhead' _ _ hrest =>
      obtain rfl := Option.some.inj (hhead.symm.trans hhead')
      rw [ih hrest]

/-- Bytes behind the file do not change the chain. -/
theorem append (h : Chain file s starts) (bytes : List UInt8) : Chain (file ++ bytes) s starts := by
  have hat : ∀ {s head}, headAt file s = some head → headAt (file ++ bytes) s = some head := by
    intro s head hhead
    obtain ⟨hle, hparse⟩ := headAt_eq hhead
    rw [headAt, if_pos (by rw [List.length_append]; omega), sub_append_of_le hle, hparse]
  induction h with
  | last hhead hnext => exact .last (hat hhead) hnext
  | next hhead hne hle _ ih => exact .next (hat hhead) hne hle ih

/-- **The chain of a file with one more segment.** -/
theorem extend (h : Chain file s starts) (hlast : starts.getLast? = some last)
    (hext : Extends file f' last) {new : SegHead} (hnew : headAt f' file.length = some new)
    (hend : new.nextSegPos = noNext) : Chain f' s (starts ++ [file.length]) := by
  have h1 := hext.last_le
  have h2 := hext.size_lt
  induction h with
  | @last s head hhead hnext =>
    obtain rfl : s = last := Option.some.inj hlast
    exact .next (hext.headAt_last hhead) (Nat.ne_of_lt h2) h1 (.last hnew hend)
  | @next s head rest hhead hne hle h ih =>
    obtain ⟨l, hl, h3, -⟩ := h.getLast_mem
    rw [List.getLast?_cons, hl] at hlast
    obtain rfl : l = last := Option.some.inj hlast
    exact .next ((hext.headAt_of_le (by omega)).trans hhead) hne hle (ih hl)

end Chain

/-! ## The walk of the scanner -/

/-- Below 2 ^ 31 the scanner reads the head that stands at the place. -/
theorem readSegHead_eq {file : List UInt8} {cur : ℕ} (hcur : cur < 2 ^ 31)
    (hle : cur + 12 ≤ file.length) :
    readSegHead file cur =
      (SegHead.parse (sub file cur 12)).map fun head => (head, sub file (cur + 12) 8) := by
  have hmod : cur % 2 ^ 32 = cur := Nat.mod_eq_of_lt (by omega)
  obtain ⟨r, hr⟩ : ∃ r, (Reader.start file).seekReadFileAbsolute cur = some r := by
    rw [Reader.seekReadFileAbsolute, if_pos (by omega)]
    exact ⟨_, rfl⟩
  obtain ⟨hat, hfile, hpos, -⟩ := Reader.seekReadFileAbsolute_at hr
  change r.file = file at hfile
  rw [hmod] at hat
  obtain ⟨h1, hat', hfile', hpos', -⟩ := hat.readWithCache 12
  have hmin : min 12 (file.length - cur) = 12 := by omega
  rw [hfile, hpos, hmin] at h1 hat' hpos'
  obtain ⟨h2, -⟩ := hat'.readWithCache 8
  rw [hfile', hpos', hfile, sub_min] at h2
  rw [readSegHead, hr, Option.bind_some, h1, h2, if_pos (length_sub_of_le hle)]

/-- A position that the cast to `int32_t` makes negative is not reached. -/
theorem readSegHead_eq_none {file : List UInt8} {cur : ℕ} (hcur : 2 ^ 31 ≤ cur) (h : cur < 2 ^ 32) :
    readSegHead file cur = none := by
  have hmod : cur % 2 ^ 32 = cur := Nat.mod_eq_of_lt h
  rw [readSegHead, Reader.seekReadFileAbsolute, if_neg (by omega), Option.bind_none]

/-- The walk of the scanner over the segments that begin at the listed places. -/
inductive Scan (file : List UInt8) : ℕ → Topology → List ℕ → Topology → Prop
  | last {cur m : ℕ} {t t' : Topology} {head : SegHead}
      (hseg : scanSegment file cur t = some (head, m, t')) (hnext : head.nextSegPos = noNext)
      (hle : m ≤ file.length) : Scan file cur t [cur] t'
  | next {cur m : ℕ} {t t' t'' : Topology} {head : SegHead} {starts : List ℕ}
      (hseg : scanSegment file cur t = some (head, m, t')) (hne : head.nextSegPos ≠ noNext)
      (hm : m ≤ head.nextSegPos) (hle : head.nextSegPos + 12 ≤ file.length)
      (h : Scan file head.nextSegPos t' starts t'') : Scan file cur t (cur :: starts) t''

/-- What the loop returns is the end of a walk. -/
theorem scan_of_scanLoop {file : List UInt8} {cur : ℕ} {t t' : Topology}
    (h : scanLoop file cur t = some t') : ∃ starts, Scan file cur t starts t' := by
  induction cur, t using scanLoop.induct file with
  | case1 cur t hseg =>
    rw [scanLoop, hseg] at h
    cases h
  | case2 cur t head m u hseg hnext hle =>
    rw [scanLoop, hseg] at h
    simp only [hnext, if_true, hle] at h
    obtain rfl := Option.some.inj h
    exact ⟨_, .last hseg hnext hle⟩
  | case3 cur t head m u hseg hnext hle =>
    rw [scanLoop, hseg] at h
    simp only [hnext, if_true, hle, if_false] at h
    cases h
  | case4 cur t head m u hseg hne hbad =>
    rw [scanLoop, hseg] at h
    simp only [hne, if_false, hbad, dite_true] at h
    cases h
  | case5 cur t head m u hseg hne hok ih =>
    rw [scanLoop, hseg] at h
    simp only [hne, if_false, hok, dite_false] at h
    obtain ⟨starts, hs⟩ := ih h
    exact ⟨_, .next hseg hne (by omega) (by omega) hs⟩

namespace Scan

variable {file f' : List UInt8} {cur last : ℕ} {t t' : Topology} {starts : List ℕ}

theorem getLast (h : Scan file cur t starts t') :
    starts.getLast? = some t'.lastSegmentStartPos ∧ cur ≤ t'.lastSegmentStartPos ∧
      (cur = t'.lastSegmentStartPos ∨ cur + 12 ≤ t'.lastSegmentStartPos) ∧
      t'.lastSegmentStartPos + 12 ≤ file.length ∧ t'.hasSegment = true := by
  induction h with
  | @last cur m t t' head hseg hnext hle =>
    obtain ⟨-, h2, h3, h4⟩ := le_of_scanSegment hseg
    exact ⟨by rw [h3]; rfl, h3.ge, .inl h3.symm, by omega, h4⟩
  | @next cur m t t' t'' head starts hseg hne hm hle h ih =>
    obtain ⟨h1, h2, -, h4, h5⟩ := ih
    have h6 := (le_of_scanSegment hseg).1
    refine ⟨?_, by omega, .inr (by omega), h4, h5⟩
    rw [List.getLast?_cons, h1]
    rfl

/-- The head that the scanner found stands in the file. -/
theorem headAt_of_scanSegment {m : ℕ} {head : SegHead} (hcur : cur < 2 ^ 31)
    (h : scanSegment file cur t = some (head, m, t')) : headAt file cur = some head := by
  have hle := (le_of_scanSegment h).2.1
  rw [scanSegment, if_neg (by omega), readSegHead_eq hcur hle] at h
  simp only [Option.bind_eq_some_iff, Option.map_eq_some_iff, Prod.exists, Prod.mk.injEq] at h
  obtain ⟨head', fp, ⟨u, hu, rfl, rfl⟩, m', v, -, rfl, -⟩ := h
  rw [headAt, if_pos hle, hu]

/-- **The walk of the scanner is the chain of the file.** -/
theorem chain (h : Scan file cur t starts t') (hlast : t'.lastSegmentStartPos < 2 ^ 31) :
    Chain file cur starts := by
  induction h with
  | @last cur m t t' head hseg hnext hle =>
    rw [(le_of_scanSegment hseg).2.2.1] at hlast
    exact .last (headAt_of_scanSegment hlast hseg) hnext
  | @next cur m t t' t'' head starts hseg hne hm hle h ih =>
    have h1 := h.getLast.2.1
    have h2 := (le_of_scanSegment hseg).1
    exact .next (headAt_of_scanSegment (by omega) hseg) hne (by omega) (ih hlast)

end Scan

/-! ## The writes -/

/-- Every write behind a file of this size is complete. -/
def Complete : ℕ → List (List UInt8) → List ℕ → Prop
  | _, [], _ => True
  | size, chunk :: chunks, ks =>
    chunk.length ≤ ks.headD 0 ∧ chunk.length ≤ maxFileSize - size ∧
      Complete (size + chunk.length) chunks ks.tail

theorem directWrite_end (file data : List UInt8) (k : ℕ) :
    directWrite file file.length data k =
      (file ++ data.take (min (min k data.length) (maxFileSize - file.length)),
        min (min k data.length) (maxFileSize - file.length)) := by
  rw [directWrite, overwrite_end]

/-- The writes behind the file: they leave the file in front of them as it is, and they are all made
exactly when each of them is complete. -/
theorem writeChunks_spec (file : List UInt8) (chunks : List (List UInt8)) (ks : List ℕ) :
    (writeChunks file chunks ks).1.take file.length = file ∧
      ((writeChunks file chunks ks).2 = true ↔ Complete file.length chunks ks) ∧
      ((writeChunks file chunks ks).2 = true →
        (writeChunks file chunks ks).1 = file ++ chunks.flatten) := by
  induction chunks generalizing file ks with
  | nil => simp [writeChunks, Complete]
  | cons chunk chunks ih =>
    simp only [writeChunks, directWrite_end, Complete]
    split
    · rename_i hfull
      rw [hfull, List.take_length]
      obtain ⟨h1, h2, h3⟩ := ih (file ++ chunk) ks.tail
      rw [List.length_append] at h1 h2
      refine ⟨?_, ?_, fun h => ?_⟩
      · have := congrArg (List.take file.length) h1
        rwa [List.take_take, Nat.min_eq_left (Nat.le_add_right _ _), List.take_left] at this
      · rw [h2]
        exact ⟨fun h => ⟨by omega, by omega, h⟩, fun h => h.2.2⟩
      · rw [h3 h, List.flatten_cons, List.append_assoc]
    · rename_i hcut
      refine ⟨List.take_left, ⟨fun h => ?_, fun h => ?_⟩, fun h => ?_⟩
      · cases h
      · omega
      · cases h

/-- The patch of a link: of the eight bytes `k` are written. -/
theorem directWrite_link {file seg : List UInt8} {last : ℕ} (v k : ℕ) (hlast : last + 12 ≤ file.length)
    (hmax : file.length ≤ maxFileSize) :
    directWrite (file ++ seg) last (toLe 8 v) k =
      (overwrite file last (toLe (min k 8) v) ++ seg, min k 8) := by
  have hmin : min (min k (toLe 8 v).length) (maxFileSize - last) = min k 8 := by
    rw [length_toLe]
    omega
  rw [directWrite, hmin, take_toLe (Nat.min_le_right _ _), overwrite_append]
  rw [length_toLe]
  omega

/-! ## `append_new_segment` -/

/-- The call gets as far as the link: the scanner accepts the file, the appender may add a segment, and
the writes behind the file are complete. -/
structure Reaches (cfg : Config) (file : List UInt8) (type : SegType) (keys : Option Keys) (ks : List ℕ)
    (t : Topology) (chunks : List (List UInt8)) : Prop where
  scan : scanSegmentTopology cfg file = some t
  admits : cfg.Admits t
  new : newSegment cfg type keys = some chunks
  complete : Complete file.length chunks ks

section Append

variable {cfg : Config} {file : List UInt8} {type : SegType} {keys : Option Keys} {ks : List ℕ}
  {link : ℕ} {t : Topology} {chunks : List (List UInt8)}

theorem scanSegmentTopology_eq_some (h : scanSegmentTopology cfg file = some t) :
    (file.length = 8 ∧ t = Topology.empty) ∨
      (8 < file.length ∧ scanLoop file 8 Topology.empty = some t) := by
  unfold scanSegmentTopology at h
  split at h
  · cases h
  · simp only [Option.bind_eq_some_iff] at h
    obtain ⟨r, -, h⟩ := h
    split at h
    · cases h
    · split at h
      · cases h
      · split at h
        · rename_i hlen
          exact .inl ⟨hlen, (Option.some.inj h).symm⟩
        · exact .inr ⟨by omega, h⟩

/-- A new segment begins with its head, which has no link. -/
theorem newSegment_eq (h : newSegment cfg type keys = some chunks) :
    ∃ rest, chunks = (⟨noNext, type, cfg.encType⟩ : SegHead).bytes :: rest := by
  unfold newSegment at h
  simp only at h
  split at h
  · exact ⟨[], (Option.some.inj h).symm⟩
  · rw [Option.map_eq_some_iff] at h
    obtain ⟨k, -, rfl⟩ := h
    exact ⟨_, rfl⟩

namespace Reaches

theorem size_le (h : Reaches cfg file type keys ks t chunks) :
    file.length + 12 ≤ maxFileSize := by
  obtain ⟨rest, rfl⟩ := newSegment_eq h.new
  have := h.complete.2.1
  rw [SegHead.length_bytes] at this
  unfold maxFileSize at *
  omega

/-- The head of the new segment stands behind the file. -/
theorem headAt_new (h : Reaches cfg file type keys ks t chunks) {f : List UInt8}
    (hf : f.length = file.length) :
    headAt (f ++ chunks.flatten) file.length = some ⟨noNext, type, cfg.encType⟩ ∧
      file.length + 12 ≤ (f ++ chunks.flatten).length := by
  obtain ⟨rest, rfl⟩ := newSegment_eq h.new
  have hlen : file.length + 12 ≤ (f ++ ((⟨noNext, type, cfg.encType⟩ : SegHead).bytes ::
      rest).flatten).length := by
    rw [List.length_append, List.flatten_cons, List.length_append, SegHead.length_bytes]
    omega
  refine ⟨?_, hlen⟩
  rw [headAt, if_pos hlen, ← hf, sub_append_right, List.flatten_cons,
    List.take_left' (SegHead.length_bytes _)]
  exact SegHead.parse_bytes (show noNext < 2 ^ 64 by decide)

end Reaches

/-- **What a call can do**: it fails early and leaves the file, it adds the first segment, or it gets as
far as the link. -/
theorem appendNewSegment_cases (cfg : Config) (file : List UInt8) (type : SegType)
    (keys : Option Keys) (ks : List ℕ) (link : ℕ) :
    (appendNewSegment cfg file type keys ks link = (false, file) ∧
      ∀ t chunks, ¬ Reaches cfg file type keys ks t chunks) ∨
    ∃ t chunks, Reaches cfg file type keys ks t chunks ∧
      ((file.length = 8 ∧ t = Topology.empty ∧
        appendNewSegment cfg file type keys ks link = (true, file ++ chunks.flatten)) ∨
      (∃ starts, Scan file 8 Topology.empty starts t ∧
        appendNewSegment cfg file type keys ks link =
          if 8 ≤ link then
            (true, overwrite file t.lastSegmentStartPos (toLe 8 file.length) ++ chunks.flatten)
          else (false, overwrite file t.lastSegmentStartPos (toLe link file.length)))) := by
  unfold appendNewSegment
  rcases hscan : scanSegmentTopology cfg file with _ | t
  · exact .inl ⟨rfl, fun t chunks h => (by cases hscan.symm.trans h.scan)⟩
  simp only
  by_cases hadm : cfg.Admits t
  swap
  · rw [if_neg hadm]
    refine .inl ⟨rfl, fun u chunks h => hadm ?_⟩
    obtain rfl : t = u := Option.some.inj (hscan.symm.trans h.scan)
    exact h.admits
  rw [if_pos hadm]
  rcases hnew : newSegment cfg type keys with _ | chunks
  · exact .inl ⟨rfl, fun u chunks h => (by cases hnew.symm.trans h.new)⟩
  simp only
  obtain ⟨hback, hiff, hall⟩ := writeChunks_spec file chunks ks
  rcases hw : (writeChunks file chunks ks).2 with _ | _
  · rw [if_neg (by simp), hback]
    refine .inl ⟨rfl, fun u cs h => ?_⟩
    obtain rfl : chunks = cs := Option.some.inj (hnew.symm.trans h.new)
    rw [hiff.2 h.complete] at hw
    cases hw
  -- all writes behind the file are made
  have hreach : Reaches cfg file type keys ks t chunks := ⟨hscan, hadm, hnew, hiff.1 hw⟩
  refine .inr ⟨t, chunks, hreach, ?_⟩
  rw [if_pos rfl, hall hw]
  rcases scanSegmentTopology_eq_some hscan with ⟨hlen, rfl⟩ | ⟨hlen, hloop⟩
  · exact .inl ⟨hlen, rfl, by rw [if_neg (by decide)]⟩
  · obtain ⟨starts, hwalk⟩ := scan_of_scanLoop hloop
    obtain ⟨-, -, -, h12, hseg⟩ := hwalk.getLast
    have hmax := hreach.size_le
    refine .inr ⟨starts, hwalk, ?_⟩
    rw [if_pos hseg, directWrite_link _ _ h12 (by omega)]
    rcases le_or_gt 8 link with hlink | hlink
    · rw [if_pos (by omega), if_pos hlink, Nat.min_eq_right hlink]
    · rw [if_neg (by omega), if_neg (by omega), Nat.min_eq_left hlink.le]
      have hlen' : (overwrite file t.lastSegmentStartPos (toLe link file.length)).length =
          file.length := by
        rw [length_overwrite (by omega), length_toLe]
        omega
      rw [List.take_left' hlen']

end Append

/-- The link is cut: the call gets as far as the link of the segment before, and fewer than eight bytes
of the patch are written, of which some differ from the bytes of `UINT64_MAX` that stand there. -/
def LinkCut (cfg : Config) (file : List UInt8) (type : SegType) (keys : Option Keys) (ks : List ℕ)
    (link : ℕ) : Prop :=
  (∃ t chunks, Reaches cfg file type keys ks t chunks) ∧ file.length ≠ 8 ∧ link < 8 ∧
    file.length % 256 ^ link ≠ 256 ^ link - 1

/-- A call is atomic: it succeeds and the chain has one more segment, with all old bytes outside the
links as they were, or it fails and the file is what it was. -/
def Atomic (file : List UInt8) (r : Bool × List UInt8) : Prop :=
  if r.1 then
    ∃ starts, Segments file starts ∧ Segments r.2 (starts ++ [file.length]) ∧
      ∀ i < file.length, (∀ s ∈ starts, i < s ∨ s + 8 ≤ i) → r.2[i]? = file[i]?
  else r.2 = file

theorem noNext_mod {k : ℕ} (h : k ≤ 8) : noNext % 256 ^ k = 256 ^ k - 1 := by
  interval_cases k <;> rfl

theorem Chain.head_last {file : List UInt8} {s last : ℕ} {starts : List ℕ} (h : Chain file s starts)
    (hlast : starts.getLast? = some last) :
    ∃ head, headAt file last = some head ∧ head.nextSegPos = noNext := by
  induction h with
  | @last s head hhead hnext =>
    obtain rfl : s = last := Option.some.inj hlast
    exact ⟨head, hhead, hnext⟩
  | @next s head rest hhead hne hle h ih =>
    obtain ⟨l, hl, -⟩ := h.getLast_mem
    rw [List.getLast?_cons, hl] at hlast
    obtain rfl : l = last := Option.some.inj hlast
    exact ih hl

/-- A cut patch leaves the file as it was exactly when its bytes are those of `UINT64_MAX`. -/
theorem overwrite_link_eq_self_iff {file : List UInt8} {s last : ℕ} {starts : List ℕ}
    (h : Chain file s starts) (hlast : starts.getLast? = some last) {v k : ℕ} (hk : k < 8) :
    overwrite file last (toLe k v) = file ↔ v % 256 ^ k = 256 ^ k - 1 := by
  obtain ⟨head, hhead, hnext⟩ := h.head_last hlast
  obtain ⟨hle, hparse⟩ := headAt_eq hhead
  have hold : sub file last k = toLe k noNext := by
    have h8 := SegHead.toLe_nextSegPos hparse (by rw [length_sub_of_le hle]; omega)
    rw [hnext] at h8
    rw [← take_toLe hk.le, h8, take_sub, take_sub]
    congr 1
    omega
  rw [overwrite_eq_self_iff (by rw [length_toLe]; omega), length_toLe, hold, toLe_inj,
    noNext_mod hk.le]
  exact eq_comm

/-- The patched file with the new segment behind it. -/
theorem extends_overwrite {file seg : List UInt8} {last : ℕ} (hlast : last + 12 ≤ file.length)
    (hmax : file.length < noNext) (hseg : 12 ≤ seg.length) :
    Extends file (overwrite file last (toLe 8 file.length) ++ seg) last := by
  have hlen : (overwrite file last (toLe 8 file.length)).length = file.length := by
    rw [length_overwrite (by omega), length_toLe]
    omega
  refine ⟨hlast, hmax, ?_, fun a n hle hout => ?_, ?_⟩
  · rw [List.length_append, hlen]
    omega
  · rw [sub_append_of_le (by omega), sub_overwrite_of_disjoint (by omega)]
    rw [length_toLe]
    exact hout
  · rw [sub_append_of_le (by omega)]
    have := sub_overwrite_self (toLe 8 file.length) (show last ≤ file.length by omega)
    rwa [length_toLe] at this

/-- **The outcome of a call** on a file with the chain `starts`, below 2 ^ 31: the file is extended by a
segment, or it fails, and then nothing is changed outside the link of the last segment. -/
theorem appendNewSegment_chain {file : List UInt8} {starts : List ℕ} {last : ℕ}
    (hchain : Chain file 8 starts) (hlast : starts.getLast? = some last)
    (hlt : file.length < 2 ^ 31) (cfg : Config) (type : SegType) (keys : Option Keys) (ks : List ℕ)
    (link : ℕ) :
    (∃ f', appendNewSegment cfg file type keys ks link = (true, f') ∧ Extends file f' last ∧
      Chain f' 8 (starts ++ [file.length])) ∨
    (∃ f', appendNewSegment cfg file type keys ks link = (false, f') ∧ f'.length = file.length ∧
      ∀ a n, a + n ≤ file.length → (a + n ≤ last ∨ last + 8 ≤ a) → sub f' a n = sub file a n) := by
  rcases appendNewSegment_cases cfg file type keys ks link with
    ⟨heq, -⟩ | ⟨t, chunks, hreach, ⟨hlen, -, -⟩ | ⟨starts', hwalk, heq⟩⟩
  · exact .inr ⟨file, heq, rfl, fun _ _ _ _ => rfl⟩
  · -- a file with a segment is longer than its header
    cases hchain with
    | last hhead _ => exact absurd (headAt_eq hhead).1 (by omega)
    | next hhead _ _ _ => exact absurd (headAt_eq hhead).1 (by omega)
  · obtain ⟨hlast', h8, -, h12, -⟩ := hwalk.getLast
    obtain rfl := hchain.unique (hwalk.chain (by omega))
    obtain rfl := Option.some.inj (hlast.symm.trans hlast')
    have hmax := hreach.size_le
    rcases le_or_gt 8 link with hlink | hlink
    · rw [if_pos hlink] at heq
      have hlen' : (overwrite file t.lastSegmentStartPos (toLe 8 file.length)).length =
          file.length := by
        rw [length_overwrite (by omega), length_toLe]
        omega
      obtain ⟨hhead, hroom⟩ := hreach.headAt_new hlen'
      have hext : Extends file (overwrite file t.lastSegmentStartPos (toLe 8 file.length) ++
          chunks.flatten) t.lastSegmentStartPos := by
        refine extends_overwrite h12 ?_ ?_
        · unfold maxFileSize noNext at *
          omega
        · rw [List.length_append, hlen'] at hroom
          omega
      exact .inl ⟨_, heq, hext, hchain.extend hlast hext hhead rfl⟩
    · rw [if_neg (by omega)] at heq
      refine .inr ⟨_, heq, ?_, fun a n _ hout => ?_⟩
      · rw [length_overwrite (by omega), length_toLe]
        omega
      · refine sub_overwrite_of_disjoint (by omega) ?_
        rw [length_toLe]
        omega

/-- **Appending a segment is atomic unless the link is cut.** The segments that the scanner finds begin
below 2 ^ 31; it looks for the others at the wrong place. -/
theorem append_new_segment_atomic (cfg : Config) (file : List UInt8) (type : SegType)
    (keys : Option Keys) (ks : List ℕ) (link : ℕ)
    (hread : ∀ t, scanSegmentTopology cfg file = some t → t.lastSegmentStartPos < 2 ^ 31) :
    Atomic file (appendNewSegment cfg file type keys ks link) ↔
      ¬ LinkCut cfg file type keys ks link := by
  rcases appendNewSegment_cases cfg file type keys ks link with
    ⟨heq, hnot⟩ | ⟨t, chunks, hreach, ⟨hlen, -, heq⟩ | ⟨starts, hwalk, heq⟩⟩
  · rw [heq]
    refine iff_of_true (by simp [Atomic]) fun hcut => ?_
    obtain ⟨t, chunks, h⟩ := hcut.1
    exact hnot t chunks h
  · -- the first segment of a new file
    rw [heq]
    refine iff_of_true ?_ fun hcut => hcut.2.1 hlen
    obtain ⟨hhead, hroom⟩ := hreach.headAt_new (f := file) rfl
    refine ⟨[], by rw [Segments, if_pos hlen], ?_, fun i hi _ => List.getElem?_append_left hi⟩
    change Segments (file ++ chunks.flatten) _
    rw [Segments, if_neg (by omega), List.nil_append, hlen]
    rw [hlen] at hhead
    exact .last hhead rfl
  · obtain ⟨hlast, h8, -, h12, -⟩ := hwalk.getLast
    have hchain := hwalk.chain (hread t hreach.scan)
    have hne : file.length ≠ 8 := by omega
    have hmax := hreach.size_le
    rw [heq]
    rcases le_or_gt 8 link with hlink | hlink
    · rw [if_pos hlink]
      refine iff_of_true ?_ fun hcut => absurd hcut.2.2.1 (by omega)
      have hlen' : (overwrite file t.lastSegmentStartPos (toLe 8 file.length)).length =
          file.length := by
        rw [length_overwrite (by omega), length_toLe]
        omega
      obtain ⟨hhead, hroom⟩ := hreach.headAt_new hlen'
      have hext : Extends file (overwrite file t.lastSegmentStartPos (toLe 8 file.length) ++
          chunks.flatten) t.lastSegmentStartPos := by
        refine extends_overwrite h12 ?_ ?_
        · unfold maxFileSize noNext at *
          omega
        · rw [List.length_append, hlen'] at hroom
          omega
      refine ⟨starts, ?_, ?_, fun i hi hout => ?_⟩
      · rwa [Segments, if_neg hne]
      · change Segments (overwrite file _ _ ++ chunks.flatten) _
        rw [Segments, if_neg (by omega)]
        exact hchain.extend hlast hext hhead rfl
      · have := hout _ (List.mem_of_getLast? hlast)
        rw [List.getElem?_append_left (by omega)]
        refine getElem?_overwrite_of_not_mem (by omega) ?_
        rwa [length_toLe]
    · rw [if_neg (by omega)]
      change overwrite file t.lastSegmentStartPos (toLe link file.length) = file ↔ _
      rw [overwrite_link_eq_self_iff hchain hlast hlink]
      refine ⟨fun h hcut => hcut.2.2.2 h, fun h => ?_⟩
      by_contra hbyte
      exact h ⟨⟨t, chunks, hreach⟩, hne, hlink, hbyte⟩

/-- A compressed log that is not encrypted. -/
def plainConfig : Config := ⟨10, 2, .plaintext, 0, false⟩

/-- The file header, one segment and one byte of payload. -/
def plainFile : List UInt8 :=
  toLe 4 10 ++ [2, 0, 0, 0] ++ (⟨noNext, .normal, .plaintext⟩ : SegHead).bytes ++ [7]

theorem scan_plainFile :
    scanSegmentTopology plainConfig plainFile = some ⟨true, true, false, 0, 8⟩ := by
  have hseg : scanSegment plainFile 8 Topology.empty =
      some (⟨noNext, .normal, .plaintext⟩, 20, ⟨true, true, false, 0, 8⟩) := by decide
  have hloop : scanLoop plainFile 8 Topology.empty = some ⟨true, true, false, 0, 8⟩ := by
    rw [scanLoop, hseg]
    rfl
  unfold scanSegmentTopology
  rw [hloop]
  rfl

theorem append_new_segment_atomic_plainFile :
    Atomic plainFile (appendNewSegment plainConfig plainFile .recoveryByLogBuffer none [12] 8) ↔
      ¬ LinkCut plainConfig plainFile .recoveryByLogBuffer none [12] 8 := by
  refine append_new_segment_atomic _ _ _ _ _ _ fun t ht => ?_
  obtain rfl := Option.some.inj (scan_plainFile.symm.trans ht)
  decide

/-- One byte of the link is written: the call fails, and the first segment now has the link
0xFFFFFFFFFFFFFF15. -/
theorem append_new_segment_linkCut :
    ¬ Atomic plainFile (appendNewSegment plainConfig plainFile .recoveryByLogBuffer none [12] 1) := by
  have heq : appendNewSegment plainConfig plainFile .recoveryByLogBuffer none [12] 1 =
      (false, overwrite plainFile 8 [21]) := by
    rw [appendNewSegment, scan_plainFile]
    rfl
  rw [heq]
  change ¬ overwrite plainFile 8 [21] = plainFile
  decide

end QLog.Appender
