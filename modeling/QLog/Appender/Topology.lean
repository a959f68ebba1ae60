import QLog.Appender.SegmentKeys

/-!
# The chain that the scanner decides

`SegChain` is the file format's chain of segments: a list of places with their heads, where every link
leads behind the head and the keys of its segment, and the last link is `UINT64_MAX`. What
`scan_segment_topology` reports of such a chain is `Topology.of`.

The scanner walks the chain with a topology in its hand; `Topology.add` is what one segment does to it. The
scanner also wants the keys of the last segment inside the file, which no link says.
-/

namespace QLog.Appender

open Bytes

/-- A segment of a file: its place and its head. -/
structure Seg where
  start : ℕ
  head : SegHead
deriving DecidableEq

namespace Seg

def Encrypted (s : Seg) : Prop := s.head.encType = .rsaAesXor

instance (s : Seg) : Decidable s.Encrypted := inferInstanceAs (Decidable (_ = _))

/-- The place behind the head, and behind the keys of an encrypted segment. -/
def bodyEnd (s : Seg) : ℕ := s.start + 12 + if s.Encrypted then encryptionKeysSize else 0

/-- The fingerprint of the key, behind the head of an encrypted segment. -/
def fingerprint (file : List UInt8) (s : Seg) : UInt64 := .ofNat (ofLe (sub file (s.start + 12) 8))

/-- The link of a segment leads to another one behind it. -/
def Linked (a b : Seg) : Prop :=
  a.head.nextSegPos ≠ noNext ∧ b.start = a.head.nextSegPos ∧ a.bodyEnd ≤ b.start

/-- The two are not encrypted with different keys. -/
def SameKey (file : List UInt8) (a b : Seg) : Prop :=
  a.Encrypted → b.Encrypted → a.fingerprint file = b.fingerprint file

end Seg

/-- The segments of a file from a place on: the heads are in the file and have valid types, they are linked,
and the encrypted ones share a key. -/
structure SegChain (file : List UInt8) (first : ℕ) (segs : List Seg) : Prop where
  first : segs.head?.map Seg.start = some first
  heads : ∀ s ∈ segs, headAt file s.start = some s.head
  linked : segs.IsChain Seg.Linked
  last : segs.getLast?.map (·.head.nextSegPos) = some noNext
  sameKey : ∀ a ∈ segs, ∀ b ∈ segs, a.SameKey file b

/-- The head and the keys of every segment are inside the file. -/
def KeysInside (file : List UInt8) (segs : List Seg) : Prop := ∀ s ∈ segs, s.bodyEnd ≤ file.length

/-- The topology of a chain. -/
def Topology.of (file : List UInt8) (segs : List Seg) : Topology where
  hasSegment := !segs.isEmpty
  allSegmentsArePlaintext := segs.all fun s => decide ¬s.Encrypted
  hasEncryptedSegment := segs.any fun s => decide s.Encrypted
  rsaKeyFingerprint := ((segs.find? fun s => decide s.Encrypted).map (Seg.fingerprint file)).getD 0
  lastSegmentStartPos := (segs.getLast?.map Seg.start).getD 0

/-- The file header is the one of this format. -/
def HeaderMatches (cfg : Config) (file : List UInt8) : Prop :=
  8 ≤ file.length ∧ ofLe ((sub file 0 8).take 4) = cfg.version ∧ (sub file 0 8).getD 4 0 = cfg.format

/-- The places to which links lead from the first segment, as far as they leave room. -/
inductive Reached (file : List UInt8) : ℕ → Prop
  | first : Reached file 8
  | next {s : Seg} (h : Reached file s.start) (hhead : headAt file s.start = some s.head)
      (hlink : s.bodyEnd ≤ s.head.nextSegPos) (hroom : s.head.nextSegPos + 12 ≤ file.length) :
      Reached file s.head.nextSegPos

variable {file : List UInt8} {cur m : ℕ} {head : SegHead} {t t' : Topology} {s : Seg} {segs : List Seg}

theorem Reached.le (h : Reached file cur) : cur = 8 ∨ cur + 12 ≤ file.length := by
  cases h with
  | first => exact .inl rfl
  | next _ _ _ hroom => exact .inr hroom

theorem Reached.lt (h : Reached file cur) (hsize : file.length < 2 ^ 31) : cur < 2 ^ 31 := by
  rcases h.le with rfl | hle
  · norm_num
  · omega

/-! ## One segment -/

/-- What the scanner notes of a segment. -/
def Topology.add (file : List UInt8) (t : Topology) (s : Seg) : Topology where
  hasSegment := true
  allSegmentsArePlaintext := t.allSegmentsArePlaintext && decide ¬s.Encrypted
  hasEncryptedSegment := t.hasEncryptedSegment || decide s.Encrypted
  rsaKeyFingerprint :=
    if s.Encrypted ∧ t.hasEncryptedSegment = false then s.fingerprint file else t.rsaKeyFingerprint
  lastSegmentStartPos := s.start

/-- The segment has the key that the scanner has found before. -/
def Topology.Allows (file : List UInt8) (t : Topology) (s : Seg) : Prop :=
  s.Encrypted → t.hasEncryptedSegment = true → t.rsaKeyFingerprint = s.fingerprint file

theorem Seg.not_encrypted : ¬s.Encrypted ↔ s.head.encType = .plaintext := by
  unfold Encrypted
  cases s.head.encType with
  | plaintext => simp
  | rsaAesXor => simp

/-- The keys of a segment: they are inside the file, and the fingerprint is the one found before. -/
theorem scanKeys_iff (hle : s.start + 12 ≤ file.length) :
    scanKeys file s.start s.head (sub file (s.start + 12) 8) t = some (m, t') ↔
      m = s.bodyEnd ∧ s.bodyEnd ≤ file.length ∧ t.Allows file s ∧
        t' = { t with
          hasEncryptedSegment := t.hasEncryptedSegment || decide s.Encrypted
          rsaKeyFingerprint := (t.add file s).rsaKeyFingerprint } := by
  unfold scanKeys
  cases henc : s.head.encType with
  | plaintext =>
    have hplain : ¬s.Encrypted := by
      intro h
      cases henc.symm.trans h
    have hend : s.bodyEnd = s.start + 12 := by rw [Seg.bodyEnd, if_neg hplain]
    have hallows : t.Allows file s := fun h => absurd h hplain
    simp only [Option.some.injEq, Prod.mk.injEq, hend, hallows, hle, true_and, Topology.add, hplain,
      false_and, if_false, decide_false, Bool.or_false]
    rw [eq_comm (b := m), eq_comm (b := t')]
  | rsaAesXor =>
    have henc : s.Encrypted := henc
    have hend : s.bodyEnd = s.start + 12 + encryptionKeysSize := by rw [Seg.bodyEnd, if_pos henc]
    have hkeys : 8 ≤ encryptionKeysSize := by decide
    simp only [hend, Topology.add, Topology.Allows, henc, decide_true, Bool.or_true, forall_true_left,
      true_and]
    split
    · simp only [reduceCtorEq, false_iff]
      omega
    · rename_i hin
      rw [if_neg (by rw [length_sub_of_le (by omega)]; simp)]
      have hin : s.start + 12 + encryptionKeysSize ≤ file.length := by omega
      cases hhas : t.hasEncryptedSegment with
      | false =>
        simp only [if_true, Option.some.injEq, Prod.mk.injEq, hin, true_and, Bool.false_eq_true,
          false_imp_iff, Seg.fingerprint]
        rw [eq_comm (b := m), eq_comm (b := t')]
      | true =>
        simp only [Bool.true_eq_false, if_false, hin, true_and, forall_true_left, Seg.fingerprint]
        split
        · rename_i hne
          simp [hne]
        · rename_i heq
          simp only [Option.some.injEq, Prod.mk.injEq, not_not.1 heq, true_and]
          rw [eq_comm (b := m), eq_comm (b := t'), ← hhas, ← not_not.1 heq]

/-- **A turn of the scanner** on a place below 2 ^ 31. -/
theorem scanSegment_iff (hcur : cur < 2 ^ 31) :
    scanSegment file cur t = some (head, m, t') ↔
      headAt file cur = some head ∧ m = Seg.bodyEnd ⟨cur, head⟩ ∧ m ≤ file.length ∧
        t.Allows file ⟨cur, head⟩ ∧ t' = t.add file ⟨cur, head⟩ := by
  unfold scanSegment headAt
  by_cases hle : cur + 12 ≤ file.length
  · rw [if_neg (by omega), if_pos hle, readSegHead_eq hcur hle]
    cases hparse : SegHead.parse (sub file cur 12) with
    | none => simp
    | some head' =>
      simp only [Option.map_some, Option.bind_some, Option.map_eq_some_iff, Prod.exists, Prod.mk.injEq,
        Option.some.injEq]
      constructor
      · rintro ⟨m', u, hkeys, rfl, rfl, rfl⟩
        obtain ⟨rfl, hin, hallows, rfl⟩ := (scanKeys_iff (s := ⟨cur, head'⟩) hle).1 hkeys
        refine ⟨rfl, rfl, hin, hallows, ?_⟩
        simp only [Topology.add, Seg.not_encrypted]
      · rintro ⟨rfl, rfl, hin, hallows, rfl⟩
        refine ⟨_, _, (scanKeys_iff (s := ⟨cur, head'⟩) hle).2 ⟨rfl, hin, hallows, rfl⟩, rfl, rfl, ?_⟩
        simp only [Topology.add, Seg.not_encrypted]
  · rw [if_pos (by omega), if_neg hle]
    simp

/-- What the scanner allows behind a segment: the key found before, and that of the segment. -/
theorem Topology.allows_add (h : t.Allows file s) (b : Seg) :
    (t.add file s).Allows file b ↔ t.Allows file b ∧ s.SameKey file b := by
  unfold Allows at h
  simp only [Allows, add, Seg.SameKey, Bool.or_eq_true, decide_eq_true_eq]
  cases hhas : t.hasEncryptedSegment with
  | false =>
    simp only [Bool.false_eq_true, false_imp_iff, imp_true_iff, true_and, and_true, false_or]
    refine ⟨fun hb hs henc => ?_, fun hb henc hs => ?_⟩
    · simpa only [hs, if_true] using hb henc hs
    · simpa only [hs, if_true] using hb hs henc
  | true =>
    simp only [Bool.true_eq_false, and_false, if_false, true_or, forall_true_left]
    refine ⟨fun hb => ⟨hb, fun hs henc => ?_⟩, fun hb => hb.1⟩
    exact (h hs hhas).symm.trans (hb henc)

/-! ## The chain -/

namespace SegChain

theorem cons_last (hhead : headAt file s.start = some s.head) (hnext : s.head.nextSegPos = noNext) :
    SegChain file s.start [s] where
  first := rfl
  heads := by simpa using hhead
  linked := List.isChain_singleton s
  last := by simp [hnext]
  sameKey := by simp [Seg.SameKey]

theorem cons (hhead : headAt file s.start = some s.head) (hne : s.head.nextSegPos ≠ noNext)
    (hle : s.bodyEnd ≤ s.head.nextSegPos) (hsame : ∀ b ∈ segs, s.SameKey file b)
    (h : SegChain file s.head.nextSegPos segs) : SegChain file s.start (s :: segs) := by
  obtain ⟨b, rest, rfl⟩ : ∃ b rest, segs = b :: rest := by
    cases segs with
    | nil => cases h.first
    | cons b rest => exact ⟨b, rest, rfl⟩
  have hb : b.start = s.head.nextSegPos := Option.some.inj h.first
  refine ⟨rfl, ?_, ?_, ?_, ?_⟩
  · exact List.forall_mem_cons.2 ⟨hhead, h.heads⟩
  · exact List.isChain_cons_cons.2 ⟨⟨hne, hb, hb ▸ hle⟩, h.linked⟩
  · rw [List.getLast?_cons_cons]
    exact h.last
  · refine List.forall_mem_cons.2 ⟨List.forall_mem_cons.2 ⟨fun _ _ => rfl, hsame⟩, fun a ha => ?_⟩
    refine List.forall_mem_cons.2 ⟨fun henc hs => (hsame a ha hs henc).symm, h.sameKey a ha⟩

/-- A chain begins with its first segment, and goes on where that one's link leads. -/
theorem uncons (h : SegChain file cur (s :: segs)) : s.start = cur ∧
    headAt file s.start = some s.head ∧ (∀ b ∈ segs, s.SameKey file b) ∧
    (segs = [] ∧ s.head.nextSegPos = noNext ∨
      s.head.nextSegPos ≠ noNext ∧ s.bodyEnd ≤ s.head.nextSegPos ∧
        SegChain file s.head.nextSegPos segs) := by
  obtain ⟨hfirst, hheads, hlinked, hlast, hsame⟩ := h
  refine ⟨Option.some.inj hfirst, hheads s List.mem_cons_self,
    fun b hb => hsame s List.mem_cons_self b (List.mem_cons_of_mem s hb), ?_⟩
  cases segs with
  | nil => exact .inl ⟨rfl, Option.some.inj hlast⟩
  | cons b rest =>
    obtain ⟨⟨hne, hb, hle⟩, hrest⟩ := List.isChain_cons_cons.1 hlinked
    refine .inr ⟨hne, hb ▸ hle, congrArg some hb, fun c hc => hheads c (List.mem_cons_of_mem s hc), hrest,
      ?_, fun c hc d hd => hsame c (List.mem_cons_of_mem s hc) d (List.mem_cons_of_mem s hd)⟩
    rwa [List.getLast?_cons_cons] at hlast

end SegChain

/-- A walk of the scanner is a chain, with the keys inside the file. -/
theorem Scan.segChain {starts : List ℕ} (h : Scan file cur t starts t')
    (hreach : Reached file cur) (hnear : ∀ s, Reached file s → s < 2 ^ 31) :
    ∃ segs, SegChain file cur segs ∧ KeysInside file segs ∧ (∀ s ∈ segs, t.Allows file s) ∧
      t' = segs.foldl (Topology.add file) t := by
  induction h with
  | @last cur m t t' head hseg hnext hle =>
    obtain ⟨hhead, rfl, -, hallows, rfl⟩ := (scanSegment_iff (hnear _ hreach)).1 hseg
    refine ⟨[⟨cur, head⟩], .cons_last (s := ⟨cur, head⟩) hhead hnext, ?_, ?_, rfl⟩
    · simpa [KeysInside] using hle
    · simpa using hallows
  | @next cur m t t' t'' head starts hseg hne hm hle h ih =>
    obtain ⟨hhead, rfl, hin, hallows, rfl⟩ := (scanSegment_iff (hnear _ hreach)).1 hseg
    obtain ⟨segs, hsegs, hinside, hall, rfl⟩ := ih (.next (s := ⟨cur, head⟩) hreach hhead hm hle)
    have hboth := fun b hb => (Topology.allows_add hallows b).1 (hall b hb)
    refine ⟨⟨cur, head⟩ :: segs, .cons (s := ⟨cur, head⟩) hhead hne hm (fun b hb => (hboth b hb).2) hsegs,
      List.forall_mem_cons.2 ⟨hin, hinside⟩,
      List.forall_mem_cons.2 ⟨hallows, fun b hb => (hboth b hb).1⟩, rfl⟩

/-- The scanner walks over a chain with the keys inside the file. -/
theorem SegChain.scanLoop (h : SegChain file cur segs) (hinside : KeysInside file segs)
    (hall : ∀ s ∈ segs, t.Allows file s) (hreach : Reached file cur)
    (hnear : ∀ s, Reached file s → s < 2 ^ 31) :
    scanLoop file cur t = some (segs.foldl (Topology.add file) t) := by
  induction segs generalizing cur t with
  | nil => cases h.first
  | cons s segs ih =>
    obtain ⟨rfl, hhead, hsame, hrest⟩ := h.uncons
    obtain ⟨hin, hinside⟩ := List.forall_mem_cons.1 hinside
    obtain ⟨hallows, hall⟩ := List.forall_mem_cons.1 hall
    have hseg := (scanSegment_iff (hnear _ hreach)).2 ⟨hhead, rfl, hin, hallows, rfl⟩
    rw [QLog.Appender.scanLoop, hseg]
    rcases hrest with ⟨rfl, hnext⟩ | ⟨hne, hle, hchain⟩
    · simp only [hnext, if_true]
      rw [if_pos hin]
      rfl
    · obtain ⟨b, hb⟩ : ∃ b ∈ segs, b.start = s.head.nextSegPos := by
        obtain ⟨b, hb, hstart⟩ := Option.map_eq_some_iff.1 hchain.first
        exact ⟨b, List.mem_of_mem_head? hb, hstart⟩
      have hroom := (headAt_eq (hchain.heads b hb.1)).1
      rw [hb.2] at hroom
      simp only [hne, if_false]
      change s.bodyEnd ≤ _ at hle
      rw [dif_neg (by change ¬(_ < s.bodyEnd ∨ _); omega)]
      refine ih hchain hinside (fun c hc => (Topology.allows_add hallows c).2 ⟨hall c hc, hsame c hc⟩) ?_
      exact .next hreach hhead hle hroom

/-- **What the scanner notes of all segments** is the topology of the chain. -/
theorem Topology.foldl_add (t : Topology) (hs : segs ≠ []) :
    segs.foldl (Topology.add file) t =
      { hasSegment := true
        allSegmentsArePlaintext := t.allSegmentsArePlaintext && segs.all fun s => decide ¬s.Encrypted
        hasEncryptedSegment := t.hasEncryptedSegment || segs.any fun s => decide s.Encrypted
        rsaKeyFingerprint :=
          if t.hasEncryptedSegment then t.rsaKeyFingerprint
          else ((segs.find? fun s => decide s.Encrypted).map (Seg.fingerprint file)).getD t.rsaKeyFingerprint
        lastSegmentStartPos := (segs.getLast?.map Seg.start).getD 0 } := by
  induction segs generalizing t with
  | nil => exact absurd rfl hs
  | cons s segs ih =>
    rw [List.foldl_cons]
    cases segs with
    | nil =>
      by_cases henc : s.Encrypted
      · cases hhas : t.hasEncryptedSegment with
        | false => simp [add, henc, hhas]
        | true => simp [add, henc, hhas]
      · simp [add, henc]
    | cons b rest =>
      rw [ih _ (List.cons_ne_nil b rest), List.getLast?_cons_cons]
      by_cases henc : s.Encrypted
      · cases hhas : t.hasEncryptedSegment with
        | false => simp [add, henc, hhas]
        | true => simp [add, henc, hhas]
      · simp [add, henc]

theorem scanSegmentTopology_iff_loop {cfg : Config} :
    scanSegmentTopology cfg file = some t ↔ HeaderMatches cfg file ∧
      (file.length = 8 ∧ t = Topology.empty ∨
        file.length ≠ 8 ∧ scanLoop file 8 Topology.empty = some t) := by
  by_cases h8 : 8 ≤ file.length
  · rw [scanSegmentTopology_eq h8]
    by_cases hhead : ofLe ((sub file 0 8).take 4) = cfg.version ∧ (sub file 0 8).getD 4 0 = cfg.format
    · have hmatches : HeaderMatches cfg file := ⟨h8, hhead⟩
      rw [if_neg (by rw [hhead.1, hhead.2]; simp)]
      by_cases hlen : file.length = 8
      · simp [hmatches, hlen, eq_comm]
      · simp [hmatches, hlen]
    · have hnot : ¬HeaderMatches cfg file := fun h => hhead h.2
      rw [if_pos (not_and_or.1 hhead)]
      simp [hnot]
  · rw [scanSegmentTopology, if_pos (by omega)]
    simp [HeaderMatches, h8]

/-- **The scanner decides the chain of a file**, whose links lead to places below 2 ^ 31 only: it accepts a
file header alone, and a chain of segments behind it with the keys of each inside the file, and it reports
the topology of that chain. -/
theorem scan_segment_topology_iff (cfg : Config) (file : List UInt8)
    (hnear : ∀ s, Reached file s → s < 2 ^ 31) (t : Topology) :
    scanSegmentTopology cfg file = some t ↔ HeaderMatches cfg file ∧
      (file.length = 8 ∧ t = Topology.empty ∨
        ∃ segs, SegChain file 8 segs ∧ KeysInside file segs ∧ t = Topology.of file segs) := by
  rw [scanSegmentTopology_iff_loop]
  refine and_congr_right fun hhead => or_congr_right ?_
  have hof : ∀ segs, SegChain file 8 segs →
      segs.foldl (Topology.add file) Topology.empty = Topology.of file segs := by
    intro segs hchain
    cases segs with
    | nil => cases hchain.first
    | cons s segs =>
      rw [Topology.foldl_add _ (List.cons_ne_nil s segs)]
      simp [Topology.of, Topology.empty]
  constructor
  · rintro ⟨-, hloop⟩
    obtain ⟨starts, hscan⟩ := scan_of_scanLoop hloop
    obtain ⟨segs, hchain, hinside, -, rfl⟩ := hscan.segChain .first hnear
    exact ⟨segs, hchain, hinside, hof segs hchain⟩
  · rintro ⟨segs, hchain, hinside, rfl⟩
    refine ⟨fun hlen => ?_, ?_⟩
    · cases segs with
      | nil => cases hchain.first
      | cons s segs =>
        have hin := (headAt_eq hchain.uncons.2.1).1
        rw [hchain.uncons.1] at hin
        omega
    · rw [← hof segs hchain]
      exact hchain.scanLoop hinside (fun s _ _ h => by cases h) .first hnear

/-- Three segments, with a byte of payload in the first one and a gap behind the second one. -/
def threeSegments : List UInt8 :=
  toLe 4 10 ++ [2, 0, 0, 0] ++ (⟨21, .normal, .plaintext⟩ : SegHead).bytes ++ [7] ++
    (⟨35, .recoveryByAppender, .plaintext⟩ : SegHead).bytes ++ [0, 0] ++
    (⟨noNext, .recoveryByLogBuffer, .plaintext⟩ : SegHead).bytes

theorem scan_segment_topology_threeSegments : ∃ segs, SegChain threeSegments 8 segs ∧
    KeysInside threeSegments segs ∧ Topology.of threeSegments segs = ⟨true, true, false, 0, 35⟩ := by
  have hfirst : scanSegment threeSegments 8 Topology.empty =
      some (⟨21, .normal, .plaintext⟩, 20, ⟨true, true, false, 0, 8⟩) := by decide
  have hsecond : scanSegment threeSegments 21 ⟨true, true, false, 0, 8⟩ =
      some (⟨35, .recoveryByAppender, .plaintext⟩, 33, ⟨true, true, false, 0, 21⟩) := by decide
  have hlast : scanSegment threeSegments 35 ⟨true, true, false, 0, 21⟩ =
      some (⟨noNext, .recoveryByLogBuffer, .plaintext⟩, 47, ⟨true, true, false, 0, 35⟩) := by decide
  have hloop : scanLoop threeSegments 8 Topology.empty = some ⟨true, true, false, 0, 35⟩ := by
    rw [scanLoop, hfirst]
    change scanLoop threeSegments 21 ⟨true, true, false, 0, 8⟩ = _
    rw [scanLoop, hsecond]
    change scanLoop threeSegments 35 ⟨true, true, false, 0, 21⟩ = _
    rw [scanLoop, hlast]
    rfl
  have hscan : scanSegmentTopology plainConfig threeSegments = some ⟨true, true, false, 0, 35⟩ := by
    unfold scanSegmentTopology
    rw [hloop]
    rfl
  obtain ⟨-, ⟨hlen, -⟩ | ⟨segs, hchain, hinside, htop⟩⟩ :=
    (scan_segment_topology_iff plainConfig threeSegments (fun _ h => h.lt (by decide)) _).1 hscan
  · exact absurd hlen (by decide)
  · exact ⟨segs, hchain, hinside, htop.symm⟩

/-- An encrypted segment whose keys end behind the fingerprint. -/
def keylessFile : List UInt8 :=
  toLe 4 10 ++ [2, 0, 0, 0] ++ (⟨noNext, .normal, .rsaAesXor⟩ : SegHead).bytes ++ toLe 8 7

/-- The chain of such a file ends as it should, and the scanner refuses it. -/
theorem scan_keylessFile : ¬((scanSegmentTopology plainConfig keylessFile).isSome ↔
    HeaderMatches plainConfig keylessFile ∧
      (keylessFile.length = 8 ∨ ∃ segs, SegChain keylessFile 8 segs)) := by
  have hseg : scanSegment keylessFile 8 Topology.empty = none := by decide
  have hscan : scanSegmentTopology plainConfig keylessFile = none := by
    have hloop : scanLoop keylessFile 8 Topology.empty = none := by
      rw [scanLoop, hseg]
    unfold scanSegmentTopology
    rw [hloop]
    rfl
  have hchain : SegChain keylessFile 8 [⟨8, ⟨noNext, .normal, .rsaAesXor⟩⟩] :=
    .cons_last (s := ⟨8, ⟨noNext, .normal, .rsaAesXor⟩⟩) (by decide) rfl
  intro hiff
  have hsome := hiff.2 ⟨by unfold HeaderMatches; decide, .inr ⟨_, hchain⟩⟩
  rw [hscan] at hsome
  cases hsome

end QLog.Appender
