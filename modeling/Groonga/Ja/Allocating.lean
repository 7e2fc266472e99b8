import Groonga.Ja.Freeing

/-!
# A new place

`grn_ja_alloc` gives a place that no one has to `hand`, with an element info that refers to it. A
chunk is used again when enough chunks of its size are recorded; then it is always one of the first
garbage info.
-/

namespace Groonga.Ja

open Lib

variable {g : Config} {L L' L'' : Ledger} {c c' c'' : Ctx} {s : GrnJa} {v seg pos size id e n : ℕ}

/-- **What a new place is.** The element info refers to the place in `hand`, and the value of the
size goes there. -/
structure Given (g : Config) (size : ℕ) (a : Alloc) (L : Ledger) : Prop where
  hand : L.own hand = place g a.einfo
  spot : Spot size a.einfo a.target

/-- A place was given, or none was. -/
def Allocated (g : Config) (size : ℕ) (c : Ctx) (L : Ledger) (r : Alloc × Ctx) : Prop :=
  (r.1.ok = true ∧ ∃ L', Moved g c r.2 L L' ∧ Given g size r.1 L') ∨
    (r.1.ok = false ∧ r.2.rc ≠ .success)

theorem Allocated.failed {a : Alloc} (hok : a.ok = false) (hrc : c'.rc ≠ .success) :
    Allocated g size c L (a, c') := .inr ⟨hok, hrc⟩

theorem rc_setJa (c : Ctx) (s : GrnJa) : ({ c with ja := s } : Ctx).rc = c.rc := rfl

theorem noMemory_ne : Rc.noMemoryAvailable ≠ .success := by decide

theorem notEnough_ne : Rc.notEnoughSpace ≠ .success := by decide

/-! ## Element infos of places -/

theorem place_etinyEnc (hsize : size < 8) : place g (etinyEnc e size) = .none := by
  rw [place, if_pos (etinyP_etinyEnc hsize)]

/-- The sizes of chunks. -/
theorem chunk_size (hchunk : g.detectElementType size = .chunk) :
    8 ≤ size ∧ size < 0x400000 ∧ chunkVariation size < nVariations ∧
      computeChunkMsb size = chunkVariation size + 3 := by
  rw [Config.detectElementType] at hchunk
  split_ifs at hchunk with h₁ h₂
  have hthreshold := g.chunkThreshold_le
  have hle : size ≤ 2 ^ 16 := Nat.le_trans h₂ (Nat.pow_le_pow_right (by decide) hthreshold)
  have hupper : Nat.log2 (size - 1) < 16 := (Nat.log2_lt (by omega)).mpr (by omega)
  have hlower : 2 ≤ Nat.log2 (size - 1) := (Nat.le_log2 (by omega)).mpr (by omega)
  have hmsb : computeChunkMsb size = Nat.log2 (size - 1) + 1 := rfl
  rw [chunkVariation, hmsb, wEinfo]
  refine ⟨by omega, by omega, ?_, by omega⟩
  unfold nVariations
  omega

theorem place_chunk (hchunk : g.detectElementType size = .chunk) (hseg : seg < 0x10000)
    (hpos : pos < 0x1000000) :
    place g (einfoEnc seg pos size) = .chunk ⟨seg, pos⟩ (chunkVariation size) := by
  obtain ⟨hle, hlt, -, -⟩ := chunk_size hchunk
  obtain ⟨htiny, hhuge, hdec⟩ := einfoEnc_spec hseg hpos hlt
  rw [place, htiny, hhuge, hdec]
  simp only [Bool.false_eq_true, if_false, hchunk, if_true]
  exact if_neg (by omega)

/-- The sizes of parts of sequential segments. -/
theorem sequential_size (hseq : g.detectElementType size = .sequential) :
    8 ≤ size ∧ size < 0x400000 ∧ size + 4 ≤ segmentSize := by
  rw [Config.detectElementType] at hseq
  split_ifs at hseq with h₁ h₂ h₃
  unfold segmentSize at h₃
  exact ⟨by omega, by omega, h₃⟩

theorem place_sequential (hseq : g.detectElementType size = .sequential) (hseg : seg < 0x10000)
    (hpos : pos < 0x1000000) :
    place g (einfoEnc seg pos size) =
      .sequential seg pos (computeSequenceAlignedElementSize size) := by
  obtain ⟨hle, hlt, -⟩ := sequential_size hseq
  obtain ⟨htiny, hhuge, hdec⟩ := einfoEnc_spec hseg hpos hlt
  rw [place, htiny, hhuge, hdec]
  simp only [Bool.false_eq_true, if_false, hseq]
  rw [if_neg (by omega), if_neg (by decide)]

theorem place_huge (hseg : seg < 0x10000) (hsize : size < 0x100000000) :
    place g (ehugeEnc seg size) = .huge seg (computeHugeNSegments size) := by
  obtain ⟨htiny, hhuge, hdec⟩ := ehugeEnc_spec hseg hsize
  rw [place, htiny, hhuge, hdec]
  simp only [Bool.false_eq_true, if_false, if_true]

/-! ## Chunks -/

/-- With enough chunks the first garbage info is taken. -/
theorem findReusable_spec (hG : Good g s L) (hv : v < nVariations)
    (hmany : nGarbagesTh < s.header.nGarbages v) :
    ∃ d cs, L.chain v = d :: cs ∧
      findReusable s (g.nDataSegments + 1) 0 (s.header.garbages v) = some (0, d) := by
  have hpath := hG.sound.inv.chains.path v hv
  have hcount := hG.sound.inv.chunks.count v hv
  cases hchain : L.chain v with
  | nil =>
    rw [hchain] at hcount
    rw [hcount] at hmany
    exact absurd hmany (Nat.not_lt_zero _)
  | cons d cs =>
    rw [hchain] at hpath
    obtain ⟨hstart, hne, hrest⟩ := hpath
    refine ⟨d, cs, rfl, ?_⟩
    rw [hstart, findReusable, if_neg hne]
    refine if_pos ?_
    cases cs with
    | nil =>
      -- the only garbage info has all chunks
      right
      rw [hchain] at hcount
      simp only [chunksOf_cons, List.length_append, length_ring] at hcount
      have hnil : (chunksOf g (fun c => ginfo (s.memory c)) []).length = 0 := rfl
      rw [hnil, Nat.add_zero] at hcount
      rwa [hcount] at hmany
    | cons d' ds =>
      left
      rw [hrest.1]
      exact hrest.2.1

/-- A chunk in `hand`, with the element info for a value of the size. -/
theorem given_chunk {a : Pos} (hS : Sound g s L)
    (hhand : L.own hand = .chunk a (chunkVariation size)) (hchunk : g.detectElementType size = .chunk) :
    Given g size ⟨true, einfoEnc a.seg a.pos size, .within a.seg a.pos⟩ L := by
  have hslot := hS.inv.owned.fits hand hand_lt
  rw [hhand] at hslot
  have hsegLt := hslot.2.seg_lt
  have hposLt := hslot.2.pos_lt
  have hlimit := g.nDataSegments_le
  have hend := add_chunk_le hslot.1 hslot.2.aligned hslot.2.pos_lt
  have hchunkSize := le_chunk hchunk
  obtain ⟨h8, hlt, -, -⟩ := chunk_size hchunk
  have hpos : a.pos < 0x1000000 := by
    unfold segmentSize at hposLt
    omega
  refine ⟨?_, .within _ _ (by omega) (by omega) hlt (by omega)⟩
  rw [hhand, place_chunk hchunk (by omega) hpos]

/-- What is left in the chains without the first garbage info of a size. -/
theorem Chains.mem_tail {h : Header} {gi : ℕ → GInfo} {chain : ℕ → List ℕ} {d d' w : ℕ} {ds : List ℕ}
    (hC : Chains g h gi chain) (hv : v < nVariations) (hchain : chain v = d :: ds)
    (hw : w < nVariations) (hd' : d' ∈ Function.update chain v ds w) : d' ≠ d ∧ d' ∈ chain w := by
  have hnodup := hC.nodup v hv
  rw [hchain, List.nodup_cons] at hnodup
  by_cases hwv : w = v
  · subst hwv
    rw [Function.update_self] at hd'
    rw [hchain]
    exact ⟨fun heq => hnodup.1 (heq ▸ hd'), List.mem_cons_of_mem _ hd'⟩
  · rw [Function.update_of_ne hwv] at hd'
    refine ⟨?_, hd'⟩
    rintro rfl
    exact hwv (hC.eq_of_mem hv hw (by rw [hchain]; exact List.mem_cons_self) hd')

/-- **A chunk is used again.** -/
theorem reuseChunk_spec {d : ℕ} {cs : List ℕ} (hG : Good g c.ja L) (hhand : L.own hand = .none)
    (hchunk : g.detectElementType size = .chunk) (hchain : L.chain (chunkVariation size) = d :: cs) :
    Allocated g size c L (reuseChunk g c size e 0 d) := by
  obtain ⟨h8, hlt, hv, hmsb⟩ := chunk_size hchunk
  have hmem : d ∈ L.chain (chunkVariation size) := by
    rw [hchain]
    exact List.mem_cons_self
  have hpos := hG.filled _ hv d hmem
  have hle := hG.sound.nrecs_le hv hmem
  have hcount := hG.sound.nGarbages_lt hv
  have hsome : 0 < c.ja.header.nGarbages (chunkVariation size) := by
    have hlen := hG.sound.inv.chunks.count _ hv
    rw [hchain] at hlen
    simp only [chunksOf_cons, List.length_append, length_ring] at hlen
    omega
  have hn : ((ginfo (c.ja.memory d)).nrecs + 0x100000000 - 1) % 0x100000000 =
      (ginfo (c.ja.memory d)).nrecs - 1 := by omega
  have hnG : (c.ja.header.nGarbages (chunkVariation size) + 0x100000000 - 1) % 0x100000000 =
      c.ja.header.nGarbages (chunkVariation size) - 1 := by omega
  obtain ⟨hS, hk, hnew⟩ := hG.sound.reuse hv hhand hchain hpos rfl
  rw [reuseChunk]
  obtain ⟨a, ha⟩ : ∃ a, (ginfo (c.ja.memory d)).recs (ginfo (c.ja.memory d)).tail = a := ⟨_, rfl⟩
  obtain ⟨tail, ht⟩ : ∃ t, ((ginfo (c.ja.memory d)).tail + 1) % g.nGarbagesInASegment = t := ⟨_, rfl⟩
  obtain ⟨next, hnx⟩ : ∃ n, (ginfo (c.ja.memory d)).next = n := ⟨_, rfl⟩
  simp only [hn, hnG, ha, ht, hnx] at hS hk hnew ⊢
  have hgiven := given_chunk (a := a) hS (by simp only [Function.update_self]) hchunk
  rcases perform_cases g c (.reuse size a.seg a.pos d tail ((ginfo (c.ja.memory d)).nrecs - 1)
    (c.ja.header.nGarbages (chunkVariation size) - 1) 0 next) with
    ⟨c₁, hrun, hja, hrc, hfails⟩ | ⟨c₁, hrun, hja, hrc, hfails, hentry⟩
  · simp only [hrun]
    have hja' : c₁.ja = chunkSegmentReuse c.ja d tail ((ginfo (c.ja.memory d)).nrecs - 1)
      (c.ja.header.nGarbages (chunkVariation size) - 1) size := hja
    rw [← hja'] at hS hk hnew
    have hother : ∀ d', d' ≠ d → c₁.ja.memory d' = c.ja.memory d' := fun d' hd' => by
      rw [hja']
      exact Function.update_of_ne hd' _ _
    split_ifs with hzero
    · -- the garbage info has no chunks any more
      have htailLt : tail < 0x100000000 := ht ▸ Nat.lt_trans
        (Nat.mod_lt _ g.nGarbagesInASegment_pos) (Nat.lt_of_le_of_lt g.nGarbagesInASegment_le (by decide))
      have hnext : (ginfo (c₁.ja.memory d)).next = next := by
        rw [hja', chunkSegmentReuse]
        simp only [modify_self]
        rw [ginfo_head_tail_nrecs htailLt (by omega)]
        exact hnx
      obtain ⟨hS₂, hk₂⟩ := hS.freeGinfo hv hchain (hnew.trans hzero) rfl
      rw [hnext] at hS₂ hk₂
      rcases perform_cases g c₁ (.freeGinfo size a.seg d 0 next) with
        ⟨c₂, hrun₂, hja₂, hrc₂, hfails₂⟩ | ⟨c₂, hrun₂, hja₂, hrc₂, hfails₂, hentry₂⟩
      · simp only [hrun₂]
        have hja₂' : c₂.ja = ginfoSegmentFree c₁.ja 0 d next size := hja₂
        have hmemory : c₂.ja.memory = c₁.ja.memory := by
          rw [hja₂']
          simp [ginfoSegmentFree, setNextGarbageSegment]
        rw [← hja₂'] at hS₂ hk₂
        refine .inl ⟨rfl, _, ⟨⟨hS₂, fun w hw d' hd' => ?_⟩, hk.trans hk₂ fun id hid =>
          own_update_hand _ hid, fun id hid => own_update_hand _ hid, hrc₂.trans hrc,
          hfails₂.trans hfails⟩, ⟨hgiven.hand, hgiven.spot⟩⟩
        obtain ⟨hne, hd''⟩ := hG.sound.inv.chains.mem_tail hv hchain hw hd'
        rw [hmemory, hother d' hne]
        exact hG.filled w hw d' hd''
      · simp only [hrun₂]
        exact .inr ⟨rfl, by rw [hrc₂]; decide⟩
    · refine .inl ⟨rfl, _, ⟨⟨hS, fun w hw d' hd' => ?_⟩, hk, fun id hid => own_update_hand _ hid, hrc,
        hfails⟩, hgiven⟩
      by_cases hdd : d' = d
      · rw [hdd, hnew]
        exact Nat.pos_of_ne_zero hzero
      · rw [hother d' hdd]
        exact hG.filled w hw d' hd'
  · simp only [hrun]
    exact .inr ⟨rfl, by rw [hrc]; decide⟩

/-- **The next chunk that was never used.** -/
theorem useChunk_spec (hG : Good g c.ja L) (hhand : L.own hand = .none)
    (hchunk : g.detectElementType size = .chunk)
    (hne : (c.ja.header.freeElements (chunkVariation size)).seg ≠ 0)
    (hroom : c.ja.header.nGarbages (chunkVariation size) ≤ nGarbagesTh) :
    Allocated g size c L (useChunk g c size e) := by
  obtain ⟨-, -, hv, hmsb⟩ := chunk_size hchunk
  obtain ⟨hS, hk⟩ := hG.sound.useChunk hv hhand hne hroom rfl
  obtain ⟨a, ha⟩ : ∃ a, c.ja.header.freeElements (chunkVariation size) = a := ⟨_, rfl⟩
  have hnext : (if a.pos + 2 ^ computeChunkMsb size = segmentSize then (⟨0, 0⟩ : Pos)
      else ⟨a.seg, a.pos + 2 ^ computeChunkMsb size⟩) = nextFree (chunkVariation size) a := by
    rw [nextFree, hmsb]
  rw [useChunk]
  simp only [ha, hnext] at hS hk ⊢
  have hgiven := given_chunk (a := a) hS (by simp only [Function.update_self]) hchunk
  rcases perform_cases g c (.useChunk size (nextFree (chunkVariation size) a).seg
    (nextFree (chunkVariation size) a).pos) with
    ⟨c₁, hrun, hja, hrc, hfails⟩ | ⟨c₁, hrun, hja, hrc, hfails, hentry⟩
  · simp only [hrun]
    have hja' : c₁.ja = chunkSegmentUse c.ja size (nextFree (chunkVariation size) a).seg
      (nextFree (chunkVariation size) a).pos := hja
    have hmemory : c₁.ja.memory = c.ja.memory := by rw [hja', chunkSegmentUse]
    rw [← hja'] at hS hk
    refine .inl ⟨rfl, _, ⟨⟨hS, fun w hw d hd => ?_⟩, hk, fun id hid => own_update_hand _ hid, hrc,
      hfails⟩, hgiven⟩
    rw [hmemory]
    exact hG.filled w hw d hd
  · simp only [hrun]
    exact .inr ⟨rfl, by rw [hrc]; decide⟩

/-- Steps in front of an allocation. -/
theorem Allocated.after {r : Alloc × Ctx} (h : Allocated g size c' L' r) (hmove : Moved g c c' L L') :
    Allocated g size c L r :=
  h.imp_left fun ⟨hok, L'', hmove', hgiven⟩ => ⟨hok, L'', hmove.trans hmove', hgiven⟩

/-- **A chunk is allocated.** -/
theorem allocChunk_spec (hG : Good g c.ja L) (hhand : L.own hand = .none)
    (hchunk : g.detectElementType size = .chunk) : Allocated g size c L (allocChunk g c size e) := by
  obtain ⟨-, -, hv, hmsb⟩ := chunk_size hchunk
  rw [allocChunk]
  split_ifs with hmany
  · obtain ⟨d, cs, hchain, hfind⟩ := findReusable_spec hG hv hmany
    simp only [hfind]
    exact reuseChunk_spec hG hhand hchunk hchain
  · rw [newChunk]
    by_cases hne : (c.ja.header.freeElements (chunkVariation size)).seg ≠ 0
    · rw [if_neg hne]
      exact useChunk_spec hG hhand hchunk hne (Nat.not_lt.mp hmany)
    rw [if_pos (not_not.mp hne)]
    by_cases hfull : findFreeSegment g c.ja.header = g.nDataSegments
    · simp only [if_pos hfull]
      exact .inr ⟨rfl, noMemory_ne⟩
    · simp only [if_neg hfull]
      obtain ⟨hlt, hfree⟩ := findFreeSegment_spec hfull
      obtain ⟨hS, hk, hnext, hcounts⟩ := hG.sound.newChunk hv hlt hfree rfl hmsb
      rcases perform_cases g c (.newChunk size (findFreeSegment g c.ja.header)) with
        ⟨c₁, hrun, hja, hrc, hfails⟩ | ⟨c₁, hrun, hja, hrc, hfails, hentry⟩
      · simp only [hrun]
        have hja' : c₁.ja = chunkSegmentNew c.ja size (findFreeSegment g c.ja.header) := hja
        rw [← hja'] at hS hk hnext hcounts
        have hmove : Moved g c c₁ L L := by
          refine ⟨⟨hS, fun w hw d hd => ?_⟩, hk, fun _ _ => rfl, hrc, hfails⟩
          rw [show c₁.ja.memory = c.ja.memory by rw [hja']; rfl]
          exact hG.filled w hw d hd
        refine (useChunk_spec hmove.good hhand hchunk ?_ ?_).after hmove
        · rw [hnext]
          rintro hzero
          simp only at hzero
          rw [hzero, hG.sound.inv.einfos.zero.2] at hfree
          exact absurd hfree (by decide)
        · rw [hcounts]
          exact Nat.not_lt.mp hmany
      · simp only [hrun]
        exact .inr ⟨rfl, by rw [hrc]; decide⟩

/-! ## Sequential segments -/

theorem useSequential_spec (hG : Good g c.ja L) (hhand : L.own hand = .none)
    (hseq : g.detectElementType size = .sequential)
    (hend : c.ja.header.currPos + (size + 4) ≤ segmentSize) :
    Allocated g size c L
      (useSequential g c id size e c.ja.header.currSeg c.ja.header.currPos) := by
  obtain ⟨h8, hlt, -⟩ := sequential_size hseq
  obtain ⟨hS, hk⟩ := @Sound.useSequential g L c.ja size id _ hG.sound hhand hend rfl
  have hfits := hS.inv.owned.fits hand hand_lt
  simp only [Function.update_self] at hfits
  have hsegLt := hfits.1
  have hlimit := g.nDataSegments_le
  have hposLt : c.ja.header.currPos + 4 < 0x1000000 := by
    unfold segmentSize at hend
    omega
  rw [useSequential]
  rcases perform_cases g c (.useSequential id size c.ja.header.currSeg c.ja.header.currPos
    (c.ja.header.segmentInfos c.ja.header.currSeg + computeSequenceAlignedDataSize size)) with
    ⟨c₁, hrun, hja, hrc, hfails⟩ | ⟨c₁, hrun, hja, hrc, hfails, hentry⟩
  · simp only [hrun]
    have hja' : c₁.ja = sequentialSegmentUse c.ja id c.ja.header.currSeg c.ja.header.currPos
      (c.ja.header.segmentInfos c.ja.header.currSeg + computeSequenceAlignedDataSize size) size := hja
    have hother : ∀ d, d ≠ c.ja.header.currSeg → c₁.ja.memory d = c.ja.memory d := fun d hd => by
      rw [hja']
      exact Function.update_of_ne hd _ _
    rw [← hja'] at hS hk
    refine .inl ⟨rfl, _, ⟨⟨hS, fun w hw d hd => ?_⟩, hk, fun id hid => own_update_hand _ hid, hrc,
      hfails⟩, ?_, .within _ _ (by omega) (by omega) hlt (by omega)⟩
    · -- the chains do not have the segment
      have hne : d ≠ c.ja.header.currSeg := by
        rintro rfl
        have hle := hG.sound.info_chain hw hd
        have hcurr := (hG.sound.inv.sequence.curr_seq (by omega)).2.2
        unfold segHuge at hcurr
        unfold segGinfo at hle
        omega
      rw [hother d hne]
      exact hG.filled w hw d hd
    · simp only [Function.update_self]
      exact (place_sequential hseq (by omega) hposLt).symm
  · simp only [hrun]
    exact .inr ⟨rfl, by rw [hrc]; decide⟩

/-- **A part of a sequential segment is allocated.** -/
theorem allocSequential_spec (hG : Good g c.ja L) (hhand : L.own hand = .none)
    (hseq : g.detectElementType size = .sequential) :
    Allocated g size c L (allocSequential g c id size e) := by
  obtain ⟨-, -, hle⟩ := sequential_size hseq
  rw [allocSequential]
  by_cases hroom : segmentSize < c.ja.header.currPos + (size + 4)
  swap
  · rw [if_neg hroom]
    exact useSequential_spec hG hhand hseq (Nat.not_lt.mp hroom)
  rw [if_pos hroom]
  by_cases hfull : findFreeSegment g c.ja.header = g.nDataSegments
  · simp only [if_pos hfull]
    exact .inr ⟨rfl, noMemory_ne⟩
  · simp only [if_neg hfull]
    obtain ⟨hlt, hfree⟩ := findFreeSegment_spec hfull
    obtain ⟨hS, hk⟩ := hG.sound.newSequential hlt hfree
    rcases perform_cases g c (.newSequential (findFreeSegment g c.ja.header)) with
      ⟨c₁, hrun, hja, hrc, hfails⟩ | ⟨c₁, hrun, hja, hrc, hfails, hentry⟩
    · simp only [hrun]
      have hja' : c₁.ja = sequentialSegmentNew c.ja (findFreeSegment g c.ja.header) := hja
      have hmemory : c₁.ja.memory = c.ja.memory := by rw [hja', sequentialSegmentNew]
      have hcurr : c₁.ja.header.currSeg = findFreeSegment g c.ja.header := by
        rw [hja', sequentialSegmentNew]
      have hpos : c₁.ja.header.currPos = 0 := by rw [hja', sequentialSegmentNew]
      rw [← hja'] at hS hk
      have hmove := Moved.mk ⟨hS, fun w hw d hd => hmemory ▸ hG.filled w hw d hd⟩ hk
        (fun _ _ => rfl) hrc hfails
      have huse := @useSequential_spec g _ c₁ size id e hmove.good hhand hseq (by rw [hpos]; omega)
      rw [hcurr, hpos] at huse
      exact huse.after hmove
    · simp only [hrun]
      exact .inr ⟨rfl, by rw [hrc]; decide⟩

/-! ## Huge values -/

/-- The search ends behind free segments, as many as are needed, or finds none. -/
theorem hugeLoop_spec {h : Header} {fuel i last : ℕ}
    (hlast : last < i ∨ (i = 0 ∧ last = 0 ∧ h.segmentInfos 0 ≠ 0))
    (hfree : ∀ x, last < x → x < i → h.segmentInfos x = 0) :
    (hugeLoop h n fuel i last).1 = i + fuel ∨
      ((hugeLoop h n fuel i last).1 < i + fuel ∧ 0 < n ∧
        (hugeLoop h n fuel i last).1 = (hugeLoop h n fuel i last).2 + n ∧
        ∀ x, (hugeLoop h n fuel i last).2 < x → x ≤ (hugeLoop h n fuel i last).1 →
          h.segmentInfos x = 0) := by
  induction fuel generalizing i last with
  | zero => exact .inl rfl
  | succ fuel ih =>
    rw [hugeLoop]
    by_cases hinfo : h.segmentInfos i ≠ 0
    · rw [if_pos hinfo]
      rcases @ih (i + 1) i (.inl (Nat.lt_succ_self i)) (fun x h₁ h₂ => by omega) with
        h' | ⟨hlt, hrest⟩
      · exact .inl (by omega)
      · exact .inr ⟨by omega, hrest⟩
    · rw [if_neg hinfo]
      push Not at hinfo
      have hlt : last < i := by
        rcases hlast with h' | ⟨rfl, -, hne⟩
        · exact h'
        · exact absurd hinfo hne
      split_ifs with hend
      · refine .inr ⟨by simp only; omega, by omega, hend, fun x h₁ h₂ => ?_⟩
        rcases Nat.lt_or_eq_of_le h₂ with h' | h'
        · exact hfree x h₁ h'
        · rw [h']
          exact hinfo
      · rcases @ih (i + 1) last (.inl (by omega)) (fun x h₁ h₂ => by
          rcases Nat.lt_succ_iff_lt_or_eq.mp h₂ with h' | h'
          · exact hfree x h₁ h'
          · rw [h']
            exact hinfo) with h' | ⟨hlt', hrest⟩
        · exact .inl (by omega)
        · exact .inr ⟨by omega, hrest⟩

/-- The segments of a huge value are prepared. -/
theorem newHugeLoop_spec (hG : Good g c.ja L)
    (hfree : ∀ x, seg ≤ x → x < seg + n → c.ja.header.segmentInfos x = 0) :
    (∃ c', newHugeLoop g n seg c = (true, c') ∧ Moved g c c' L L ∧
      (∀ x, seg ≤ x → x < seg + n → c'.ja.header.segmentInfos x = segHuge) ∧
      (∀ x, x < seg → c'.ja.header.segmentInfos x = c.ja.header.segmentInfos x)) ∨
        ∃ c', newHugeLoop g n seg c = (false, c') ∧ c'.rc ≠ .success := by
  induction n generalizing seg c with
  | zero => exact .inl ⟨c, rfl, .refl hG, fun x h₁ h₂ => by omega, fun _ _ => rfl⟩
  | succ n ih =>
    rw [newHugeLoop]
    obtain ⟨hS, hk⟩ := hG.sound.newHuge (hfree seg (Nat.le_refl _) (by omega))
    rcases perform_cases g c (.newHuge seg) with ⟨c₁, hrun, hja, hrc, hfails⟩ |
      ⟨c₁, hrun, hja, hrc, hfails, hentry⟩
    · simp only [hrun]
      have hja' : c₁.ja = hugeSegmentNew c.ja seg := hja
      rw [← hja'] at hS hk
      have hmove : Moved g c c₁ L L :=
        ⟨⟨hS, fun w hw d hd => by rw [hja']; exact hG.filled w hw d hd⟩, hk, fun _ _ => rfl, hrc, hfails⟩
      have hself : c₁.ja.header.segmentInfos seg = segHuge := by
        rw [hja']
        exact setInfo_self _ _ _
      have hother : ∀ x, x ≠ seg → c₁.ja.header.segmentInfos x = c.ja.header.segmentInfos x := by
        intro x hx
        rw [hja']
        exact setInfo_of_ne hx
      rcases @ih _ (seg + 1) hmove.good (fun x h₁ h₂ => by
          rw [hother x (by omega)]
          exact hfree x (by omega) (by omega)) with ⟨c', hrun', hmove', hinfo, hbelow⟩ | h
      · refine .inl ⟨c', hrun', hmove.trans hmove', fun x h₁ h₂ => ?_, fun x hx => ?_⟩
        · rcases Nat.lt_or_eq_of_le h₁ with h' | rfl
          · exact hinfo x h' (by omega)
          · rw [hbelow _ (Nat.lt_succ_self _), hself]
        · rw [hbelow x (by omega), hother x (by omega)]
      · exact .inr h
    · simp only [hrun]
      exact .inr ⟨c₁, rfl, by rw [hrc]; decide⟩

/-- The segments are enough when there are any. -/
theorem le_huge (hsize : size < 0x100000000) (hpos : 0 < computeHugeNSegments size) :
    size ≤ computeHugeNSegments size * segmentSize := by
  unfold computeHugeNSegments segmentSize at *
  omega

/-- Whole segments in `hand`, with the element info for a value of the size. -/
theorem given_huge (hhand : L.own hand = .huge seg (computeHugeNSegments size)) (hseg : seg < 0x10000)
    (hsize : size < 0x100000000) (hpos : 0 < computeHugeNSegments size) :
    Given g size ⟨true, ehugeEnc seg size, .huge seg⟩ L :=
  ⟨hhand.trans (place_huge hseg hsize).symm, .huge seg hseg hsize (le_huge hsize hpos)⟩

/-- **The segments of a huge value are allocated.** -/
theorem allocHuge_spec (hG : Good g c.ja L) (hhand : L.own hand = .none)
    (hsize : size < 0x100000000) : Allocated g size c L (allocHuge g c size e) := by
  have hzero : c.ja.header.segmentInfos 0 ≠ 0 := by
    rw [hG.sound.inv.einfos.zero.2]
    decide
  have hspec := @hugeLoop_spec (computeHugeNSegments size) c.ja.header g.nDataSegments 0 0
    (.inr ⟨rfl, rfl, hzero⟩) fun x h₁ h₂ => absurd h₂ (Nat.not_lt_zero x)
  rw [Nat.zero_add] at hspec
  rw [allocHuge]
  generalize hugeLoop c.ja.header (computeHugeNSegments size) g.nDataSegments 0 0 = r at hspec ⊢
  obtain ⟨i, last⟩ := r
  simp only at hspec ⊢
  split_ifs with hfull
  · exact .inr ⟨rfl, notEnough_ne⟩
  · obtain ⟨hlt, hpos, rfl, hfree⟩ := hspec.resolve_left hfull
    have hcount : last + computeHugeNSegments size + 1 - (last + 1) = computeHugeNSegments size := by
      omega
    rw [hcount]
    have hlimit := g.nDataSegments_le
    rcases @newHugeLoop_spec g L c (last + 1) (computeHugeNSegments size) hG
      (fun x h₁ h₂ => hfree x (by omega) (by omega)) with ⟨c', hrun, hmove, hinfo, -⟩ | ⟨c', hrun, hrc⟩
    · simp only [hrun]
      have hfits : (Place.huge (last + 1) (computeHugeNSegments size)).Fits g c'.ja.header :=
        ⟨hpos, by omega, hinfo⟩
      have hI := hmove.good.sound.inv.useHuge hhand hfits fun x h₁ h₂ =>
        hG.sound.inv.owned.not_touches (hfree x (by omega) (by omega))
      have hS : Sound g c'.ja { L with
          own := Function.update L.own hand (.huge (last + 1) (computeHugeNSegments size)) } :=
        ⟨hI, fun id hid => (own_update_hand _ hid).trans (hmove.good.sound.own id hid),
          hmove.good.sound.whole⟩
      exact .inl ⟨rfl, _, ⟨⟨hS, hmove.good.filled⟩, hmove.keeps, fun id hid => own_update_hand _ hid,
        hmove.rc, hmove.fails⟩,
        given_huge (by simp only [Function.update_self]) (by omega) hsize hpos⟩
    · simp only [hrun]
      refine .failed rfl ?_
      rw [rc_setJa]
      exact hrc

/-! ## All sizes -/

/-- **A place for a value is allocated.** -/
theorem alloc_spec (hG : Good g c.ja L) (hhand : L.own hand = .none) (hsize : size < 0x100000000) :
    Allocated g size c L (alloc g c id size e) := by
  rw [alloc]
  cases htype : g.detectElementType size with
  | tiny =>
    have h8 : size < 8 := by
      rw [Config.detectElementType] at htype
      split_ifs at htype with h₁
      exact h₁
    exact .inl ⟨rfl, L, .refl hG, by rw [hhand, place_etinyEnc h8], .tiny _ h8⟩
  | chunk => exact allocChunk_spec hG hhand htype
  | sequential => exact allocSequential_spec hG hhand htype
  | huge => exact allocHuge_spec hG hhand hsize

end Groonga.Ja
