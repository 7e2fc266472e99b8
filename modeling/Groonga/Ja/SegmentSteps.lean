import Groonga.Ja.GarbageSteps

/-!
# Segments of a sound column

The steps for segments keep a column sound. A part of a sequential segment has the id of its record
in front of it, and the id behind it is cleared: both are bytes of its place. When the element info
of a record is set, the place in `hand` becomes the one of the record, and its old place is in
`hand`.
-/

namespace Groonga.Ja

open Lib

variable {g : Config} {L L' : Ledger} {s : GrnJa} {c v seg size id e pos : ℕ}

/-! ## Chunks -/

theorem Sound.newChunk (hS : Sound g s L) (hv : v < nVariations) (hseg : seg < g.nDataSegments)
    (hfree : s.header.segmentInfos seg = 0) (hsize : chunkVariation size = v)
    (hmsb : computeChunkMsb size = v + 3) :
    let s' := chunkSegmentNew s size seg
    Sound g s' L ∧ Keeps s s' L ∧ s'.header.freeElements v = ⟨seg, 0⟩ ∧
      s'.header.nGarbages = s.header.nGarbages := by
  intro s'
  have hheader : s' = { s with header := { s.header.setInfo seg (v + 3) with
      freeElements := Function.update s.header.freeElements v ⟨seg, 0⟩ } } := by
    simp only [s', chunkSegmentNew, chunkSegmentUse, hsize, hmsb]
    rfl
  rw [hheader]
  obtain ⟨hS', hk⟩ := hS.setHeader (hS.inv.newChunk hv hseg hfree) (fun _ _ => rfl) rfl
  exact ⟨hS', hk, Function.update_self _ _ _, rfl⟩

theorem Sound.useChunk (hS : Sound g s L) (hv : v < nVariations) (hhand : L.own hand = .none)
    (hne : (s.header.freeElements v).seg ≠ 0) (hroom : s.header.nGarbages v ≤ nGarbagesTh)
    (hsize : chunkVariation size = v) :
    let a := s.header.freeElements v
    let s' := chunkSegmentUse s size (nextFree v a).seg (nextFree v a).pos
    Sound g s' { L with own := Function.update L.own hand (.chunk a v) } ∧ Keeps s s' L := by
  intro a s'
  have hheader : s' = { s with header := { s.header with
      freeElements := Function.update s.header.freeElements v (nextFree v a) } } := by
    simp only [s', chunkSegmentUse, hsize]
  rw [hheader]
  exact hS.setHeader (hS.inv.useChunk hv hhand hne hroom) (fun id hid => own_update_hand _ hid) rfl

/-! ## Sequential segments -/

theorem Sound.newSequential (hS : Sound g s L) (hseg : seg < g.nDataSegments)
    (hfree : s.header.segmentInfos seg = 0) :
    let s' := sequentialSegmentNew s seg
    Sound g s' { L with lost := Function.update L.lost seg 0 } ∧ Keeps s s' L :=
  hS.setHeader (hS.inv.newSequential hseg hfree) (fun _ _ => rfl) rfl

/-- What is written at a position lies in the place. -/
theorem writeNat_eq_or {m : ℕ → UInt8} {a n k u : ℕ} :
    writeNat m a n k u = m u ∨ (a ≤ u ∧ u < a + n) := by
  by_cases hu : a ≤ u ∧ u < a + n
  · exact .inr hu
  · refine .inl (write_of_not_mem ?_)
    rw [length_leBytes]
    omega

theorem aligned_spec (size : ℕ) : size ≤ computeSequenceAlignedElementSize size ∧
    computeSequenceAlignedElementSize size % 4 = 0 ∧
      computeSequenceAlignedElementSize size < size + 4 := by
  rw [computeSequenceAlignedElementSize]
  omega

theorem Sound.useSequential {aligned : ℕ} (hS : Sound g s L) (hhand : L.own hand = .none)
    (hend : s.header.currPos + (size + 4) ≤ segmentSize)
    (haligned : computeSequenceAlignedElementSize size = aligned) :
    let s' := sequentialSegmentUse s id s.header.currSeg s.header.currPos
      (s.header.segmentInfos s.header.currSeg + computeSequenceAlignedDataSize size) size
    let p := Place.sequential s.header.currSeg (s.header.currPos + 4) aligned
    Sound g s' { L with own := Function.update L.own hand p } ∧ Keeps s s' L := by
  intro s' p
  obtain ⟨hle, hmod, hlt⟩ := aligned_spec size
  have halign := hS.inv.sequence.curr_aligned
  rw [haligned] at hle hmod hlt
  have hend' : s.header.currPos + (aligned + 4) ≤ segmentSize := by
    unfold segmentSize at hend ⊢
    omega
  have hinv := hS.inv.useSequential hhand hmod hend'
  have hmem : ∀ x u, s'.memory x u = s.memory x u ∨ p.Has x u := by
    intro x u
    by_cases hx : x = s.header.currSeg
    · subst hx
      have hhas : s.header.currPos ≤ u → u < s.header.currPos + 4 + aligned →
          p.Has s.header.currSeg u := fun hu hu' => ⟨rfl, by omega, hu'⟩
      simp only [s', sequentialSegmentUse, modify_self, haligned]
      split_ifs with hroom
      · rcases @writeNat_eq_or (writeNat (s.memory s.header.currSeg) s.header.currPos 4 id)
          (s.header.currPos + aligned) 4 0 u with h₁ | h₁
        · rcases @writeNat_eq_or (s.memory s.header.currSeg) s.header.currPos 4 id u with h₂ | h₂
          · exact .inl (h₁.trans h₂)
          · exact .inr (hhas (by omega) (by omega))
        · exact .inr (hhas (by omega) (by omega))
      · exact (@writeNat_eq_or (s.memory s.header.currSeg) s.header.currPos 4 id u).imp_right fun h₁ =>
          hhas (by omega) (by omega)
    · exact .inl (congrFun (Function.update_of_ne hx _ _) u)
  have hheader : s'.header = { s.header.setInfo s.header.currSeg
      (s.header.segmentInfos s.header.currSeg + (aligned + 4)) with
        currPos := s.header.currPos + (aligned + 4) } := by
    simp only [s', sequentialSegmentUse, computeSequenceAlignedDataSize, haligned]
    rfl
  have hnew : ({ L with own := Function.update L.own hand p } : Ledger).own hand = p := by
    simp only [Function.update_self]
  refine hS.step ?_ (fun id hid => own_update_hand _ hid) (by rw [hheader]; rfl) fun x u =>
    (hmem x u).imp_right fun h => .inr (.inr (.inr (by rw [hnew]; exact h)))
  rw [hheader]
  exact hinv.congr fun w hw d hd => hinv.ginfo_eq hw hd fun u => (hmem d u).imp_right fun h => by
    rw [hnew]
    exact h

theorem Sound.freeSequential (hS : Sound g s L)
    (hhand : L.own hand = .sequential seg pos (computeSequenceAlignedElementSize size)) :
    let s' := sequentialSegmentFree s seg pos
      ((s.header.segmentInfos seg + 0x100000000 - computeSequenceAlignedDataSize size) % 0x100000000)
      size
    Sound g s' { L with own := Function.update L.own hand .none } ∧ Keeps s s' L := by
  intro s'
  have hfits := hS.inv.owned.fits hand hand_lt
  rw [hhand] at hfits
  obtain ⟨hlt, hseq, hpos, -, -, -⟩ := hfits
  have hsum := hS.inv.sequence.sum seg hlt hseq
  have hself := sum_seqSize_drop hand_lt hhand seg
  rw [if_pos rfl] at hself
  have hinfo : (s.header.segmentInfos seg + 0x100000000 - computeSequenceAlignedDataSize size) %
      0x100000000 = s.header.segmentInfos seg - (computeSequenceAlignedElementSize size + 4) := by
    have hupper := hseq.2
    unfold segHuge at hupper
    rw [computeSequenceAlignedDataSize]
    omega
  have hheader : s'.header =
      freeSequentialHeader s.header seg (computeSequenceAlignedElementSize size) := by
    simp only [s', sequentialSegmentFree, hinfo, freeSequentialHeader, GrnJa.modify, Header.setInfo]
    by_cases hlast : s.header.segmentInfos seg - (computeSequenceAlignedElementSize size + 4) = segSeq
    · rw [if_pos hlast, if_pos hlast]
      by_cases hcurr : seg = s.header.currSeg
      · simp only [if_pos hcurr]
        exact if_pos hcurr
      · simp only [if_neg hcurr]
        exact if_neg hcurr
    · rw [if_neg hlast, if_neg hlast]
  have hmemory : s'.memory = Function.update s.memory seg (writeNat (s.memory seg) (pos - 4) 4
      (deleted + computeSequenceAlignedElementSize size)) := by
    simp only [s', sequentialSegmentFree]
    split_ifs <;> rfl
  have hmem : ∀ x u, s'.memory x u = s.memory x u ∨ (L.own hand).Has x u := by
    intro x u
    rw [hmemory, hhand]
    by_cases hx : x = seg
    · subst hx
      rw [Function.update_self]
      refine writeNat_eq_or.imp_right fun hu => ⟨rfl, by omega, ?_⟩
      omega
    · exact .inl (by rw [Function.update_of_ne hx])
  have hsegs : (freeSequentialHeader s.header seg (computeSequenceAlignedElementSize size)).elementSegs =
      s.header.elementSegs := by
    rw [freeSequentialHeader]
    split_ifs <;> rfl
  refine hS.step ?_ (fun id hid => own_update_hand _ hid) (by rw [hheader, hsegs]) fun x u =>
    (hmem x u).imp_right fun h => .inr (.inr (.inl h))
  rw [hheader]
  exact (hS.inv.freeSequential hhand).congr fun w hw d hd => hS.inv.ginfo_eq hw hd (hmem d)

/-! ## Segments of huge values -/

theorem Sound.newHuge (hS : Sound g s L) (hfree : s.header.segmentInfos seg = 0) :
    Sound g (hugeSegmentNew s seg) L ∧ Keeps s (hugeSegmentNew s seg) L :=
  hS.setHeader (hS.inv.newHuge hfree) (fun _ _ => rfl) rfl

theorem Sound.freeHuge (hS : Sound g s L) (hinfo : s.header.segmentInfos seg = segHuge)
    (hnone : ∀ i < nOwners, ¬ (L.own i).Touches seg) :
    Sound g (hugeSegmentFree s seg) L ∧ Keeps s (hugeSegmentFree s seg) L :=
  hS.setHeader (hS.inv.freeHuge hinfo hnone) (fun _ _ => rfl) rfl

/-! ## Element infos -/

/-- **A segment of element infos.** The records that have their element infos there had no values. -/
theorem Sound.newEinfo (hS : Sound g s L) (hid : id < idLimit)
    (hvoid : s.header.elementSegs (id / nEinfoInASegment) = elementSegVoid)
    (hseg : seg < g.nDataSegments) (hfree : s.header.segmentInfos seg = 0) :
    let s' := einfoSegmentNew s id seg
    Sound g s' L ∧ Keeps s s' L ∧ s'.header.elementSegs (id / nEinfoInASegment) = seg := by
  intro s'
  have hlimit := g.nDataSegments_le
  have hother : ∀ x, x ≠ seg → s'.memory x = s.memory x := fun x hx => Function.update_of_ne hx _ _
  have hself : s'.memory seg = fun _ => 0 := Function.update_self _ _ _
  have hsegs : s'.header.elementSegs =
      Function.update s.header.elementSegs (id / nEinfoInASegment) seg := rfl
  -- no record had an element info in the segment that was free
  have hold : ∀ j < idLimit, s.header.elementSegs (j / nEinfoInASegment) ≠ elementSegVoid →
      s.header.elementSegs (j / nEinfoInASegment) ≠ seg := by
    intro j hj hne heq
    have hle := (hS.info_einfo hj hne).1
    rw [heq, hfree] at hle
    exact absurd hle (by decide)
  have heinfo : ∀ j < idLimit, s'.einfo j = s.einfo j := by
    intro j hj
    simp only [GrnJa.einfo, hsegs]
    by_cases hl : j / nEinfoInASegment = id / nEinfoInASegment
    · rw [hl, Function.update_self, hvoid, if_pos rfl, if_neg (by unfold elementSegVoid; omega), hself]
      have hzero : read (fun _ : ℕ => (0 : UInt8)) (8 * (j % nEinfoInASegment)) 8 = leBytes 8 0 := by
        rfl
      rw [readNat, hzero]
      exact (leNat_leBytes 8 0).trans (Nat.zero_mod _)
    · rw [Function.update_of_ne hl]
      split_ifs with hne
      · rfl
      · rw [hother _ (hold j hj hne)]
  have hinv : Inv g s'.header (fun c => ginfo (s'.memory c)) L := by
    refine (hS.inv.newEinfo (lseg_lt hid) hvoid hseg hfree).congr fun v hv c hc => ?_
    rw [hother c]
    rintro rfl
    have hinfo := hS.info_chain hv hc
    rw [hfree] at hinfo
    exact absurd hinfo (by decide)
  refine ⟨⟨hinv, fun j hj => by rw [heinfo j hj]; exact hS.own j hj,
    fun j hj => by rw [heinfo j hj]; exact hS.whole j hj⟩, ⟨heinfo, fun j hj x u hu => ?_⟩, ?_⟩
  · rw [hother x]
    rintro rfl
    exact (hS.inv.owned.fits j (lt_nOwners hj)).info_ne_zero hu.touches hfree
  · rw [hsegs, Function.update_self]

/-- **The element info of a record is set**, and the places of the record and in `hand` are
exchanged. -/
theorem Sound.useEinfo (hS : Sound g s L) (hid : id < idLimit)
    (hvoid : s.header.elementSegs (id / nEinfoInASegment) ≠ elementSegVoid)
    (hhand : L.own hand = place g e) (hwhole : Whole e) (hlt : e < 256 ^ 8) :
    let s' := einfoSegmentUse s id (s.header.elementSegs (id / nEinfoInASegment)) e
    let L' := { L with own := fun i => L.own (Equiv.swap id hand i) }
    Sound g s' L' ∧ s'.einfo id = e ∧ (∀ j < idLimit, j ≠ id → s'.einfo j = s.einfo j) ∧
      ∀ i < nOwners, ∀ x u, (L.own i).Has x u → s'.memory x u = s.memory x u := by
  intro s' L'
  have hl := lseg_lt hid
  obtain ⟨hle, hlt'⟩ := hS.info_einfo hid hvoid
  have hother : ∀ x, x ≠ s.header.elementSegs (id / nEinfoInASegment) → s'.memory x = s.memory x :=
    fun x hx => Function.update_of_ne hx _ _
  have hself : s'.memory (s.header.elementSegs (id / nEinfoInASegment)) = writeNat
      (s.memory (s.header.elementSegs (id / nEinfoInASegment))) (8 * (id % nEinfoInASegment)) 8 e :=
    Function.update_self _ _ _
  have hheader : s'.header = s.header := by
    have hsegs : Function.update s.header.elementSegs (id / nEinfoInASegment)
        (s.header.elementSegs (id / nEinfoInASegment)) = s.header.elementSegs :=
      Function.update_eq_self _ _
    simp only [s', einfoSegmentUse, GrnJa.modify, hsegs]
  have hnew : s'.einfo id = e := by
    simp only [GrnJa.einfo, hheader]
    rw [if_neg hvoid, hself, readNat_writeNat, Nat.mod_eq_of_lt hlt]
  have hrest : ∀ j < idLimit, j ≠ id → s'.einfo j = s.einfo j := by
    intro j hj hne
    simp only [GrnJa.einfo, hheader]
    split_ifs with hvoid'
    · rfl
    · by_cases hseg : s.header.elementSegs (j / nEinfoInASegment) =
          s.header.elementSegs (id / nEinfoInASegment)
      · -- in the same segment another element info has another position
        have hinfo := (hS.inv.einfos.info _ (lseg_lt hj) hvoid').2
        have hinfo' := (hS.inv.einfos.info _ hl hvoid).2
        rw [hseg, hinfo'] at hinfo
        have hdiv : j / nEinfoInASegment = id / nEinfoInASegment := by omega
        have hmod : j % nEinfoInASegment ≠ id % nEinfoInASegment := by
          intro hmod
          have hj' := Nat.div_add_mod j nEinfoInASegment
          have hid' := Nat.div_add_mod id nEinfoInASegment
          rw [hdiv, hmod] at hj'
          exact hne (hj'.symm.trans hid')
        rw [hseg, hself]
        generalize j % nEinfoInASegment = a at *
        generalize id % nEinfoInASegment = b at *
        exact readNat_writeNat_of_apart (by omega)
      · rw [hother _ hseg]
  have hmem : ∀ i < nOwners, ∀ x u, (L.own i).Has x u → s'.memory x u = s.memory x u := by
    intro i hi x u hu
    rw [hother x]
    rintro rfl
    have hinfo := (hS.inv.owned.fits i hi).info_lt hu.touches
    omega
  have hinv : Inv g s'.header (fun c => ginfo (s'.memory c)) L' := by
    rw [hheader]
    refine (hS.inv.congr fun v hv c hc => ?_).swap (lt_nOwners hid)
    rw [hother c]
    rintro rfl
    have hinfo := hS.info_chain hv hc
    omega
  refine ⟨⟨hinv, fun j hj => ?_, fun j hj => ?_⟩, hnew, hrest, hmem⟩
  · by_cases hjid : j = id
    · subst hjid
      show L.own (Equiv.swap j hand j) = _
      rw [Equiv.swap_apply_left, hnew, hhand]
    · show L.own (Equiv.swap id hand j) = _
      rw [Equiv.swap_apply_of_ne_of_ne hjid (ne_hand hj), hrest j hj hjid, hS.own j hj]
  · by_cases hjid : j = id
    · subst hjid
      rw [hnew]
      exact hwhole
    · rw [hrest j hj hjid]
      exact hS.whole j hj

end Groonga.Ja
