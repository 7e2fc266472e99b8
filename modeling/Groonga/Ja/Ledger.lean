import Groonga.Ja.Places

/-!
# Who has which place

The places of all records, and one more that is being handed over, are kept in a ledger together
with the garbage infos of each chunk size. The segments of element infos, of garbage infos and of
values have their own segment infos. Chunks that are not used any more are different from each
other and from those in use, and all of them lie in front of the chunk that is handed out next. The
info of a sequential segment has the sum of the sizes that are in use there.
-/

namespace Groonga.Ja

open Lib

/-- The records, and a place that is being handed over. -/
@[irreducible] def nOwners : ℕ := idLimit + 1

/-- The places of the records, the garbage infos of the chunk sizes, and what was handed out of the
sequential segments and is not known to anyone any more. -/
structure Ledger where
  own : ℕ → Place
  chain : ℕ → List ℕ
  lost : ℕ → ℕ

/-! ## Parts of the invariant -/

/-- From `start` the garbage infos lead to each other. -/
def Path (gi : ℕ → GInfo) : ℕ → List ℕ → Prop
  | start, [] => start = 0
  | start, c :: cs => start = c ∧ c ≠ 0 ∧ Path gi (gi c).next cs

/-- The chunks that are recorded in garbage infos. -/
def chunksOf (g : Config) (gi : ℕ → GInfo) (chain : List ℕ) : List Pos :=
  chain.flatMap fun c => ring (gi c).recs g.nGarbagesInASegment (gi c).tail (gi c).nrecs

/-- The segments of element infos. The first one is there from the beginning. -/
structure EinfoSegments (g : Config) (h : Header) : Prop where
  zero : h.elementSegs 0 = 0 ∧ h.segmentInfos 0 = segEinfo
  info : ∀ l < nElementSegments, h.elementSegs l ≠ elementSegVoid →
    h.elementSegs l < g.nDataSegments ∧ h.segmentInfos (h.elementSegs l) = segEinfo + l

/-- The garbage infos of each chunk size. -/
structure Chains (g : Config) (h : Header) (gi : ℕ → GInfo) (chain : ℕ → List ℕ) : Prop where
  path : ∀ v < nVariations, Path gi (h.garbages v) (chain v)
  nodup : ∀ v < nVariations, (chain v).Nodup
  info : ∀ v < nVariations, ∀ c ∈ chain v, c < g.nDataSegments ∧ h.segmentInfos c = segGinfo + v
  ring : ∀ v < nVariations, ∀ c ∈ chain v, (gi c).tail < g.nGarbagesInASegment ∧
    (gi c).head = ((gi c).tail + (gi c).nrecs) % g.nGarbagesInASegment ∧
      (gi c).nrecs ≤ g.nGarbagesInASegment

/-- A place is a chunk of the variation. -/
def isChunk (v : ℕ) : Place → ℕ
  | .chunk _ w => if w = v then 1 else 0
  | .none => 0
  | .sequential _ _ _ => 0
  | .huge _ _ => 0

/-- What a place takes of a sequential segment. -/
def seqSize (seg : ℕ) : Place → ℕ
  | .sequential x _ size => if x = seg then size + 4 else 0
  | .none => 0
  | .chunk _ _ => 0
  | .huge _ _ => 0

/-- The chunks that are in use, that are recorded in garbage infos, and that were never used. -/
structure Chunks (g : Config) (h : Header) (garbage : ℕ → List Pos) (own : ℕ → Place) : Prop where
  count : ∀ v < nVariations, h.nGarbages v = (garbage v).length
  fits : ∀ v < nVariations, ∀ a ∈ garbage v, IsSlot g h v a
  nodup : ∀ v < nVariations, (garbage v).Nodup
  tail : ∀ v < nVariations, (h.freeElements v).seg ≠ 0 → IsSlot g h v (h.freeElements v)
  below : ∀ v < nVariations, ∀ a, (a ∈ garbage v ∨ ∃ i < nOwners, own i = .chunk a v) →
    a.seg = (h.freeElements v).seg → a.pos < (h.freeElements v).pos
  fresh : ∀ i < nOwners, ∀ a, ∀ v < nVariations, own i = .chunk a v → a ∉ garbage v
  bound : ∀ v < nVariations,
    (garbage v).length + ∑ i ∈ Finset.range nOwners, isChunk v (own i) ≤ nOwners + nGarbagesTh

/-- The sequential segments. -/
structure Sequence (g : Config) (h : Header) (lost : ℕ → ℕ) (own : ℕ → Place) : Prop where
  curr_le : h.currPos ≤ segmentSize
  curr_aligned : h.currPos % 4 = 0
  curr_seq : h.currPos ≠ segmentSize → h.currSeg < g.nDataSegments ∧ IsSeq (h.segmentInfos h.currSeg)
  below : ∀ i < nOwners, ∀ pos size, own i = .sequential h.currSeg pos size → pos + size ≤ h.currPos
  sum : ∀ seg < g.nDataSegments, IsSeq (h.segmentInfos seg) →
    h.segmentInfos seg = segSeq + (lost seg + ∑ i ∈ Finset.range nOwners, seqSize seg (own i))
  sum_le : ∀ seg < g.nDataSegments, IsSeq (h.segmentInfos seg) →
    h.segmentInfos seg ≤ segSeq + segmentSize ∧
      (seg = h.currSeg → h.segmentInfos seg ≤ segSeq + h.currPos)

/-- The places are in segments for them and lie apart. -/
structure Owned (g : Config) (h : Header) (own : ℕ → Place) : Prop where
  fits : ∀ i < nOwners, (own i).Fits g h
  apart : ∀ i < nOwners, ∀ j < nOwners, i ≠ j → (own i).Apart (own j)

/-- **The invariant of the header**, for a ledger. `gi` gives the garbage infos. -/
structure Inv (g : Config) (h : Header) (gi : ℕ → GInfo) (L : Ledger) : Prop where
  einfos : EinfoSegments g h
  chains : Chains g h gi L.chain
  chunks : Chunks g h (fun v => chunksOf g gi (L.chain v)) L.own
  sequence : Sequence g h L.lost L.own
  owned : Owned g h L.own

variable {g : Config} {h h' : Header} {gi gi' : ℕ → GInfo} {L : Ledger} {own : ℕ → Place}
  {chain : ℕ → List ℕ} {garbage : ℕ → List Pos} {p q : Place} {x k v : ℕ}

/-! ## Segment infos that change -/

/-- A segment of values or a free one is given up. -/
theorem EinfoSegments.mono {except : ℕ → Prop} (hE : EinfoSegments g h) (hcompat : Compat except h h')
    (hsegs : h'.elementSegs = h.elementSegs)
    (hnot : ∀ x, except x → h.segmentInfos x < segEinfo ∨ segGinfo ≤ h.segmentInfos x) :
    EinfoSegments g h' := by
  have hkeep : ∀ x l, l < nElementSegments → h.segmentInfos x = segEinfo + l →
      h'.segmentInfos x = segEinfo + l := by
    intro x l hl hx
    have hbounds : segEinfo ≤ h.segmentInfos x ∧ h.segmentInfos x < segGinfo := by
      rw [hx]
      unfold segEinfo segGinfo nElementSegments at *
      omega
    have hinfo := hcompat.info_eq (fun hex => by have := hnot x hex; omega)
      (by unfold segEinfo at hbounds; omega)
      (not_isSeq_of_segHuge_le (by unfold segHuge; unfold segEinfo at hbounds; omega))
    rw [hinfo, hx]
  refine ⟨⟨by rw [hsegs]; exact hE.zero.1, hkeep 0 0 (by decide) hE.zero.2⟩, fun l hl hne => ?_⟩
  rw [hsegs] at hne ⊢
  obtain ⟨hlt, hinfo⟩ := hE.info l hl hne
  exact ⟨hlt, hkeep _ l hl hinfo⟩

theorem Chains.mono {except : ℕ → Prop} (hC : Chains g h gi chain) (hcompat : Compat except h h')
    (hgarbages : h'.garbages = h.garbages) (hnot : ∀ x, except x → h.segmentInfos x < segGinfo) :
    Chains g h' gi chain := by
  refine ⟨fun v hv => ?_, hC.nodup, fun v hv c hc => ?_, hC.ring⟩
  · rw [hgarbages]
    exact hC.path v hv
  · obtain ⟨hlt, hinfo⟩ := hC.info v hv c hc
    refine ⟨hlt, ?_⟩
    have hle : segGinfo ≤ h.segmentInfos c := by omega
    rw [hcompat.info_eq (fun hex => Nat.not_lt.mpr hle (hnot c hex))
      (by unfold segGinfo at hle; omega)
      (not_isSeq_of_segHuge_le (by unfold segHuge; unfold segGinfo at hle; omega)), hinfo]

theorem Owned.mono {except : ℕ → Prop} (hO : Owned g h own) (hcompat : Compat except h h')
    (hnot : ∀ x, except x → ∀ i < nOwners, ¬ (own i).Touches x) : Owned g h' own :=
  ⟨fun i hi => (hO.fits i hi).mono hcompat fun x hx => hnot x hx i hi, hO.apart⟩

theorem Chunks.mono {except : ℕ → Prop} (hK : Chunks g h garbage own) (hcompat : Compat except h h')
    (hcounts : h'.nGarbages = h.nGarbages) (hfree : h'.freeElements = h.freeElements)
    (hnot : ∀ x, except x → h.segmentInfos x = 0 ∨ segSeq ≤ h.segmentInfos x) :
    Chunks g h' garbage own := by
  have hkeep : ∀ v < nVariations, ∀ a, IsSlot g h v a → IsSlot g h' v a := by
    intro v hv a hslot
    refine hslot.mono hcompat hv fun hex => ?_
    have hinfo := hslot.info
    have := hnot _ hex
    unfold nVariations at hv
    unfold segSeq at this
    omega
  refine ⟨fun v hv => by rw [hcounts]; exact hK.count v hv, fun v hv a ha => ?_, hK.nodup, ?_, ?_,
    hK.fresh, hK.bound⟩
  · exact hkeep v hv a (hK.fits v hv a ha)
  · intro v hv hne
    rw [hfree] at hne ⊢
    exact hkeep v hv _ (hK.tail v hv hne)
  · rw [hfree]
    exact hK.below

/-! ## Places that change hands -/

/-- A sum over the ledger after one place was changed. -/
theorem sum_update {f : Place → ℕ} (hk : k < nOwners) (p : Place) :
    (∑ i ∈ Finset.range nOwners, f (Function.update own k p i)) + f (own k) =
      (∑ i ∈ Finset.range nOwners, f (own i)) + f p := by
  have hexchange := @sum_exchange nOwners k (fun i => f (Function.update own k p i)) (fun i => f (own i)) hk
    fun j hj => by simp only [Function.update_of_ne hj]
  simpa only [Function.update_self] using hexchange

/-- A place is given to an owner who had none, or taken. -/
theorem Owned.update (hO : Owned g h own) (hfits : p.Fits g h)
    (hapart : ∀ i < nOwners, i ≠ k → p.Apart (own i)) : Owned g h (Function.update own k p) := by
  refine ⟨fun i hi => ?_, fun i hi j hj hij => ?_⟩
  · by_cases hik : i = k
    · subst hik
      rwa [Function.update_self]
    · rw [Function.update_of_ne hik]
      exact hO.fits i hi
  · by_cases hik : i = k
    · subst hik
      rw [Function.update_self, Function.update_of_ne (Ne.symm hij)]
      exact hapart j hj (Ne.symm hij)
    · rw [Function.update_of_ne hik]
      by_cases hjk : j = k
      · subst hjk
        rw [Function.update_self]
        exact (hapart i hi hik).symm
      · rw [Function.update_of_ne hjk]
        exact hO.apart i hi j hj hij

/-- A place is taken from its owner. -/
theorem Owned.drop (hO : Owned g h own) (k : ℕ) : Owned g h (Function.update own k .none) :=
  hO.update trivial fun _ _ _ _ _ hnone => hnone.elim

end Groonga.Ja
