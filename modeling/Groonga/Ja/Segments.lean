import Groonga.Ja.Steps

/-!
# What the steps for whole segments do to the ledger

A part of a sequential segment is given back, and with the last one its segment. Segments of huge
values are prepared one by one and then handed out together; they are given back one by one. A
segment is made one of element infos. The place in `hand` and that of a record are exchanged.
-/

namespace Groonga.Ja

open Lib

variable {g : Config} {h h' : Header} {gi gi' : ℕ → GInfo} {L : Ledger} {own : ℕ → Place}
  {lost : ℕ → ℕ} {chain : ℕ → List ℕ} {garbage : ℕ → List Pos} {p q : Place} {x k v seg pos size : ℕ}

/-! ## Sequential segments -/

/-- What is in use of a sequential segment when a part is given back. -/
theorem sum_seqSize_drop (hk : k < nOwners) (hown : own k = .sequential seg pos size) (y : ℕ) :
    (∑ i ∈ Finset.range nOwners, seqSize y (Function.update own k .none i)) +
        (if y = seg then size + 4 else 0) =
      ∑ i ∈ Finset.range nOwners, seqSize y (own i) := by
  have hsum := @sum_update own k (seqSize y) hk .none
  have hnone : seqSize y .none = 0 := rfl
  have hold : seqSize y (.sequential seg pos size) = if y = seg then size + 4 else 0 := by
    rw [seqSize]
    exact if_congr eq_comm rfl rfl
  rw [hown, hnone, hold] at hsum
  exact hsum.trans (Nat.add_zero _)

theorem update_none_sequential {i : ℕ}
    (heq : Function.update own k .none i = .sequential seg pos size) :
    own i = .sequential seg pos size := by
  by_cases hik : i = k
  · subst hik
    rw [Function.update_self] at heq
    exact absurd heq (by simp)
  · rwa [Function.update_of_ne hik] at heq

/-- A part of a sequential segment that is not the last one is given back. -/
theorem Sequence.free (hS : Sequence g h lost own) (hk : k < nOwners)
    (hown : own k = .sequential seg pos size) (hlt : seg < g.nDataSegments)
    (hseq : IsSeq (h.segmentInfos seg)) :
    IsSeq (h.segmentInfos seg - (size + 4)) ∧
      Sequence g (h.setInfo seg (h.segmentInfos seg - (size + 4))) lost
        (Function.update own k .none) := by
  have hsum := hS.sum seg hlt hseq
  have hdrop := sum_seqSize_drop hk hown
  have hself := hdrop seg
  rw [if_pos rfl] at hself
  have hinfo : IsSeq (h.segmentInfos seg - (size + 4)) :=
    ⟨by omega, Nat.lt_of_le_of_lt (Nat.sub_le _ _) hseq.2⟩
  refine ⟨hinfo, hS.curr_le, hS.curr_aligned, fun hne => ?_,
    fun i hi pos' size' heq => hS.below i hi pos' size' (update_none_sequential heq),
    fun y hy hy' => ?_, fun y hy hy' => ?_⟩
  · obtain ⟨hcurr, hcurrSeq⟩ := hS.curr_seq hne
    refine ⟨hcurr, ?_⟩
    show IsSeq ((h.setInfo seg _).segmentInfos h.currSeg)
    by_cases hys : h.currSeg = seg
    · rw [hys, setInfo_self]
      exact hinfo
    · rwa [setInfo_of_ne hys]
  · by_cases hys : y = seg
    · subst hys
      rw [setInfo_self]
      omega
    · have hother := hdrop y
      rw [if_neg hys, Nat.add_zero] at hother
      rw [setInfo_of_ne hys] at hy' ⊢
      rw [hother]
      exact hS.sum y hy hy'
  · by_cases hys : y = seg
    · subst hys
      obtain ⟨hle, hcurr⟩ := hS.sum_le y hlt hseq
      rw [setInfo_self]
      exact ⟨by omega, fun heq => Nat.le_trans (Nat.sub_le _ _) (hcurr heq)⟩
    · rw [setInfo_of_ne hys] at hy' ⊢
      exact hS.sum_le y hy hy'

/-- With the last part a sequential segment is given back. -/
theorem Sequence.freeLast (hS : Sequence g h lost own) (hk : k < nOwners)
    (hown : own k = .sequential seg pos size) (hlt : seg < g.nDataSegments)
    (hseq : IsSeq (h.segmentInfos seg)) (hlast : h.segmentInfos seg = segSeq + (size + 4)) :
    (∀ i < nOwners, i ≠ k → ∀ pos' size', own i ≠ .sequential seg pos' size') ∧
      Sequence g { h.setInfo seg 0 with currPos := if seg = h.currSeg then segmentSize else h.currPos }
        lost (Function.update own k .none) := by
  have hsum := hS.sum seg hlt hseq
  have hdrop := sum_seqSize_drop hk hown
  have hself := hdrop seg
  rw [if_pos rfl] at hself
  have hzero : ∑ i ∈ Finset.range nOwners, seqSize seg (Function.update own k .none i) = 0 := by
    omega
  have halone : ∀ i < nOwners, i ≠ k → ∀ pos' size', own i ≠ .sequential seg pos' size' := by
    intro i hi hik pos' size' heq
    have hterm := Finset.sum_eq_zero_iff.mp hzero i (Finset.mem_range.mpr hi)
    rw [Function.update_of_ne hik, heq, seqSize, if_pos rfl] at hterm
    omega
  have hsegs : ∀ y, IsSeq ((h.setInfo seg 0).segmentInfos y) → y ≠ seg ∧ IsSeq (h.segmentInfos y) := by
    intro y hy
    have hne : y ≠ seg := by
      rintro rfl
      rw [setInfo_self] at hy
      exact not_isSeq_zero hy
    rw [setInfo_of_ne hne] at hy
    exact ⟨hne, hy⟩
  refine ⟨halone, ?_, ?_, fun hne => ?_, fun i hi pos' size' heq => ?_, fun y hy hy' => ?_,
    fun y hy hy' => ?_⟩
  · show (if seg = h.currSeg then segmentSize else h.currPos) ≤ segmentSize
    split_ifs
    · exact Nat.le_refl _
    · exact hS.curr_le
  · show (if seg = h.currSeg then segmentSize else h.currPos) % 4 = 0
    split_ifs
    · decide
    · exact hS.curr_aligned
  · simp only at hne ⊢
    split_ifs at hne with hcurr
    · exact absurd rfl hne
    · obtain ⟨hcurrLt, hcurrSeq⟩ := hS.curr_seq hne
      refine ⟨hcurrLt, ?_⟩
      show IsSeq ((h.setInfo seg 0).segmentInfos h.currSeg)
      rwa [setInfo_of_ne (Ne.symm hcurr)]
  · show pos' + size' ≤ if seg = h.currSeg then segmentSize else h.currPos
    have hold := hS.below i hi pos' size' (update_none_sequential heq)
    have hle := hS.curr_le
    split_ifs
    · omega
    · exact hold
  · obtain ⟨hys, hseq'⟩ := hsegs y hy'
    have hother := hdrop y
    rw [if_neg hys, Nat.add_zero] at hother
    show (h.setInfo seg 0).segmentInfos y = _
    rw [setInfo_of_ne hys, hother]
    exact hS.sum y hy hseq'
  · obtain ⟨hys, hseq'⟩ := hsegs y hy'
    obtain ⟨hle, hcurr⟩ := hS.sum_le y hy hseq'
    show (h.setInfo seg 0).segmentInfos y ≤ _ ∧ (y = h.currSeg →
      (h.setInfo seg 0).segmentInfos y ≤ segSeq + if seg = h.currSeg then segmentSize else h.currPos)
    rw [setInfo_of_ne hys]
    refine ⟨hle, fun heq => ?_⟩
    rw [if_neg fun hseg => hys (heq.trans hseg.symm)]
    exact hcurr heq

/-- The header after a part of a sequential segment was given back. -/
def freeSequentialHeader (h : Header) (seg size : ℕ) : Header :=
  if h.segmentInfos seg - (size + 4) = segSeq then
    { h.setInfo seg 0 with currPos := if seg = h.currSeg then segmentSize else h.currPos }
  else h.setInfo seg (h.segmentInfos seg - (size + 4))

/-- **A part of a sequential segment is given back.** -/
theorem Inv.freeSequential (hI : Inv g h gi L) (hhand : L.own hand = .sequential seg pos size) :
    Inv g (freeSequentialHeader h seg size) gi { L with own := Function.update L.own hand .none } := by
  have hfits := hI.owned.fits hand hand_lt
  rw [hhand] at hfits
  obtain ⟨hlt, hseq, hrest⟩ := hfits
  have hK := @Chunks.update g h L.own (fun v => chunksOf g gi (L.chain v)) .none hand hI.chunks hand_lt
    (by rw [hhand]; simp) (by simp)
  have hO := hI.owned.drop hand
  rw [freeSequentialHeader]
  by_cases hlast : h.segmentInfos seg - (size + 4) = segSeq
  · rw [if_pos hlast]
    have hsum := hI.sequence.sum seg hlt hseq
    have hself := sum_seqSize_drop hand_lt hhand seg
    rw [if_pos rfl] at hself
    obtain ⟨halone, hS⟩ := hI.sequence.freeLast hand_lt hhand hlt hseq (by omega)
    have hcompat := @compat_setInfo_except h seg 0
    refine ⟨hI.einfos.mono hcompat rfl fun y hy => .inl ?_, hI.chains.mono hcompat rfl fun y hy => ?_,
      hK.mono hcompat rfl rfl fun y hy => .inr ?_, hS, hO.mono hcompat fun y hy i hi htouch => ?_⟩
    · rw [hy]
      exact Nat.lt_trans hseq.2 (by decide)
    · rw [hy]
      exact Nat.lt_trans hseq.2 (by decide)
    · rw [hy]
      exact hseq.1
    · -- the other places are not in the segment
      subst hy
      by_cases hik : i = hand
      · subst hik
        simp only [Function.update_self] at htouch
        exact htouch
      · have hfits := hI.owned.fits i hi
        simp only [Function.update_of_ne hik] at htouch
        cases hcase : L.own i with
        | none =>
          rw [hcase] at htouch
          exact htouch
        | chunk a w =>
          rw [hcase] at hfits htouch
          rw [show y = a.seg from htouch, hfits.2.info] at hseq
          exact not_isSeq_variation hfits.1 hseq
        | sequential seg' pos' size' =>
          rw [hcase] at htouch
          obtain rfl : y = seg' := htouch
          exact halone i hi hik pos' size' hcase
        | huge seg' n =>
          rw [hcase] at hfits htouch
          rw [hfits.2.2 _ htouch.1 htouch.2] at hseq
          exact not_isSeq_of_segHuge_le (Nat.le_refl _) hseq
  · rw [if_neg hlast]
    obtain ⟨hinfo, hS⟩ := hI.sequence.free hand_lt hhand hlt hseq
    have hcompat := compat_setInfo_of_isSeq hseq hinfo
    exact ⟨hI.einfos.mono hcompat rfl fun _ hx => hx.elim,
      hI.chains.mono hcompat rfl fun _ hx => hx.elim, hK.mono hcompat rfl rfl fun _ hx => hx.elim, hS,
      hO.mono hcompat fun _ hx => hx.elim⟩

/-! ## Segments of huge values -/

/-- **A segment of a huge value.** -/
theorem Inv.newHuge (hI : Inv g h gi L) (hfree : h.segmentInfos seg = 0) :
    Inv g (h.setInfo seg segHuge) gi L := by
  have hcompat := @compat_setInfo_of_free h seg segHuge hfree
  exact ⟨hI.einfos.mono hcompat rfl fun _ hx => hx.elim, hI.chains.mono hcompat rfl fun _ hx => hx.elim,
    hI.chunks.mono hcompat rfl rfl fun _ hx => hx.elim,
    hI.sequence.setInfo (by rw [hfree]; exact not_isSeq_zero)
      (not_isSeq_of_segHuge_le (Nat.le_refl _)), hI.owned.mono hcompat fun _ hx => hx.elim⟩

/-- **The segments of a huge value are handed out together.** -/
theorem Inv.useHuge {n : ℕ} (hI : Inv g h gi L) (hhand : L.own hand = .none)
    (hfits : (Place.huge seg n).Fits g h)
    (hfresh : ∀ x, seg ≤ x → x < seg + n → ∀ i < nOwners, ¬ (L.own i).Touches x) :
    Inv g h gi { L with own := Function.update L.own hand (.huge seg n) } := by
  refine ⟨hI.einfos, hI.chains, hI.chunks.update hand_lt (by rw [hhand]; simp) (by simp),
    hI.sequence.update hand_lt (by rw [hhand]; simp) (by simp), hI.owned.update hfits fun i hi _ => ?_⟩
  rintro x u ⟨hle, hlt⟩ hu
  exact hfresh x hle hlt i hi hu.touches

/-- The segments of a huge value are with no one any more. -/
theorem Inv.dropHuge {n : ℕ} (hI : Inv g h gi L) (hhand : L.own hand = .huge seg n) :
    Inv g h gi { L with own := Function.update L.own hand .none } ∧
      ∀ x, seg ≤ x → x < seg + n → ∀ i < nOwners,
        ¬ (Function.update L.own hand .none i).Touches x := by
  refine ⟨⟨hI.einfos, hI.chains, hI.chunks.update hand_lt (by rw [hhand]; simp) (by simp),
    hI.sequence.update hand_lt (by rw [hhand]; simp) (by simp), hI.owned.drop hand⟩,
    fun x hle hlt i hi htouch => ?_⟩
  by_cases hik : i = hand
  · subst hik
    rw [Function.update_self] at htouch
    exact htouch
  · rw [Function.update_of_ne hik] at htouch
    have hfits := hI.owned.fits hand hand_lt
    have hother := hI.owned.fits i hi
    have hapart := hI.owned.apart hand hand_lt i hi (Ne.symm hik)
    rw [hhand] at hfits hapart
    have hinfo := hfits.2.2 x hle hlt
    cases hcase : L.own i with
    | none =>
      rw [hcase] at htouch
      exact htouch
    | chunk a w =>
      rw [hcase] at htouch hother
      rw [show x = a.seg from htouch, hother.2.info] at hinfo
      have hw := hother.1
      unfold segHuge at hinfo
      unfold nVariations at hw
      omega
    | sequential seg' pos' size' =>
      rw [hcase] at htouch hother
      rw [show x = seg' from htouch] at hinfo
      have hseq := hother.2.1
      rw [hinfo] at hseq
      exact not_isSeq_of_segHuge_le (Nat.le_refl _) hseq
    | huge seg' n' =>
      rw [hcase] at htouch hapart
      exact hapart x 0 ⟨hle, hlt⟩ htouch

/-- **A segment of a huge value is given back.** -/
theorem Inv.freeHuge (hI : Inv g h gi L) (hinfo : h.segmentInfos seg = segHuge)
    (hnone : ∀ i < nOwners, ¬ (L.own i).Touches seg) : Inv g (h.setInfo seg 0) gi L := by
  have hcompat := @compat_setInfo_except h seg 0
  refine ⟨hI.einfos.mono hcompat rfl fun x hx => .inl ?_, hI.chains.mono hcompat rfl fun x hx => ?_,
    hI.chunks.mono hcompat rfl rfl fun x hx => .inr ?_,
    hI.sequence.setInfo (by rw [hinfo]; exact not_isSeq_of_segHuge_le (Nat.le_refl _)) not_isSeq_zero,
    hI.owned.mono hcompat fun x hx i hi => ?_⟩
  · rw [hx, hinfo]
    decide
  · rw [hx, hinfo]
    decide
  · rw [hx, hinfo]
    decide
  · rw [hx]
    exact hnone i hi

/-! ## Segments of element infos -/

/-- **A segment of element infos.** -/
theorem Inv.newEinfo {l : ℕ} (hI : Inv g h gi L) (hl : l < nElementSegments)
    (hvoid : h.elementSegs l = elementSegVoid) (hseg : seg < g.nDataSegments)
    (hfree : h.segmentInfos seg = 0) :
    Inv g { h.setInfo seg (segEinfo + l) with
      elementSegs := Function.update h.elementSegs l seg } gi L := by
  have hcompat := @compat_setInfo_of_free h seg (segEinfo + l) hfree
  have hE : EinfoSegments g (h.setInfo seg (segEinfo + l)) :=
    hI.einfos.mono hcompat rfl fun _ hx => hx.elim
  have hne : l ≠ 0 := by
    rintro rfl
    rw [hI.einfos.zero.1] at hvoid
    exact absurd hvoid (by decide)
  have hS := hI.sequence.setInfo (by rw [hfree]; exact not_isSeq_zero)
    (not_isSeq_of_segHuge_le (show segHuge ≤ segEinfo + l by unfold segHuge segEinfo; omega))
  refine ⟨⟨⟨?_, hE.zero.2⟩, fun m hm hmne => ?_⟩, hI.chains.mono hcompat rfl fun _ hx => hx.elim,
    hI.chunks.mono hcompat rfl rfl fun _ hx => hx.elim,
    ⟨hS.curr_le, hS.curr_aligned, hS.curr_seq, hS.below, hS.sum, hS.sum_le⟩,
    hI.owned.mono hcompat fun _ hx => hx.elim⟩
  · simp only [Function.update_of_ne (Ne.symm hne)]
    exact hE.zero.1
  · by_cases hml : m = l
    · subst hml
      simp only [Function.update_self]
      exact ⟨hseg, setInfo_self _ _ _⟩
    · simp only [Function.update_of_ne hml] at hmne ⊢
      exact hE.info m hm hmne

/-! ## Places that are exchanged -/

theorem swap_lt {i : ℕ} (hk : k < nOwners) (hi : i < nOwners) : Equiv.swap k hand i < nOwners := by
  rw [Equiv.swap_apply_def]
  split_ifs
  · exact hand_lt
  · exact hk
  · exact hi

/-- A sum over the ledger does not depend on who has which place. -/
theorem sum_swap (f : Place → ℕ) (hk : k < nOwners) :
    ∑ i ∈ Finset.range nOwners, f (own (Equiv.swap k hand i)) =
      ∑ i ∈ Finset.range nOwners, f (own i) := by
  refine Finset.sum_bij (fun i _ => Equiv.swap k hand i) (fun i hi => ?_)
    (fun i _ j _ heq => (Equiv.swap k hand).injective heq) (fun i hi => ?_) fun i _ => rfl
  · exact Finset.mem_range.mpr (swap_lt hk (Finset.mem_range.mp hi))
  · exact ⟨Equiv.swap k hand i, Finset.mem_range.mpr (swap_lt hk (Finset.mem_range.mp hi)),
      Equiv.swap_apply_self _ _ _⟩

/-- **The place in `hand` and that of a record are exchanged.** -/
theorem Inv.swap (hI : Inv g h gi L) (hk : k < nOwners) :
    Inv g h gi { L with own := fun i => L.own (Equiv.swap k hand i) } := by
  have hK := hI.chunks
  have hS := hI.sequence
  have hlt : ∀ {i}, i < nOwners → Equiv.swap k hand i < nOwners := swap_lt hk
  refine ⟨hI.einfos, hI.chains, ⟨hK.count, hK.fits, hK.nodup, hK.tail,
    fun w hw a ha => hK.below w hw a (ha.imp_right fun ⟨i, hi, heq⟩ => ⟨_, hlt hi, heq⟩),
    fun i hi a w hw heq => hK.fresh _ (hlt hi) a w hw heq, fun w hw => ?_⟩,
    ⟨hS.curr_le, hS.curr_aligned, hS.curr_seq, fun i hi => hS.below _ (hlt hi),
      fun y hy hseq => ?_, hS.sum_le⟩,
    ⟨fun i hi => hI.owned.fits _ (hlt hi), fun i hi j hj hij =>
      hI.owned.apart _ (hlt hi) _ (hlt hj) fun heq => hij ((Equiv.swap k hand).injective heq)⟩⟩
  · rw [sum_swap (isChunk w) hk]
    exact hK.bound w hw
  · rw [sum_swap (seqSize y) hk]
    exact hS.sum y hy hseq

end Groonga.Ja
