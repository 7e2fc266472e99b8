import Groonga.Ja.Ledger
import Mathlib

/-!
# What the steps do to the ledger

Each step of the store gives a place to the owner `hand`, takes its place, hands it over to a
record, or prepares a segment. All of them keep the invariant.
-/

namespace Groonga.Ja

open Lib

/-- The owner of the place that is being handed over. -/
def hand : ℕ := idLimit

theorem hand_lt : hand < nOwners := by
  unfold hand nOwners
  exact Nat.lt_add_one idLimit

variable {g : Config} {h h' : Header} {gi gi' : ℕ → GInfo} {L : Ledger} {own : ℕ → Place}
  {lost : ℕ → ℕ} {chain : ℕ → List ℕ} {garbage garbage' : ℕ → List Pos} {p q : Place} {x k v seg : ℕ}

/-- Nothing is in a free segment. -/
theorem Owned.not_touches (hO : Owned g h own) (hfree : h.segmentInfos x = 0) :
    ∀ i < nOwners, ¬ (own i).Touches x := fun i hi htouch =>
  (hO.fits i hi).info_ne_zero htouch hfree

theorem seqSize_eq_zero (hp : ¬ p.Touches x) : seqSize x p = 0 := by
  cases p with
  | none => rfl
  | chunk => rfl
  | sequential seg pos size => exact if_neg fun heq => hp heq.symm
  | huge => rfl

/-! ## Sequential segments that stay as they are -/

/-- The sequential segments and what is there stay as they are. -/
theorem Sequence.mono {own' : ℕ → Place} (hS : Sequence g h lost own) (hseg : h'.currSeg = h.currSeg)
    (hpos : h'.currPos = h.currPos)
    (hinfos : ∀ y, IsSeq (h.segmentInfos y) ∨ IsSeq (h'.segmentInfos y) →
      h'.segmentInfos y = h.segmentInfos y)
    (hown : ∀ i < nOwners, ∀ seg pos size, own' i = .sequential seg pos size →
      ∃ j < nOwners, own j = .sequential seg pos size)
    (hsum : ∀ seg, ∑ i ∈ Finset.range nOwners, seqSize seg (own' i) =
      ∑ i ∈ Finset.range nOwners, seqSize seg (own i)) : Sequence g h' lost own' := by
  refine ⟨by rw [hpos]; exact hS.curr_le, by rw [hpos]; exact hS.curr_aligned, fun hne => ?_,
    fun i hi pos size heq => ?_, fun y hy hseq => ?_, fun y hy hseq => ?_⟩
  · rw [hpos] at hne
    obtain ⟨hlt, hseq⟩ := hS.curr_seq hne
    rw [hseg, hinfos _ (.inl hseq)]
    exact ⟨hlt, hseq⟩
  · rw [hseg] at heq
    obtain ⟨j, hj, hown⟩ := hown i hi _ _ _ heq
    rw [hpos]
    exact hS.below j hj pos size hown
  · have hinfo := hinfos y (.inr hseq)
    rw [hinfo] at hseq ⊢
    rw [hsum]
    exact hS.sum y hy hseq
  · have hinfo := hinfos y (.inr hseq)
    rw [hinfo] at hseq ⊢
    rw [hseg, hpos]
    exact hS.sum_le y hy hseq

/-- A segment that was not and will not be a sequential one gets another info. -/
theorem isSeq_setInfo {info : ℕ} (hold : ¬ IsSeq (h.segmentInfos seg)) (hnew : ¬ IsSeq info) (y : ℕ)
    (hseq : IsSeq (h.segmentInfos y) ∨ IsSeq ((h.setInfo seg info).segmentInfos y)) :
    (h.setInfo seg info).segmentInfos y = h.segmentInfos y := by
  by_cases hy : y = seg
  · subst hy
    rw [setInfo_self] at hseq
    exact (hseq.elim hold hnew).elim
  · exact setInfo_of_ne hy

theorem not_isSeq_zero : ¬ IsSeq 0 := fun hseq => absurd hseq.1 (by decide)

/-- Another segment than a sequential one gets another info. -/
theorem Sequence.setInfo {info : ℕ} (hS : Sequence g h lost own) (hold : ¬ IsSeq (h.segmentInfos seg))
    (hnew : ¬ IsSeq info) : Sequence g (h.setInfo seg info) lost own :=
  hS.mono rfl rfl (isSeq_setInfo hold hnew) (fun i hi _ _ _ heq => ⟨i, hi, heq⟩) fun _ => rfl

/-- A place that is not in a sequential segment is exchanged for another one. -/
theorem Sequence.update (hS : Sequence g h lost own) (hk : k < nOwners)
    (hold : ∀ seg pos size, own k ≠ .sequential seg pos size)
    (hnew : ∀ seg pos size, p ≠ .sequential seg pos size) : Sequence g h lost (Function.update own k p) := by
  refine hS.mono rfl rfl (fun _ _ => rfl) (fun i hi seg pos size heq => ?_) fun seg => ?_
  · by_cases hik : i = k
    · subst hik
      rw [Function.update_self] at heq
      exact absurd heq (hnew _ _ _)
    · rw [Function.update_of_ne hik] at heq
      exact ⟨i, hi, heq⟩
  · have hzero : ∀ p : Place, (∀ seg pos size, p ≠ .sequential seg pos size) → seqSize seg p = 0 := by
      intro p hp
      cases p with
      | none => rfl
      | chunk => rfl
      | sequential => exact absurd rfl (hp _ _ _)
      | huge => rfl
    have hsum := @sum_update own k (seqSize seg) hk p
    rw [hzero _ hold, hzero _ hnew] at hsum
    exact Nat.add_right_cancel hsum

/-! ## Chunks -/

theorem Chunks.congr (hK : Chunks g h garbage own) (hsame : ∀ w < nVariations, garbage' w = garbage w) :
    Chunks g h garbage' own :=
  ⟨fun w hw => by rw [hsame w hw]; exact hK.count w hw,
    fun w hw b hb => hK.fits w hw b (by rwa [hsame w hw] at hb),
    fun w hw => by rw [hsame w hw]; exact hK.nodup w hw, hK.tail,
    fun w hw b hb => hK.below w hw b (by rwa [hsame w hw] at hb),
    fun i hi b w hw heq => by rw [hsame w hw]; exact hK.fresh i hi b w hw heq,
    fun w hw => by rw [hsame w hw]; exact hK.bound w hw⟩

/-- The chunk that is handed out next changes. -/
theorem Chunks.setFree {a : Pos} (hK : Chunks g h garbage own) (hinfos : h'.segmentInfos = h.segmentInfos)
    (hcounts : h'.nGarbages = h.nGarbages)
    (hfree : h'.freeElements = Function.update h.freeElements v a)
    (htail : a.seg ≠ 0 → IsSlot g h v a)
    (hbelow : ∀ b, (b ∈ garbage v ∨ ∃ i < nOwners, own i = .chunk b v) → b.seg = a.seg →
      b.pos < a.pos) : Chunks g h' garbage own := by
  have hslot : ∀ w b, IsSlot g h w b → IsSlot g h' w b := fun w b hb =>
    ⟨hb.seg_lt, by rw [hinfos]; exact hb.info, hb.aligned, hb.pos_lt⟩
  refine ⟨fun w hw => by rw [hcounts]; exact hK.count w hw,
    fun w hw b hb => hslot w b (hK.fits w hw b hb), hK.nodup, fun w hw hne => ?_,
    fun w hw b hb hseg => ?_, hK.fresh, hK.bound⟩
  · rw [hfree] at hne ⊢
    by_cases hwv : w = v
    · subst hwv
      rw [Function.update_self] at hne ⊢
      exact hslot w a (htail hne)
    · rw [Function.update_of_ne hwv] at hne ⊢
      exact hslot w _ (hK.tail w hw hne)
  · rw [hfree] at hseg ⊢
    by_cases hwv : w = v
    · subst hwv
      rw [Function.update_self] at hseg ⊢
      exact hbelow b hb hseg
    · rw [Function.update_of_ne hwv] at hseg ⊢
      exact hK.below w hw b hb hseg

/-- The segments of chunks are not free. -/
theorem Chunks.info_ne_zero {a : Pos} (hK : Chunks g h garbage own) (hO : Owned g h own)
    (hv : v < nVariations) (ha : a ∈ garbage v ∨ ∃ i < nOwners, own i = .chunk a v) :
    h.segmentInfos a.seg = v + 3 := by
  rcases ha with ha | ⟨i, hi, hown⟩
  · exact (hK.fits v hv a ha).info
  · have hfits := hO.fits i hi
    rw [hown] at hfits
    exact hfits.2.info

/-- **A segment for chunks.** -/
theorem Inv.newChunk (hI : Inv g h gi L) (hv : v < nVariations) (hseg : seg < g.nDataSegments)
    (hfree : h.segmentInfos seg = 0) :
    Inv g { h.setInfo seg (v + 3) with
      freeElements := Function.update h.freeElements v ⟨seg, 0⟩ } gi L := by
  have hcompat := @compat_setInfo_of_free h seg (v + 3) hfree
  have hK : Chunks g (h.setInfo seg (v + 3)) (fun v => chunksOf g gi (L.chain v)) L.own :=
    hI.chunks.mono hcompat rfl rfl fun _ hx => hx.elim
  refine ⟨hI.einfos.mono hcompat rfl fun _ hx => hx.elim,
    hI.chains.mono hcompat rfl fun _ hx => hx.elim, ?_, ?_, hI.owned.mono hcompat fun _ hx => hx.elim⟩
  · refine hK.setFree rfl rfl rfl
      (fun _ => ⟨hseg, setInfo_self _ _ _, Nat.zero_mod _, show 0 < segmentSize by decide⟩) ?_
    -- no chunk is in a segment that was free
    intro b hb hbseg
    have hinfo := hI.chunks.info_ne_zero hI.owned hv hb
    obtain rfl : b.seg = seg := hbseg
    omega
  · have hS := hI.sequence.setInfo (by rw [hfree]; exact not_isSeq_zero) (not_isSeq_variation hv)
    exact ⟨hS.curr_le, hS.curr_aligned, hS.curr_seq, hS.below, hS.sum, hS.sum_le⟩

/-- A place that is not a chunk is exchanged for another one. -/
theorem Chunks.update (hK : Chunks g h garbage own) (hk : k < nOwners) (hold : ∀ a v, own k ≠ .chunk a v)
    (hnew : ∀ a v, p ≠ .chunk a v) : Chunks g h garbage (Function.update own k p) := by
  have hown : ∀ i, ∀ a v, Function.update own k p i = .chunk a v → own i = .chunk a v := by
    intro i a v heq
    by_cases hik : i = k
    · subst hik
      rw [Function.update_self] at heq
      exact absurd heq (hnew a v)
    · rwa [Function.update_of_ne hik] at heq
  have hzero : ∀ v, ∀ p : Place, (∀ a v, p ≠ .chunk a v) → isChunk v p = 0 := by
    intro v p hp
    cases p with
    | none => rfl
    | chunk => exact absurd rfl (hp _ _)
    | sequential => rfl
    | huge => rfl
  refine ⟨hK.count, hK.fits, hK.nodup, hK.tail, fun v hv a ha => hK.below v hv a (ha.imp_right ?_),
    fun i hi a v hv heq => hK.fresh i hi a v hv (hown i a v heq), fun v hv => ?_⟩
  · rintro ⟨i, hi, heq⟩
    exact ⟨i, hi, hown i a v heq⟩
  · have hsum := @sum_update own k (isChunk v) hk p
    rw [hzero v _ hold, hzero v _ hnew] at hsum
    have hbound := hK.bound v hv
    omega

/-- The sum over the ledger when a chunk is taken or given. -/
theorem isChunk_le_one (v : ℕ) (p : Place) : isChunk v p ≤ 1 := by
  cases p with
  | none => exact Nat.zero_le _
  | chunk a w =>
    rw [isChunk]
    split_ifs
    · exact Nat.le_refl _
    · exact Nat.zero_le _
  | sequential => exact Nat.zero_le _
  | huge => exact Nat.zero_le _

theorem sum_isChunk_le (v : ℕ) (own : ℕ → Place) :
    ∑ i ∈ Finset.range nOwners, isChunk v (own i) ≤ nOwners := by
  calc ∑ i ∈ Finset.range nOwners, isChunk v (own i) ≤ ∑ _i ∈ Finset.range nOwners, 1 :=
        Finset.sum_le_sum fun i _ => isChunk_le_one v (own i)
    _ = nOwners := by simp

/-- A chunk is given to an owner who had none. -/
theorem Chunks.give {a : Pos} (hK : Chunks g h garbage own) (hk : k < nOwners)
    (hold : ∀ a v, own k ≠ .chunk a v) (hfresh : a ∉ garbage v)
    (hbelow : a.seg = (h.freeElements v).seg → a.pos < (h.freeElements v).pos)
    (hbound : (garbage v).length + ∑ i ∈ Finset.range nOwners,
      isChunk v (Function.update own k (.chunk a v) i) ≤ nOwners + nGarbagesTh) :
    Chunks g h garbage (Function.update own k (.chunk a v)) := by
  have hown : ∀ i b w, Function.update own k (.chunk a v) i = .chunk b w →
      (b = a ∧ w = v) ∨ own i = .chunk b w := by
    intro i b w heq
    by_cases hik : i = k
    · subst hik
      rw [Function.update_self, Place.chunk.injEq] at heq
      exact .inl ⟨heq.1.symm, heq.2.symm⟩
    · rw [Function.update_of_ne hik] at heq
      exact .inr heq
  refine ⟨hK.count, hK.fits, hK.nodup, hK.tail, fun w hw b hb hseg => ?_, fun i hi b w hw heq => ?_,
    fun w hw => ?_⟩
  · rcases hb with hb | ⟨i, hi, heq⟩
    · exact hK.below w hw b (.inl hb) hseg
    · rcases hown i b w heq with ⟨rfl, rfl⟩ | heq
      · exact hbelow hseg
      · exact hK.below w hw b (.inr ⟨i, hi, heq⟩) hseg
  · rcases hown i b w heq with ⟨rfl, rfl⟩ | heq
    · exact hfresh
    · exact hK.fresh i hi b w hw heq
  · by_cases hwv : w = v
    · subst hwv
      exact hbound
    · have hsum := @sum_update own k (isChunk w) hk (.chunk a v)
      have hzero : isChunk w (.chunk a v) = 0 := if_neg fun heq => hwv heq.symm
      have hbound := hK.bound w hw
      omega

/-- What is handed out next after the chunk at `a`. -/
def nextFree (v : ℕ) (a : Pos) : Pos :=
  if a.pos + 2 ^ (v + 3) = segmentSize then ⟨0, 0⟩ else ⟨a.seg, a.pos + 2 ^ (v + 3)⟩

/-- A chunk that no one else has lies apart from the places of the others. -/
theorem Owned.giveChunk {a : Pos} (hO : Owned g h own) (hv : v < nVariations) (hslot : IsSlot g h v a)
    (hfresh : ∀ i < nOwners, ∀ w, own i ≠ .chunk a w) :
    Owned g h (Function.update own k (.chunk a v)) :=
  hO.update ⟨hv, hslot⟩ fun i hi _ => apart_chunk ⟨hv, hslot⟩ (hO.fits i hi) fun b w hb heq =>
    hfresh i hi w (by rw [hb, heq])

/-- The variation of a chunk is given by its segment. -/
theorem Owned.variation_eq {a : Pos} {i w : ℕ} (hO : Owned g h own) (hi : i < nOwners)
    (hown : own i = .chunk a w) (hslot : IsSlot g h v a) : w = v := by
  have hfits := hO.fits i hi
  rw [hown] at hfits
  have h₁ := hfits.2.info
  have h₂ := hslot.info
  omega

/-- **A chunk that was never used is handed out.** -/
theorem Inv.useChunk (hI : Inv g h gi L) (hv : v < nVariations) (hhand : L.own hand = .none)
    (hne : (h.freeElements v).seg ≠ 0) (hroom : h.nGarbages v ≤ nGarbagesTh) :
    Inv g { h with freeElements := Function.update h.freeElements v (nextFree v (h.freeElements v)) } gi
      { L with own := Function.update L.own hand (.chunk (h.freeElements v) v) } := by
  have hslot := hI.chunks.tail v hv hne
  have hpos : 0 < 2 ^ (v + 3) := Nat.two_pow_pos _
  have hbelow := hI.chunks.below v hv
  have hO := hI.owned.giveChunk (k := hand) hv hslot fun i hi w heq => by
    obtain rfl := hI.owned.variation_eq hi heq hslot
    exact Nat.lt_irrefl _ (hbelow _ (.inr ⟨i, hi, heq⟩) rfl)
  have hS := hI.sequence.update hand_lt (by rw [hhand]; simp)
    (show ∀ seg pos size, Place.chunk (h.freeElements v) v ≠ .sequential seg pos size by simp)
  refine ⟨⟨hI.einfos.zero, hI.einfos.info⟩, ⟨hI.chains.path, hI.chains.nodup, hI.chains.info,
    hI.chains.ring⟩, ?_, ⟨hS.curr_le, hS.curr_aligned, hS.curr_seq, hS.below, hS.sum, hS.sum_le⟩,
    hO.mono (.of_eq rfl) fun _ hx => hx.elim⟩
  have hnext : ∀ b : Pos, h.segmentInfos b.seg = v + 3 →
      (b.seg = (h.freeElements v).seg → b.pos ≤ (h.freeElements v).pos) →
      b.seg = (nextFree v (h.freeElements v)).seg → b.pos < (nextFree v (h.freeElements v)).pos := by
    intro b hinfo hle hseg
    rw [nextFree] at hseg ⊢
    split_ifs at hseg ⊢
    · -- the segment 0 is not for chunks
      have hzero := hI.einfos.zero.2
      rw [hseg, hzero] at hinfo
      unfold segEinfo at hinfo
      unfold nVariations at hv
      omega
    · exact Nat.lt_of_le_of_lt (hle hseg) (Nat.lt_add_of_pos_right hpos)
  have hfree : (Function.update h.freeElements v (nextFree v (h.freeElements v))) v =
      nextFree v (h.freeElements v) := Function.update_self _ _ _
  refine Chunks.give (hI.chunks.setFree rfl rfl rfl (fun hne' => ?_) fun b hb => ?_) hand_lt
    (by rw [hhand]; simp) ?_ ?_ ?_
  · rw [nextFree] at hne' ⊢
    split_ifs at hne' ⊢ with hend
    · exact absurd rfl hne'
    · have hle := add_chunk_le hv hslot.aligned hslot.pos_lt
      refine ⟨hslot.seg_lt, hslot.info, ?_, Nat.lt_of_le_of_ne hle hend⟩
      rw [Nat.add_mod_right]
      exact hslot.aligned
  · exact hnext b (hI.chunks.info_ne_zero hI.owned hv hb) fun hseg => Nat.le_of_lt (hbelow b hb hseg)
  · exact fun hmem => Nat.lt_irrefl _ (hbelow _ (.inl hmem) rfl)
  · simp only [hfree]
    exact hnext _ hslot.info fun _ => Nat.le_refl _
  · have hcount := hI.chunks.count v hv
    have hle := sum_isChunk_le v (Function.update L.own hand (.chunk (h.freeElements v) v))
    simp only at hcount ⊢
    omega

/-- The garbage infos have other chunks of one variation. -/
structure Garbage (h h' : Header) (garbage garbage' : ℕ → List Pos) (v : ℕ) : Prop where
  infos : h'.segmentInfos = h.segmentInfos
  free : h'.freeElements = h.freeElements
  counts : h'.nGarbages = Function.update h.nGarbages v (garbage' v).length
  other : ∀ w < nVariations, w ≠ v → garbage' w = garbage w

theorem Garbage.count (hG : Garbage h h' garbage garbage' v) (hK : Chunks g h garbage own) {w : ℕ}
    (hw : w < nVariations) : h'.nGarbages w = (garbage' w).length := by
  rw [hG.counts]
  by_cases hwv : w = v
  · subst hwv
    rw [Function.update_self]
  · rw [Function.update_of_ne hwv, hG.other w hw hwv, hK.count w hw]

theorem Garbage.isSlot {a : Pos} {w : ℕ} (hG : Garbage h h' garbage garbage' v) (ha : IsSlot g h w a) :
    IsSlot g h' w a :=
  ⟨ha.seg_lt, by rw [hG.infos]; exact ha.info, ha.aligned, ha.pos_lt⟩

/-- A chunk of the garbage infos is given to an owner who had none. -/
theorem Chunks.take {a : Pos} (hK : Chunks g h garbage own) (hv : v < nVariations) (hk : k < nOwners)
    (hold : ∀ a v, own k ≠ .chunk a v) (hG : Garbage h h' garbage garbage' v)
    (hperm : (garbage v).Perm (a :: garbage' v)) :
    Chunks g h' garbage' (Function.update own k (.chunk a v)) := by
  have ha : a ∈ garbage v := hperm.mem_iff.mpr List.mem_cons_self
  have hsub : ∀ w < nVariations, ∀ b, b ∈ garbage' w → b ∈ garbage w := by
    intro w hw b hb
    by_cases hwv : w = v
    · subst hwv
      exact hperm.mem_iff.mpr (List.mem_cons_of_mem a hb)
    · rwa [← hG.other w hw hwv]
  have hnodup : ∀ w < nVariations, (garbage' w).Nodup := by
    intro w hw
    by_cases hwv : w = v
    · subst hwv
      exact (List.nodup_cons.mp (hperm.nodup_iff.mp (hK.nodup w hw))).2
    · rw [hG.other w hw hwv]
      exact hK.nodup w hw
  have hless : Chunks g h' garbage' own := by
    refine ⟨fun w hw => hG.count hK hw, fun w hw b hb => hG.isSlot (hK.fits w hw b (hsub w hw b hb)), hnodup,
      fun w hw hne => ?_, fun w hw b hb => ?_,
      fun i hi b w hw heq hb => hK.fresh i hi b w hw heq (hsub w hw b hb),
      fun w hw => ?_⟩
    · rw [hG.free] at hne ⊢
      exact hG.isSlot (hK.tail w hw hne)
    · rw [hG.free]
      exact hK.below w hw b (hb.imp_left (hsub w hw b))
    · have hbound := hK.bound w hw
      by_cases hwv : w = v
      · subst hwv
        have hlen := hperm.length_eq
        rw [List.length_cons] at hlen
        omega
      · rwa [hG.other w hw hwv]
  refine hless.give hk hold ?_ ?_ ?_
  · exact (List.nodup_cons.mp (hperm.nodup_iff.mp (hK.nodup v hv))).1
  · rw [hG.free]
    exact hK.below v hv a (.inl ha)
  · have hsum := @sum_update own k (isChunk v) hk (.chunk a v)
    have hbound := hK.bound v hv
    have hlen := hperm.length_eq
    have hone := isChunk_le_one v (.chunk a v)
    rw [List.length_cons] at hlen
    omega

/-- A chunk is taken from its owner and recorded in the garbage infos. -/
theorem Chunks.put {a : Pos} (hK : Chunks g h garbage own) (hO : Owned g h own) (hv : v < nVariations)
    (hk : k < nOwners) (hown : own k = .chunk a v) (hG : Garbage h h' garbage garbage' v)
    (hperm : (garbage' v).Perm (a :: garbage v)) :
    Chunks g h' garbage' (Function.update own k .none) := by
  have hmem : ∀ w < nVariations, ∀ b, b ∈ garbage' w → (b = a ∧ w = v) ∨ b ∈ garbage w := by
    intro w hw b hb
    by_cases hwv : w = v
    · subst hwv
      exact (List.mem_cons.mp (hperm.mem_iff.mp hb)).imp_left fun heq => ⟨heq, rfl⟩
    · rw [hG.other w hw hwv] at hb
      exact .inr hb
  have hother : ∀ i b w, Function.update own k .none i = .chunk b w → i ≠ k ∧ own i = .chunk b w := by
    intro i b w heq
    by_cases hik : i = k
    · subst hik
      rw [Function.update_self] at heq
      exact absurd heq (by simp)
    · rw [Function.update_of_ne hik] at heq
      exact ⟨hik, heq⟩
  have hfits := hO.fits k hk
  rw [hown] at hfits
  refine ⟨fun w hw => hG.count hK hw, fun w hw b hb => ?_, fun w hw => ?_, fun w hw hne => ?_,
    fun w hw b hb => ?_, fun i hi b w hw heq hb => ?_, fun w hw => ?_⟩
  · rcases hmem w hw b hb with ⟨rfl, rfl⟩ | hb
    · exact hG.isSlot hfits.2
    · exact hG.isSlot (hK.fits w hw b hb)
  · by_cases hwv : w = v
    · subst hwv
      rw [hperm.nodup_iff, List.nodup_cons]
      exact ⟨hK.fresh k hk a w hw hown, hK.nodup w hw⟩
    · rw [hG.other w hw hwv]
      exact hK.nodup w hw
  · rw [hG.free] at hne ⊢
    exact hG.isSlot (hK.tail w hw hne)
  · rw [hG.free]
    refine hK.below w hw b ?_
    rcases hb with hb | ⟨i, hi, heq⟩
    · rcases hmem w hw b hb with ⟨rfl, rfl⟩ | hb
      · exact .inr ⟨k, hk, hown⟩
      · exact .inl hb
    · exact .inr ⟨i, hi, (hother i b w heq).2⟩
  · obtain ⟨hik, heq⟩ := hother i b w heq
    rcases hmem w hw b hb with ⟨rfl, rfl⟩ | hb
    · -- two owners do not have the same chunk
      have hapart := hO.apart i hi k hk hik
      rw [heq, hown] at hapart
      exact hapart b.seg b.pos ⟨rfl, Nat.le_refl _, Nat.lt_add_of_pos_right (Nat.two_pow_pos _)⟩
        ⟨rfl, Nat.le_refl _, Nat.lt_add_of_pos_right (Nat.two_pow_pos _)⟩
    · exact hK.fresh i hi b w hw heq hb
  · have hsum := @sum_update own k (isChunk w) hk .none
    have hbound := hK.bound w hw
    have hnone : isChunk w .none = 0 := rfl
    rw [hown, hnone] at hsum
    by_cases hwv : w = v
    · subst hwv
      have hlen := hperm.length_eq
      have hone : isChunk w (.chunk a w) = 1 := if_pos rfl
      rw [List.length_cons] at hlen
      omega
    · rw [hG.other w hw hwv]
      omega

/-! ## Garbage infos -/

theorem Path.congr {start : ℕ} {cs : List ℕ} (hpath : Path gi start cs)
    (hnext : ∀ c ∈ cs, (gi' c).next = (gi c).next) : Path gi' start cs := by
  induction cs generalizing start with
  | nil => exact hpath
  | cons c cs ih =>
    obtain ⟨hstart, hne, hrest⟩ := hpath
    refine ⟨hstart, hne, ?_⟩
    rw [hnext c List.mem_cons_self]
    exact ih hrest fun d hd => hnext d (List.mem_cons_of_mem c hd)

theorem chunksOf_congr {cs : List ℕ} (hgi : ∀ c ∈ cs, gi' c = gi c) :
    chunksOf g gi' cs = chunksOf g gi cs := by
  rw [chunksOf, chunksOf, List.flatMap_congr fun c hc => by rw [hgi c hc]]

theorem chunksOf_cons (c : ℕ) (cs : List ℕ) :
    chunksOf g gi (c :: cs) =
      ring (gi c).recs g.nGarbagesInASegment (gi c).tail (gi c).nrecs ++ chunksOf g gi cs := rfl

theorem chunksOf_append (cs ds : List ℕ) :
    chunksOf g gi (cs ++ ds) = chunksOf g gi cs ++ chunksOf g gi ds := List.flatMap_append

/-- A garbage info belongs to one variation. -/
theorem Chains.eq_of_mem {c w : ℕ} (hC : Chains g h gi chain) (hv : v < nVariations)
    (hw : w < nVariations) (hcv : c ∈ chain v) (hcw : c ∈ chain w) : w = v := by
  have h₁ := (hC.info v hv c hcv).2
  have h₂ := (hC.info w hw c hcw).2
  omega

/-- The chunks of a garbage info change. -/
theorem Chains.setGinfo {c : ℕ} (hC : Chains g h gi chain) (hother : ∀ d, d ≠ c → gi' d = gi d)
    (hnext : (gi' c).next = (gi c).next)
    (hring : (gi' c).tail < g.nGarbagesInASegment ∧
      (gi' c).head = ((gi' c).tail + (gi' c).nrecs) % g.nGarbagesInASegment ∧
        (gi' c).nrecs ≤ g.nGarbagesInASegment) : Chains g h gi' chain := by
  refine ⟨fun v hv => (hC.path v hv).congr fun d _ => ?_, hC.nodup, hC.info, fun v hv d hd => ?_⟩
  · by_cases hdc : d = c
    · rw [hdc, hnext]
    · rw [hother d hdc]
  · by_cases hdc : d = c
    · subst hdc
      exact hring
    · rw [hother d hdc]
      exact hC.ring v hv d hd

/-- Only the chunks of one variation change with a garbage info. -/
theorem Chains.chunksOf_other {c w : ℕ} (hC : Chains g h gi chain) (hv : v < nVariations)
    (hc : c ∈ chain v) (hother : ∀ d, d ≠ c → gi' d = gi d) (hw : w < nVariations) (hwv : w ≠ v) :
    chunksOf g gi' (chain w) = chunksOf g gi (chain w) :=
  chunksOf_congr fun d hd => hother d fun hdc => hwv (hC.eq_of_mem hv hw hc (hdc ▸ hd))

/-- A chunk more is in the garbage info `c`. -/
theorem chunksOf_push {c : ℕ} {cs : List ℕ} {a : Pos} (hcs : cs.Nodup) (hc : c ∈ cs)
    (hother : ∀ d, d ≠ c → gi' d = gi d)
    (hpush : ring (gi' c).recs g.nGarbagesInASegment (gi' c).tail (gi' c).nrecs =
      ring (gi c).recs g.nGarbagesInASegment (gi c).tail (gi c).nrecs ++ [a]) :
    (chunksOf g gi' cs).Perm (a :: chunksOf g gi cs) := by
  obtain ⟨pre, post, rfl⟩ := List.append_of_mem hc
  have hnot := (List.nodup_middle.mp hcs).notMem
  rw [List.mem_append, not_or] at hnot
  have hpre : chunksOf g gi' pre = chunksOf g gi pre :=
    chunksOf_congr fun d hd => hother d fun hdc => hnot.1 (hdc ▸ hd)
  have hpost : chunksOf g gi' post = chunksOf g gi post :=
    chunksOf_congr fun d hd => hother d fun hdc => hnot.2 (hdc ▸ hd)
  rw [chunksOf_append, chunksOf_append, chunksOf_cons, chunksOf_cons, hpre, hpost, hpush]
  simp only [List.append_assoc, List.singleton_append]
  rw [← List.append_assoc, ← List.append_assoc (chunksOf g gi pre)]
  exact List.perm_middle

/-- **A chunk of the garbage infos is handed out again.** -/
theorem Inv.reuse {c n : ℕ} {cs : List ℕ} (hI : Inv g h gi L) (hv : v < nVariations)
    (hhand : L.own hand = .none) (hchain : L.chain v = c :: cs) (hnrecs : (gi c).nrecs = n + 1)
    (hother : ∀ d, d ≠ c → gi' d = gi d)
    (hc : gi' c = { gi c with
      tail := ((gi c).tail + 1) % g.nGarbagesInASegment
      nrecs := n }) :
    Inv g { h with nGarbages := Function.update h.nGarbages v (h.nGarbages v - 1) } gi'
      { L with own := Function.update L.own hand (.chunk ((gi c).recs (gi c).tail) v) } := by
  have hmem : c ∈ L.chain v := by rw [hchain]; exact List.mem_cons_self
  obtain ⟨htail, hhead, hle⟩ := hI.chains.ring v hv c hmem
  have hcap := g.nGarbagesInASegment_pos
  have hcut : chunksOf g gi (L.chain v) = (gi c).recs (gi c).tail :: chunksOf g gi' (L.chain v) := by
    have hnot : c ∉ cs := by
      have hnodup := hI.chains.nodup v hv
      rw [hchain] at hnodup
      exact (List.nodup_cons.mp hnodup).1
    rw [hchain, chunksOf_cons, chunksOf_cons, hnrecs, ring_pop htail, hc,
      chunksOf_congr fun d hd => hother d fun hdc => hnot (hdc ▸ hd)]
    rfl
  have hgarbage : Garbage h { h with nGarbages := Function.update h.nGarbages v (h.nGarbages v - 1) }
      (fun v => chunksOf g gi (L.chain v)) (fun v => chunksOf g gi' (L.chain v)) v := by
    refine ⟨rfl, rfl, ?_, fun w hw hwv => hI.chains.chunksOf_other hv hmem hother hw hwv⟩
    have hcount := hI.chunks.count v hv
    simp only [hcut, List.length_cons] at hcount
    simp only [hcount, Nat.add_sub_cancel]
  have hslot := hI.chunks.fits v hv ((gi c).recs (gi c).tail) (by simp only [hcut]; exact List.mem_cons_self)
  have hC := hI.chains.setGinfo hother (by rw [hc]) (by
    rw [hc]
    refine ⟨Nat.mod_lt _ hcap, ?_, show n ≤ _ by omega⟩
    simp only [hhead, hnrecs, Nat.mod_add_mod]
    congr 1
    omega)
  have hO := hI.owned.giveChunk (k := hand) hv hslot fun i hi w heq => by
    obtain rfl := hI.owned.variation_eq hi heq hslot
    exact hI.chunks.fresh i hi _ w hv heq (by simp only [hcut]; exact List.mem_cons_self)
  have hS := hI.sequence.update hand_lt (by rw [hhand]; simp)
    (show ∀ seg pos size, Place.chunk ((gi c).recs (gi c).tail) v ≠ .sequential seg pos size by simp)
  exact ⟨⟨hI.einfos.zero, hI.einfos.info⟩, ⟨hC.path, hC.nodup, hC.info, hC.ring⟩,
    hI.chunks.take hv hand_lt (by rw [hhand]; simp) hgarbage (by simp only [hcut]; exact List.Perm.refl _),
    ⟨hS.curr_le, hS.curr_aligned, hS.curr_seq, hS.below, hS.sum, hS.sum_le⟩,
    hO.mono (.of_eq rfl) fun _ hx => hx.elim⟩

/-- **A chunk is recorded in a garbage info.** -/
theorem Inv.useGinfo {c : ℕ} {a : Pos} (hI : Inv g h gi L) (hv : v < nVariations)
    (hhand : L.own hand = .chunk a v) (hmem : c ∈ L.chain v)
    (hroom : (gi c).nrecs < g.nGarbagesInASegment) (hother : ∀ d, d ≠ c → gi' d = gi d)
    (hhead : (gi' c).head = ((gi c).head + 1) % g.nGarbagesInASegment)
    (htail : (gi' c).tail = (gi c).tail) (hnrecs : (gi' c).nrecs = (gi c).nrecs + 1)
    (hnext : (gi' c).next = (gi c).next) (hrec : (gi' c).recs (gi c).head = a)
    (hrecs : ∀ i, i ≠ (gi c).head → (gi' c).recs i = (gi c).recs i) :
    Inv g { h with nGarbages := Function.update h.nGarbages v (h.nGarbages v + 1) } gi'
      { L with own := Function.update L.own hand .none } := by
  obtain ⟨hlt, hold, hle⟩ := hI.chains.ring v hv c hmem
  have hpush : ring (gi' c).recs g.nGarbagesInASegment (gi' c).tail (gi' c).nrecs =
      ring (gi c).recs g.nGarbagesInASegment (gi c).tail (gi c).nrecs ++ [a] := by
    rw [htail, hnrecs, ring_push hroom fun i _ hi => hrecs i (by rwa [hold]), ← hold, hrec]
  have hperm := chunksOf_push (hI.chains.nodup v hv) hmem hother hpush
  have hgarbage : Garbage h { h with nGarbages := Function.update h.nGarbages v (h.nGarbages v + 1) }
      (fun v => chunksOf g gi (L.chain v)) (fun v => chunksOf g gi' (L.chain v)) v := by
    refine ⟨rfl, rfl, ?_, fun w hw hwv => hI.chains.chunksOf_other hv hmem hother hw hwv⟩
    have hcount := hI.chunks.count v hv
    have hlen := hperm.length_eq
    rw [List.length_cons, ← hcount] at hlen
    simp only [hlen]
  have hC := hI.chains.setGinfo hother hnext (by
    rw [hhead, htail, hnrecs, hold]
    refine ⟨hlt, ?_, hroom⟩
    rw [Nat.mod_add_mod]
    congr 1)
  have hS := @Sequence.update g h L.own L.lost .none hand hI.sequence hand_lt (by rw [hhand]; simp) (by simp)
  have hO := hI.owned.drop hand
  exact ⟨⟨hI.einfos.zero, hI.einfos.info⟩, ⟨hC.path, hC.nodup, hC.info, hC.ring⟩,
    hI.chunks.put hI.owned hv hand_lt hhand hgarbage hperm,
    ⟨hS.curr_le, hS.curr_aligned, hS.curr_seq, hS.below, hS.sum, hS.sum_le⟩,
    hO.mono (.of_eq rfl) fun _ hx => hx.elim⟩

/-- **A garbage info without chunks is given back.** -/
theorem Inv.freeGinfo {c : ℕ} {cs : List ℕ} (hI : Inv g h gi L) (hv : v < nVariations)
    (hchain : L.chain v = c :: cs) (hnrecs : (gi c).nrecs = 0) :
    Inv g { h.setInfo c 0 with garbages := Function.update h.garbages v (gi c).next } gi
      { L with chain := Function.update L.chain v cs } := by
  have hmem : c ∈ L.chain v := by rw [hchain]; exact List.mem_cons_self
  have hinfo := (hI.chains.info v hv c hmem).2
  have hle : segGinfo ≤ h.segmentInfos c := by omega
  have hcompat := @compat_setInfo_except h c 0
  have hnodup := hI.chains.nodup v hv
  rw [hchain, List.nodup_cons] at hnodup
  have hsame : ∀ w, chunksOf g gi (Function.update L.chain v cs w) = chunksOf g gi (L.chain w) := by
    intro w
    by_cases hwv : w = v
    · subst hwv
      rw [Function.update_self, hchain, chunksOf_cons, hnrecs]
      rfl
    · rw [Function.update_of_ne hwv]
  have hsub : ∀ w d, d ∈ Function.update L.chain v cs w → d ∈ L.chain w ∧ (w = v → d ∈ cs) := by
    intro w d hd
    by_cases hwv : w = v
    · subst hwv
      rw [Function.update_self] at hd
      rw [hchain]
      exact ⟨List.mem_cons_of_mem c hd, fun _ => hd⟩
    · rw [Function.update_of_ne hwv] at hd
      exact ⟨hd, fun heq => absurd heq hwv⟩
  have hold : ¬ IsSeq (h.segmentInfos c) := by
    apply not_isSeq_of_segHuge_le
    unfold segHuge
    unfold segGinfo at hle
    omega
  have hS := hI.sequence.setInfo hold not_isSeq_zero
  refine ⟨hI.einfos.mono hcompat rfl fun x hx => .inr (by rw [hx]; exact hle), ⟨fun w hw => ?_,
    fun w hw => ?_, fun w hw d hd => ?_, fun w hw d hd => hI.chains.ring w hw d (hsub w d hd).1⟩, ?_,
    ⟨hS.curr_le, hS.curr_aligned, hS.curr_seq, hS.below, hS.sum, hS.sum_le⟩,
    hI.owned.mono hcompat fun x hx i hi htouch => ?_⟩
  · by_cases hwv : w = v
    · subst hwv
      have hpath := hI.chains.path w hw
      rw [hchain] at hpath
      simp only [Function.update_self]
      exact hpath.2.2
    · simp only [Function.update_of_ne hwv]
      exact hI.chains.path w hw
  · by_cases hwv : w = v
    · subst hwv
      simp only [Function.update_self]
      exact hnodup.2
    · simp only [Function.update_of_ne hwv]
      exact hI.chains.nodup w hw
  · obtain ⟨hd', hcs⟩ := hsub w d hd
    obtain ⟨hlt, hinfo'⟩ := hI.chains.info w hw d hd'
    refine ⟨hlt, ?_⟩
    have hne : d ≠ c := by
      rintro rfl
      exact hnodup.1 (hcs (hI.chains.eq_of_mem hv hw hmem hd'))
    rw [← hinfo']
    exact setInfo_of_ne hne
  · refine Chunks.congr (hI.chunks.mono hcompat rfl rfl fun x hx => .inr ?_) fun w _ => hsame w
    rw [hx]
    unfold segSeq
    unfold segGinfo at hle
    omega
  · have hlt := (hI.owned.fits i hi).info_lt htouch
    rw [hx] at hlt
    unfold segEinfo at hlt
    unfold segGinfo at hle
    omega

theorem getLastD_mem {cs : List ℕ} (hcs : cs ≠ []) : cs.getLastD 0 ∈ cs := by
  cases cs with
  | nil => exact absurd rfl hcs
  | cons c cs =>
    rw [List.getLastD_cons]
    exact List.getLastD_mem_cons

/-- A garbage info is put behind the last one. -/
theorem Path.snoc {start : ℕ} {cs : List ℕ} (hpath : Path gi start cs) (hcs : cs.Nodup) (hseg : seg ≠ 0)
    (hend : (gi' seg).next = 0)
    (hnext : ∀ c ∈ cs, c ≠ cs.getLastD 0 → (gi' c).next = (gi c).next)
    (hlast : cs ≠ [] → (gi' (cs.getLastD 0)).next = seg) :
    Path gi' (if cs = [] then seg else start) (cs ++ [seg]) := by
  induction cs generalizing start with
  | nil => exact ⟨rfl, hseg, hend⟩
  | cons c cs ih =>
    obtain ⟨rfl, hne, hrest⟩ := hpath
    refine ⟨if_neg (by simp), hne, ?_⟩
    obtain ⟨hnot, hnodup⟩ := List.nodup_cons.mp hcs
    by_cases hnil : cs = []
    · subst hnil
      have hc : (gi' start).next = seg := hlast (by simp)
      rw [hc]
      exact ⟨rfl, hseg, hend⟩
    · have hgetLast : (start :: cs).getLastD 0 = cs.getLastD 0 := by
        cases cs with
        | nil => exact absurd rfl hnil
        | cons d ds => rfl
      have hmem := getLastD_mem hnil
      rw [hgetLast] at hnext hlast
      have htail := ih hrest hnodup (fun d hd => hnext d (List.mem_cons_of_mem _ hd)) fun _ => hlast (by simp)
      rw [if_neg hnil] at htail
      rw [hnext start List.mem_cons_self fun heq => hnot (heq ▸ hmem)]
      exact htail

/-- **A new garbage info** behind the last one. -/
theorem Inv.newGinfo (hI : Inv g h gi L) (hv : v < nVariations) (hseg : seg < g.nDataSegments)
    (hfree : h.segmentInfos seg = 0)
    (hnew : (gi' seg).head = 0 ∧ (gi' seg).tail = 0 ∧ (gi' seg).nrecs = 0 ∧ (gi' seg).next = 0)
    (hother : ∀ d, d ≠ seg → gi' d = { gi d with next := (gi' d).next })
    (hnext : ∀ d, d ≠ seg → d ≠ (L.chain v).getLastD 0 → (gi' d).next = (gi d).next)
    (hlast : L.chain v ≠ [] → (gi' ((L.chain v).getLastD 0)).next = seg) :
    Inv g { h.setInfo seg (segGinfo + v) with
        garbages := if L.chain v = [] then Function.update h.garbages v seg else h.garbages } gi'
      { L with chain := Function.update L.chain v (L.chain v ++ [seg]) } := by
  obtain ⟨hhead, htail, hnrecs, hend⟩ := hnew
  have hne : seg ≠ 0 := by
    rintro rfl
    rw [hI.einfos.zero.2] at hfree
    exact absurd hfree (by decide)
  have hnot : ∀ w < nVariations, seg ∉ L.chain w := by
    intro w hw hmem
    have hinfo := (hI.chains.info w hw seg hmem).2
    unfold segGinfo at hinfo
    omega
  have hcompat := @compat_setInfo_of_free h seg (segGinfo + v) hfree
  -- the chunks are the same, and the new garbage info has none
  have hold : ∀ cs : List ℕ, seg ∉ cs → chunksOf g gi' cs = chunksOf g gi cs := by
    intro cs hcs
    rw [chunksOf, chunksOf]
    refine List.flatMap_congr fun d hd => ?_
    have hd' := hother d fun heq => hcs (heq ▸ hd)
    rw [hd']
  have hsame : ∀ w < nVariations,
      chunksOf g gi' (Function.update L.chain v (L.chain v ++ [seg]) w) = chunksOf g gi (L.chain w) := by
    intro w hw
    by_cases hwv : w = v
    · subst hwv
      rw [Function.update_self, chunksOf_append, hold _ (hnot w hw), chunksOf_cons, hnrecs]
      exact List.append_nil _
    · rw [Function.update_of_ne hwv, hold _ (hnot w hw)]
  have hS := hI.sequence.setInfo (by rw [hfree]; exact not_isSeq_zero)
    (not_isSeq_of_segHuge_le (show segHuge ≤ segGinfo + v by unfold segHuge segGinfo; omega))
  have hmem : ∀ w d, d ∈ Function.update L.chain v (L.chain v ++ [seg]) w →
      d ∈ L.chain w ∨ (w = v ∧ d = seg) := by
    intro w d hd
    by_cases hwv : w = v
    · subst hwv
      rw [Function.update_self, List.mem_append, List.mem_singleton] at hd
      exact hd.imp_right fun heq => ⟨rfl, heq⟩
    · rw [Function.update_of_ne hwv] at hd
      exact .inl hd
  refine ⟨hI.einfos.mono hcompat rfl fun _ hx => hx.elim, ⟨fun w hw => ?_, fun w hw => ?_,
    fun w hw d hd => ?_, fun w hw d hd => ?_⟩,
    Chunks.congr (hI.chunks.mono hcompat rfl rfl fun _ hx => hx.elim) hsame,
    ⟨hS.curr_le, hS.curr_aligned, hS.curr_seq, hS.below, hS.sum, hS.sum_le⟩,
    hI.owned.mono hcompat fun _ hx => hx.elim⟩
  · by_cases hwv : w = v
    · subst hwv
      have hsnoc := (hI.chains.path w hw).snoc (hI.chains.nodup w hw) hne hend
        (fun c hc hcl => hnext c (fun heq => hnot w hw (heq ▸ hc)) hcl) hlast
      have hstart : (if L.chain w = [] then Function.update h.garbages w seg else h.garbages) w =
          if L.chain w = [] then seg else h.garbages w := by
        split_ifs
        · exact Function.update_self _ _ _
        · rfl
      simp only [Function.update_self, hstart]
      exact hsnoc
    · have hstart : (if L.chain v = [] then Function.update h.garbages v seg else h.garbages) w =
          h.garbages w := by
        split_ifs
        · exact Function.update_of_ne hwv _ _
        · rfl
      simp only [Function.update_of_ne hwv, hstart]
      refine (hI.chains.path w hw).congr fun c hc => ?_
      -- the last garbage info of the variation is not one of another variation
      refine hnext c (fun heq => hnot w hw (heq ▸ hc)) fun heq => ?_
      by_cases hnil : L.chain v = []
      · rw [hnil] at heq
        have hinfo := (hI.chains.info w hw c hc).2
        rw [heq] at hinfo
        have hzero := hI.einfos.zero.2
        simp only [List.getLastD_nil] at hinfo
        rw [hzero] at hinfo
        unfold segEinfo segGinfo at hinfo
        omega
      · exact hwv (hI.chains.eq_of_mem hv hw (heq ▸ getLastD_mem hnil) hc)
  · by_cases hwv : w = v
    · subst hwv
      simp only [Function.update_self]
      refine List.nodup_append.mpr ⟨hI.chains.nodup w hw, List.nodup_singleton _, ?_⟩
      intro c hc d hd
      rw [List.mem_singleton.mp hd]
      exact fun heq => hnot w hw (heq ▸ hc)
    · simp only [Function.update_of_ne hwv]
      exact hI.chains.nodup w hw
  · rcases hmem w d hd with hd | ⟨rfl, rfl⟩
    · obtain ⟨hlt, hinfo⟩ := hI.chains.info w hw d hd
      refine ⟨hlt, ?_⟩
      rw [← hinfo]
      exact setInfo_of_ne fun heq => hnot w hw (heq ▸ hd)
    · exact ⟨hseg, setInfo_self _ _ _⟩
  · rcases hmem w d hd with hd | ⟨rfl, rfl⟩
    · rw [hother d fun heq => hnot w hw (heq ▸ hd)]
      exact hI.chains.ring w hw d hd
    · rw [hhead, htail, hnrecs]
      exact ⟨g.nGarbagesInASegment_pos, (Nat.zero_mod _).symm, Nat.zero_le _⟩

/-! ## Sequential segments -/

/-- **A new sequential segment.** -/
theorem Inv.newSequential (hI : Inv g h gi L) (hseg : seg < g.nDataSegments)
    (hfree : h.segmentInfos seg = 0) :
    Inv g { h.setInfo seg segSeq with currSeg := seg, currPos := 0 } gi
      { L with lost := Function.update L.lost seg 0 } := by
  have hcompat := @compat_setInfo_of_free h seg segSeq hfree
  have hnot := hI.owned.not_touches hfree
  have hzero : ∑ i ∈ Finset.range nOwners, seqSize seg (L.own i) = 0 :=
    Finset.sum_eq_zero fun i hi => seqSize_eq_zero (hnot i (Finset.mem_range.mp hi))
  have hS := hI.sequence
  have hself : (h.setInfo seg segSeq).segmentInfos seg = segSeq := setInfo_self _ _ _
  have hother : ∀ y, y ≠ seg → (h.setInfo seg segSeq).segmentInfos y = h.segmentInfos y :=
    fun y hy => setInfo_of_ne hy
  refine ⟨hI.einfos.mono hcompat rfl fun _ hx => hx.elim, hI.chains.mono hcompat rfl fun _ hx => hx.elim,
    hI.chunks.mono hcompat rfl rfl fun _ hx => hx.elim, ⟨Nat.zero_le _, rfl, fun _ => ?_, ?_, ?_, ?_⟩,
    hI.owned.mono hcompat fun _ hx => hx.elim⟩
  · refine ⟨hseg, ?_⟩
    show IsSeq ((h.setInfo seg segSeq).segmentInfos seg)
    rw [hself]
    exact ⟨Nat.le_refl _, by decide⟩
  · intro i hi pos size heq
    refine absurd ?_ (hnot i hi)
    rw [heq]
    exact rfl
  · intro y hy hseq
    show (h.setInfo seg segSeq).segmentInfos y = _
    by_cases hys : y = seg
    · subst hys
      simp only [hzero, Function.update_self]
      exact hself
    · simp only [hother y hys, Function.update_of_ne hys] at hseq ⊢
      exact hS.sum y hy hseq
  · intro y hy hseq
    show (h.setInfo seg segSeq).segmentInfos y ≤ _ ∧ (_ → (h.setInfo seg segSeq).segmentInfos y ≤ _)
    by_cases hys : y = seg
    · subst hys
      rw [hself]
      exact ⟨Nat.le_add_right _ _, fun _ => Nat.le_add_right _ _⟩
    · simp only [hother y hys] at hseq ⊢
      exact ⟨(hS.sum_le y hy hseq).1, fun heq => absurd heq hys⟩

/-- There is room for the size in the info of the current segment. -/
theorem Sequence.isSeq_use {size : ℕ} (hS : Sequence g h lost own)
    (hend : h.currPos + (size + 4) ≤ segmentSize) :
    IsSeq (h.segmentInfos h.currSeg) ∧ IsSeq (h.segmentInfos h.currSeg + (size + 4)) := by
  obtain ⟨hlt, hseq⟩ := hS.curr_seq (by omega)
  refine ⟨hseq, ?_⟩
  have hinfo := hS.sum _ hlt hseq
  have hle := (hS.sum_le _ hlt hseq).2 rfl
  have hlarge : segSeq + segmentSize < segHuge := by decide
  have hseq' := hseq.1
  exact ⟨by omega, by omega⟩

/-- A part of the current segment is given to an owner who had nothing. -/
theorem Sequence.use {size : ℕ} (hS : Sequence g h lost own) (hk : k < nOwners) (hnone : own k = .none)
    (hsize : size % 4 = 0) (hend : h.currPos + (size + 4) ≤ segmentSize) :
    Sequence g { h.setInfo h.currSeg (h.segmentInfos h.currSeg + (size + 4)) with
        currPos := h.currPos + (size + 4) } lost
      (Function.update own k (.sequential h.currSeg (h.currPos + 4) size)) := by
  obtain ⟨hlt, hseq⟩ := hS.curr_seq (by omega)
  have hinfo := hS.sum _ hlt hseq
  have hle := (hS.sum_le _ hlt hseq).2 rfl
  have haligned := hS.curr_aligned
  -- the sums of the sizes: only that of the current segment changes
  have hcurr : ∑ i ∈ Finset.range nOwners, seqSize h.currSeg
      (Function.update own k (.sequential h.currSeg (h.currPos + 4) size) i) =
        (∑ i ∈ Finset.range nOwners, seqSize h.currSeg (own i)) + (size + 4) := by
    have hsum := @sum_update own k (seqSize h.currSeg) hk (.sequential h.currSeg (h.currPos + 4) size)
    have hnew : seqSize h.currSeg (.sequential h.currSeg (h.currPos + 4) size) = size + 4 := if_pos rfl
    have hold : seqSize h.currSeg .none = 0 := rfl
    rw [hnone, hnew, hold] at hsum
    exact (Nat.add_zero _).symm.trans hsum
  have hother : ∀ y, y ≠ h.currSeg → ∑ i ∈ Finset.range nOwners, seqSize y
      (Function.update own k (.sequential h.currSeg (h.currPos + 4) size) i) =
        ∑ i ∈ Finset.range nOwners, seqSize y (own i) := by
    intro y hy
    have hsum := @sum_update own k (seqSize y) hk (.sequential h.currSeg (h.currPos + 4) size)
    have hnew : seqSize y (.sequential h.currSeg (h.currPos + 4) size) = 0 := if_neg fun heq => hy heq.symm
    have hold : seqSize y .none = 0 := rfl
    rw [hnone, hnew, hold] at hsum
    exact Nat.add_right_cancel hsum
  refine ⟨hend, show (h.currPos + (size + 4)) % 4 = 0 by omega, fun _ => ⟨hlt, ?_⟩,
    fun i hi pos' size' heq => ?_, fun y hy hy' => ?_, fun y hy hy' => ?_⟩
  · show IsSeq ((h.setInfo h.currSeg _).segmentInfos h.currSeg)
    rw [setInfo_self]
    exact (hS.isSeq_use hend).2
  · show pos' + size' ≤ h.currPos + (size + 4)
    by_cases hik : i = k
    · simp only [hik, Function.update_self, Place.sequential.injEq] at heq
      omega
    · rw [Function.update_of_ne hik] at heq
      have hbelow := hS.below i hi pos' size' heq
      omega
  · by_cases hyc : y = h.currSeg
    · subst hyc
      rw [hcurr]
      show (h.setInfo h.currSeg _).segmentInfos h.currSeg = _
      rw [setInfo_self]
      omega
    · rw [hother y hyc]
      have hinfo' : (h.setInfo h.currSeg (h.segmentInfos h.currSeg + (size + 4))).segmentInfos y =
          h.segmentInfos y := setInfo_of_ne hyc
      simp only [hinfo'] at hy' ⊢
      exact hS.sum y hy hy'
  · show (h.setInfo h.currSeg _).segmentInfos y ≤ _ ∧
      (_ → (h.setInfo h.currSeg _).segmentInfos y ≤ segSeq + (h.currPos + (size + 4)))
    by_cases hyc : y = h.currSeg
    · subst hyc
      rw [setInfo_self]
      omega
    · have hinfo' : (h.setInfo h.currSeg (h.segmentInfos h.currSeg + (size + 4))).segmentInfos y =
          h.segmentInfos y := setInfo_of_ne hyc
      simp only [hinfo'] at hy' ⊢
      exact ⟨(hS.sum_le y hy hy').1, fun heq => absurd heq hyc⟩

/-- **A part of the current sequential segment is handed out.** -/
theorem Inv.useSequential {size : ℕ} (hI : Inv g h gi L) (hhand : L.own hand = .none)
    (hsize : size % 4 = 0) (hend : h.currPos + (size + 4) ≤ segmentSize) :
    Inv g { h.setInfo h.currSeg (h.segmentInfos h.currSeg + (size + 4)) with
        currPos := h.currPos + (size + 4) } gi
      { L with own := Function.update L.own hand (.sequential h.currSeg (h.currPos + 4) size) } := by
  have hS := hI.sequence
  obtain ⟨hlt, hseq⟩ := hS.curr_seq (by omega)
  have hcompat := compat_setInfo_of_isSeq hseq (hS.isSeq_use hend).2
  have hfits : (Place.sequential h.currSeg (h.currPos + 4) size).Fits g h := by
    have haligned := hS.curr_aligned
    exact ⟨hlt, hseq, by omega, by omega, hsize, by omega⟩
  have hO := hI.owned.update (k := hand) hfits fun i hi _ =>
    apart_sequential hfits (hI.owned.fits i hi) fun pos' size' heq => by
      have hbelow := hS.below i hi pos' size' heq
      omega
  exact ⟨hI.einfos.mono hcompat rfl fun _ hx => hx.elim, hI.chains.mono hcompat rfl fun _ hx => hx.elim,
    Chunks.update (hI.chunks.mono hcompat rfl rfl fun _ hx => hx.elim) hand_lt (by rw [hhand]; simp)
      (by simp),
    hS.use hand_lt hhand hsize hend, hO.mono hcompat fun _ hx => hx.elim⟩

end Groonga.Ja
