import Groonga.Ja.Replacing

/-!
# Columns after puts

A column that was created and in which values were put is a map: a record has the value that was
set last. The areas of the values lie apart from each other and from everything that the store
hands out or keeps for itself. These areas are read off the column alone, without a ledger.
-/

namespace Groonga.Ja

open Lib

variable {g : Config} {L : Ledger} {s s' : GrnJa} {id i j v x u : ℕ} {value : List UInt8}
  {ps : List (ℕ × List UInt8)}

/-! ## A new column -/

/-- No one has a place, and there are no garbage infos. -/
def Ledger.empty : Ledger := ⟨fun _ => .none, fun _ => [], fun _ => 0⟩

theorem segmentInfos_jaCreate : ¬ IsSeq (jaCreate.header.segmentInfos x) := by
  simp only [jaCreate]
  split_ifs
  · exact not_isSeq_of_segHuge_le (by decide)
  · exact not_isSeq_zero

theorem einfo_jaCreate (id : ℕ) : jaCreate.einfo id = 0 := by
  have hzero : ∀ a, read (fun _ : ℕ => (0 : UInt8)) a 8 = leBytes 8 0 := fun _ => rfl
  simp only [GrnJa.einfo, jaCreate]
  split_ifs
  · rfl
  · rw [readNat, hzero]
    exact (leNat_leBytes 8 0).trans (Nat.zero_mod _)
  · rfl
  · rw [readNat, hzero]
    exact (leNat_leBytes 8 0).trans (Nat.zero_mod _)

theorem einfoSegments_jaCreate (g : Config) : EinfoSegments g jaCreate.header := by
  refine ⟨⟨rfl, rfl⟩, fun l _ hne => ?_⟩
  by_cases hl : l = 0
  · subst hl
    exact ⟨g.nDataSegments_pos, rfl⟩
  · exact absurd (if_neg hl) hne

theorem chunks_empty (g : Config) :
    Chunks g jaCreate.header (fun _ => []) Ledger.empty.own := by
  refine ⟨fun _ _ => rfl, fun _ _ _ ha => ?_, fun _ _ => List.nodup_nil,
    fun _ _ hne => absurd rfl hne, fun _ _ _ ha => ?_, fun _ _ _ _ _ hown => ?_, fun v _ => ?_⟩
  · cases ha
  · rcases ha with ha | ⟨_, _, hown⟩
    · cases ha
    · cases hown
  · cases hown
  · have hsum : ∑ i ∈ Finset.range nOwners, isChunk v (Ledger.empty.own i) = 0 :=
      Finset.sum_eq_zero fun _ _ => rfl
    rw [hsum]
    exact Nat.zero_le _

theorem sequence_empty (g : Config) :
    Sequence g jaCreate.header Ledger.empty.lost Ledger.empty.own := by
  refine ⟨Nat.le_refl _, by decide, fun hne => absurd rfl hne, fun _ _ _ _ hown => ?_,
    fun _ _ hseq => absurd hseq segmentInfos_jaCreate,
    fun _ _ hseq => absurd hseq segmentInfos_jaCreate⟩
  cases hown

theorem good_jaCreate (g : Config) : Good g jaCreate .empty := by
  have hchains : Chains g jaCreate.header (fun d => ginfo (jaCreate.memory d)) Ledger.empty.chain :=
    ⟨fun _ _ => rfl, fun _ _ => List.nodup_nil, fun _ _ _ hc => (List.not_mem_nil hc).elim,
      fun _ _ _ hc => (List.not_mem_nil hc).elim⟩
  have howned : Owned g jaCreate.header Ledger.empty.own :=
    ⟨fun _ _ => trivial, fun _ _ _ _ _ _ _ hu => hu.elim⟩
  refine ⟨⟨⟨einfoSegments_jaCreate g, hchains, chunks_empty g, sequence_empty g, howned⟩,
    fun id _ => ?_, fun id _ => ?_⟩, fun _ _ _ hd => (List.not_mem_nil hd).elim⟩
  · rw [einfo_jaCreate]
    rfl
  · rw [einfo_jaCreate]
    exact whole_zero

/-! ## Runs -/

/-- A put that sets a value of a column without compression and that succeeds. -/
def Puts (g : Config) (s : GrnJa) (id : ℕ) (value : List UInt8) (s' : GrnJa) : Prop :=
  ∃ (c : Ctx) (cas : Option ℕ) (stack : ℕ), c.ja = s ∧
    (putRaw g (fun bytes => bytes) c id value cas stack).rc = .success ∧
    (putRaw g (fun bytes => bytes) c id value cas stack).ja = s'

/-- **A column after puts that all succeeded.** -/
inductive Run (g : Config) : List (ℕ × List UInt8) → GrnJa → Prop where
  | create : Run g [] jaCreate
  | put (ps : List (ℕ × List UInt8)) (s s' : GrnJa) (id : ℕ) (value : List UInt8) (hrun : Run g ps s)
      (hid : id < idLimit) (hlen : value.length < 0x100000000) (hput : Puts g s id value s') :
      Run g (ps ++ [(id, value)]) s'

/-- The map that the puts make. -/
def values (ps : List (ℕ × List UInt8)) : ℕ → List UInt8 :=
  ps.foldl (fun m p => Function.update m p.1 p.2) fun _ => []

theorem values_snoc (ps : List (ℕ × List UInt8)) (id : ℕ) (value : List UInt8) :
    values (ps ++ [(id, value)]) = Function.update (values ps) id value := by
  rw [values, List.foldl_append]
  rfl

theorem ref_self (s : GrnJa) (id : ℕ) : s.ref (fun bytes => bytes) id = s.refRaw id := by
  rw [GrnJa.ref]
  split_ifs with hnil
  · exact hnil.symm
  · rfl

/-- One put. -/
theorem Puts.spec (hput : Puts g s id value s') (hG : Good g s L) (hhand : L.own hand = .none)
    (hid : id < idLimit) (hlen : value.length < 0x100000000) : Put g s s' id value := by
  obtain ⟨c, cas, stack, rfl, hrc, rfl⟩ := hput
  rcases putRaw_spec hG hhand hid hlen hrc with ⟨-, hsame, heq⟩ | h
  · rw [heq]
    exact ⟨⟨L, hG, hhand⟩, (ref_self _ _).symm.trans hsame, fun _ _ _ => rfl⟩
  · exact h

/-- **All puts.** -/
theorem Run.spec (hrun : Run g ps s) :
    (∃ L, Good g s L ∧ L.own hand = .none) ∧ ∀ id < idLimit, s.refRaw id = values ps id := by
  induction hrun with
  | create =>
    refine ⟨⟨.empty, good_jaCreate g, rfl⟩, fun id hid => ?_⟩
    rw [GrnJa.refRaw, einfo_jaCreate]
    rfl
  | put ps s s' id value hrun hid hlen hput ih =>
    obtain ⟨⟨L, hG, hhand⟩, hvalues⟩ := ih
    have h := hput.spec hG hhand hid hlen
    refine ⟨h.good, fun j hj => ?_⟩
    rw [values_snoc]
    by_cases hne : j = id
    · subst hne
      rw [Function.update_self, h.value]
    · rw [Function.update_of_ne hne, h.others j hj hne, hvalues j hj]

/-! ## Areas -/

/-- The segments with the garbage infos of a variation, from one on. -/
def garbageSegments (s : GrnJa) : ℕ → ℕ → List ℕ
  | 0, _ => []
  | fuel + 1, current =>
    if current = 0 then []
    else current :: garbageSegments s fuel (ginfo (s.memory current)).next

/-- The segments with the garbage infos of a variation. -/
def GrnJa.garbageInfos (g : Config) (s : GrnJa) (v : ℕ) : List ℕ :=
  garbageSegments s (g.nDataSegments + 1) (s.header.garbages v)

/-- The chunks of a variation that are recorded in garbage infos. -/
def GrnJa.garbageChunks (g : Config) (s : GrnJa) (v : ℕ) : List Pos :=
  chunksOf g (fun d => ginfo (s.memory d)) (s.garbageInfos g v)

theorem garbageSegments_eq {fuel start : ℕ} {cs : List ℕ}
    (hpath : Path (fun d => ginfo (s.memory d)) start cs) (hfuel : cs.length < fuel) :
    garbageSegments s fuel start = cs := by
  induction cs generalizing start fuel with
  | nil =>
    obtain rfl : start = 0 := hpath
    obtain ⟨fuel, rfl⟩ := Nat.exists_eq_succ_of_ne_zero (Nat.ne_zero_of_lt hfuel)
    rfl
  | cons d ds ih =>
    obtain ⟨rfl, hne, hrest⟩ := hpath
    obtain ⟨fuel, rfl⟩ := Nat.exists_eq_succ_of_ne_zero (Nat.ne_zero_of_lt hfuel)
    rw [List.length_cons] at hfuel
    rw [garbageSegments, if_neg hne, ih hrest (by omega)]

theorem Sound.garbageInfos_eq (hS : Sound g s L) (hv : v < nVariations) :
    s.garbageInfos g v = L.chain v :=
  garbageSegments_eq (hS.inv.chains.path v hv) (Nat.lt_succ_of_le (hS.length_chain_le hv))

/-- **What belongs to whom in a column.** The areas of the values lie apart from each other, from
the chunks that are recorded in garbage infos, from what is not used yet of the segments for chunks
and of the sequential segment, and from the segments of element infos and of garbage infos. The
recorded chunks are counted. -/
structure Separate (g : Config) (s : GrnJa) : Prop where
  values : ∀ i < idLimit, ∀ j < idLimit, i ≠ j → (place g (s.einfo i)).Apart (place g (s.einfo j))
  garbage : ∀ i < idLimit, ∀ v < nVariations, ∀ a ∈ s.garbageChunks g v,
    (place g (s.einfo i)).Apart (.chunk a v)
  chunkTail : ∀ i < idLimit, ∀ v < nVariations, (s.header.freeElements v).seg ≠ 0 →
    ∀ u, (s.header.freeElements v).pos ≤ u → u < segmentSize →
      ¬ (place g (s.einfo i)).Has (s.header.freeElements v).seg u
  sequentialTail : ∀ i < idLimit, ∀ u, s.header.currPos ≤ u → u < segmentSize →
    ¬ (place g (s.einfo i)).Has s.header.currSeg u
  einfos : ∀ i < idLimit, ∀ l < nElementSegments, s.header.elementSegs l ≠ elementSegVoid →
    ∀ u, ¬ (place g (s.einfo i)).Has (s.header.elementSegs l) u
  ginfos : ∀ i < idLimit, ∀ v < nVariations, ∀ d ∈ s.garbageInfos g v,
    ∀ u, ¬ (place g (s.einfo i)).Has d u
  count : ∀ v < nVariations, s.header.nGarbages v = (s.garbageChunks g v).length

/-- A byte of the chunks that were never used is in a chunk that no one has. -/
theorem Inv.not_has_chunkTail {h : Header} {gi : ℕ → GInfo} (hI : Inv g h gi L) (hi : i < nOwners)
    (hv : v < nVariations) (hne : (h.freeElements v).seg ≠ 0) (hle : (h.freeElements v).pos ≤ u)
    (hlt : u < segmentSize) : ¬ (L.own i).Has (h.freeElements v).seg u := by
  intro hu
  have htail := hI.chunks.tail v hv hne
  have hpow : 0 < 2 ^ (v + 3) := Nat.two_pow_pos _
  -- the chunk with the byte
  have hdiv := Nat.div_add_mod u (2 ^ (v + 3))
  have hmod := Nat.mod_lt u hpow
  have hslot : IsSlot g h v ⟨(h.freeElements v).seg, 2 ^ (v + 3) * (u / 2 ^ (v + 3))⟩ :=
    ⟨htail.seg_lt, htail.info, Nat.mul_mod_right _ _, by simp only; omega⟩
  have hfits : (Place.chunk ⟨(h.freeElements v).seg, 2 ^ (v + 3) * (u / 2 ^ (v + 3))⟩ v).Fits g h :=
    ⟨hv, hslot⟩
  refine apart_chunk hfits (hI.owned.fits i hi) (fun b w hown heq => ?_) _ u ⟨rfl, ?_, ?_⟩ hu
  · -- the chunks that are in use are in front of the one that is next
    have hw : w = v := hI.owned.variation_eq hi (heq ▸ hown) hslot
    have hbelow := hI.chunks.below v hv b (.inr ⟨i, hi, hw ▸ hown⟩)
    rw [heq] at hbelow
    have hpos := hbelow rfl
    simp only at hpos
    rcases apart_of_aligned (Nat.mul_mod_right (2 ^ (v + 3)) (u / 2 ^ (v + 3))) htail.aligned
      (Nat.ne_of_lt hpos) with hend | hend
    · omega
    · omega
  · exact Nat.mul_div_le u _
  · simp only
    omega

theorem Inv.not_has_of_info {h : Header} {gi : ℕ → GInfo} (hI : Inv g h gi L) (hi : i < nOwners)
    (hinfo : segEinfo ≤ h.segmentInfos x) : ¬ (L.own i).Has x u := fun hu =>
  Nat.not_lt.mpr hinfo ((hI.owned.fits i hi).info_lt hu.touches)

/-- What is not used yet of the sequential segment. -/
theorem Inv.not_has_sequentialTail {h : Header} {gi : ℕ → GInfo} (hI : Inv g h gi L) (hi : i < nOwners)
    (hle : h.currPos ≤ u) (hlt : u < segmentSize) : ¬ (L.own i).Has h.currSeg u := by
  intro hu
  obtain ⟨-, hseq⟩ := hI.sequence.curr_seq (by omega)
  have hfits := hI.owned.fits i hi
  have hbelow := hI.sequence.below i hi
  generalize L.own i = p at hu hfits hbelow
  cases p with
  | none => exact hu
  | chunk a w =>
    obtain ⟨hseg, -⟩ := hu
    rw [hseg, hfits.2.info] at hseq
    exact not_isSeq_variation hfits.1 hseq
  | sequential seg pos size =>
    obtain ⟨rfl, -, hend⟩ := hu
    have hpos := hbelow pos size rfl
    omega
  | huge seg n =>
    rw [hfits.2.2 _ hu.1 hu.2] at hseq
    exact not_isSeq_of_segHuge_le (Nat.le_refl _) hseq

/-- **A good column is separate.** -/
theorem Good.separate (hG : Good g s L) : Separate g s := by
  have hI := hG.sound.inv
  refine ⟨fun i hi j hj hij => ?_, fun i hi v hv a ha => ?_, fun i hi v hv hne u hle hlt => ?_,
    fun i hi u hle hlt => ?_, fun i hi l hl hne u => ?_, fun i hi v hv d hd u => ?_, fun v hv => ?_⟩
  · rw [← hG.sound.own i hi, ← hG.sound.own j hj]
    exact hI.owned.apart i (lt_nOwners hi) j (lt_nOwners hj) hij
  · rw [GrnJa.garbageChunks, hG.sound.garbageInfos_eq hv] at ha
    rw [← hG.sound.own i hi]
    have hslot := hI.chunks.fits v hv a ha
    refine (apart_chunk ⟨hv, hslot⟩ (hI.owned.fits i (lt_nOwners hi)) fun b w hown heq => ?_).symm
    have hw := hI.owned.variation_eq (lt_nOwners hi) (heq ▸ hown) hslot
    exact hI.chunks.fresh i (lt_nOwners hi) a v hv (heq ▸ hw ▸ hown) ha
  · rw [← hG.sound.own i hi]
    exact hI.not_has_chunkTail (lt_nOwners hi) hv hne hle hlt
  · rw [← hG.sound.own i hi]
    exact hI.not_has_sequentialTail (lt_nOwners hi) hle hlt
  · rw [← hG.sound.own i hi]
    exact hI.not_has_of_info (lt_nOwners hi) ((hI.einfos.info l hl hne).2 ▸ Nat.le_add_right _ _)
  · rw [hG.sound.garbageInfos_eq hv] at hd
    rw [← hG.sound.own i hi]
    refine hI.not_has_of_info (lt_nOwners hi) ((hI.chains.info v hv d hd).2 ▸ ?_)
    unfold segEinfo segGinfo
    omega
  · rw [GrnJa.garbageChunks, hG.sound.garbageInfos_eq hv]
    exact hI.chunks.count v hv

/-! ## The column as a map -/

/-- A context with a new column, and a log to which every entry can be added. -/
def Ctx.created : Ctx := ⟨jaCreate, [], .success, 0, fun _ _ => false⟩

/-- A record gets a chunk and then a value that needs none. -/
def Ctx.chunkGivenBack : Ctx :=
  putRaw .standard (fun bytes => bytes)
    (putRaw .standard (fun bytes => bytes) .created 1 [1, 2, 3, 4, 5, 6, 7, 8, 9] none 0) 1 [7] none 0

theorem run_chunkGivenBack :
    Run .standard [(1, [1, 2, 3, 4, 5, 6, 7, 8, 9]), (1, [7])] Ctx.chunkGivenBack.ja :=
  .put [(1, [1, 2, 3, 4, 5, 6, 7, 8, 9])] _ _ 1 [7]
    (.put [] _ _ 1 [1, 2, 3, 4, 5, 6, 7, 8, 9] .create (by decide) (by decide)
      ⟨.created, none, 0, rfl, by decide +kernel, rfl⟩) (by decide) (by decide)
    ⟨_, none, 0, rfl, by decide +kernel, rfl⟩

end Groonga.Ja
