import Groonga.Ii.Chunk
import Mathlib

/-!
# Who owns the chunk space

Every unit of a used segment belongs to at most one of these: a chunk that was handed out,
a garbage block, a subchunk recorded in a garbage block, or the part of a segment that is
still to be cut. `Owns` says so by counting, for the chunks `held` outside. An allocation
adds its chunk to those held, a release takes it away.

The two procedures call each other, so each is proved against what it needs of the other:
an allocation of a garbage block leaves the lists of the other classes alone, and the list
of its own class as well if all blocks of this list are full.
-/

namespace Groonga.Ii

open Groonga.Lib

/-- A chunk that was handed out, with the size it was asked for. -/
structure ChunkInfo where
  segno : ℕ
  size : ℕ
deriving DecidableEq, Repr

/-- The units of a chunk. -/
def ChunkInfo.area (c : ChunkInfo) : Area := ⟨c.segno, extent c.size⟩

/-- The class of the garbage blocks. -/
abbrev garbageClass : ℕ := sizeClass sGarbage

/-- The number of size classes. -/
def nClasses : ℕ := nChunkVariation + 1

theorem sizeClass_lt {size : ℕ} (h : ¬ size > sChunk) : sizeClass size < nClasses := by
  simp only [sizeClass, nClasses, nChunkVariation, sChunk] at *
  split
  · have h1 : Nat.log2 (size - 1) < 22 := (Nat.log2_lt (by omega)).mpr (by omega)
    omega
  · omega

theorem extent_of_le {size : ℕ} (h : ¬ size > sChunk) : extent size = 2 ^ sizeClass size :=
  if_neg h

theorem not_sGarbage_gt : ¬ sGarbage > sChunk := by decide

theorem extent_sGarbage_pos : 0 < extent sGarbage := by
  rw [extent_of_le not_sGarbage_gt]
  exact Nat.two_pow_pos _

namespace ChunkSpace

/-! ## The areas of a class -/

/-- `gs` are the blocks from the pointer `l` on. -/
def Linked (ginfo : ℕ → Ginfo) : Option ℕ → List ℕ → Prop
  | l, [] => l = none
  | l, g :: gs => l = some g ∧ Linked ginfo (ginfo g).next gs

/-- A block of class `k` with the subchunks it records. -/
def blockAreas (ginfo : ℕ → Ginfo) (k g : ℕ) : List Area :=
  ⟨g, extent sGarbage⟩ :: (ginfo g).recs.map fun r => ⟨r, 2 ^ k⟩

/-- The rest of the segment that is cut for class `k`. -/
def restAreas (freeChunks : ℕ → Option ℕ) (k : ℕ) : List Area :=
  match freeChunks k with
  | none => []
  | some v => [⟨v, 2 ^ nChunkVariation - v % 2 ^ nChunkVariation⟩]

/-- How often the records, blocks and the segment of class `k` cover a unit. -/
def classCover (s : ChunkSpace) (blocks : ℕ → List ℕ) (u k : ℕ) : ℕ :=
  cover (restAreas s.freeChunks k) u +
    ((blocks k).map fun g => cover (blockAreas s.ginfo k g) u).sum

/-- **Ownership.** `blocks` are the garbage blocks of each class, `held` the chunks that
were handed out. -/
structure Owns (s : ChunkSpace) (blocks : ℕ → List ℕ) (held : List ChunkInfo) : Prop where
  linked : ∀ k, Linked s.ginfo (s.garbages k) (blocks k)
  count : ∀ k, s.ngarbages k = ((blocks k).map fun g => (s.ginfo g).recs.length).sum
  nonempty : ∀ k, ∀ g ∈ blocks k, (s.ginfo g).recs ≠ []
  above : ∀ k, nClasses ≤ k → blocks k = []
  cut : ∀ k v, s.freeChunks k = some v → 2 ^ k ∣ v
  aligned : ∀ c ∈ held, c.size > sChunk → 2 ^ nChunkVariation ∣ c.segno
  once : ∀ u, cover (held.map ChunkInfo.area) u +
      ∑ k ∈ Finset.range nClasses, s.classCover blocks u k ≤
    if s.chunks (u / 2 ^ nChunkVariation) then 1 else 0

/-- Every block just obtained can be mapped. -/
def FreshMapped (s : ChunkSpace) : Prop := ∀ m ∈ s.freshMaps, m = none

/-- What a call found out about the environment does not concern ownership. -/
def SameSpace (s s' : ChunkSpace) : Prop :=
  ∃ maps rc, s' = { s with maps := maps, rc := rc }

theorem SameSpace.refl (s : ChunkSpace) : SameSpace s s := ⟨s.maps, s.rc, rfl⟩

theorem SameSpace.trans {s s' s'' : ChunkSpace} (h : SameSpace s s') (h' : SameSpace s' s'') :
    SameSpace s s'' := by
  obtain ⟨m, r, rfl⟩ := h
  obtain ⟨m', r', rfl⟩ := h'
  exact ⟨m', r', rfl⟩

theorem sameSpace_winMap (s : ChunkSpace) : SameSpace s s.winMap.1 := by
  unfold winMap
  split
  · exact .refl s
  · exact ⟨_, s.rc, rfl⟩
  · exact ⟨_, false, rfl⟩

variable {s s' : ChunkSpace} {blocks : ℕ → List ℕ} {held : List ChunkInfo}

theorem Owns.sameSpace (h : Owns s blocks held) (hs : SameSpace s s') : Owns s' blocks held := by
  obtain ⟨m, r, rfl⟩ := hs
  exact ⟨h.linked, h.count, h.nonempty, h.above, h.cut, h.aligned, h.once⟩

/-- Chunks may be lost. -/
theorem Owns.subperm (h : Owns s blocks held) {held' : List ChunkInfo} (hs : held'.Subperm held) :
    Owns s blocks held' := by
  refine ⟨h.linked, h.count, h.nonempty, h.above, h.cut, fun c hc => ?_, fun u => ?_⟩
  · exact h.aligned c (hs.subset hc)
  · have hle : cover (held'.map ChunkInfo.area) u ≤ cover (held.map ChunkInfo.area) u := by
      simp only [cover, List.countP_map]
      exact hs.countP_le _
    exact le_trans (Nat.add_le_add_right hle _) (h.once u)

theorem Owns.drop {c : ChunkInfo} (h : Owns s blocks (c :: held)) : Owns s blocks held :=
  h.subperm (List.sublist_cons_self c held).subperm

/-! ## Blocks are distinct -/

theorem Owns.cover_le_one (h : Owns s blocks held) (u : ℕ) :
    cover (held.map ChunkInfo.area) u +
      ∑ k ∈ Finset.range nClasses, s.classCover blocks u k ≤ 1 := by
  have h1 := h.once u
  split at h1 <;> omega

theorem has_block (ginfo : ℕ → Ginfo) (k g : ℕ) : 1 ≤ cover (blockAreas ginfo k g) g := by
  apply cover_pos (List.mem_cons_self ..)
  exact ⟨le_rfl, Nat.lt_add_of_pos_right extent_sGarbage_pos⟩

theorem Owns.lt_nClasses (h : Owns s blocks held) {k g : ℕ} (hg : g ∈ blocks k) :
    k < nClasses := by
  by_contra hk
  rw [h.above k (by omega)] at hg
  exact absurd hg (List.not_mem_nil)

theorem Owns.classCover_le (h : Owns s blocks held) {k : ℕ} (hk : k < nClasses) (u : ℕ) :
    s.classCover blocks u k ≤ 1 :=
  le_trans (le_sum_range hk _) (le_trans (Nat.le_add_left _ _) (h.cover_le_one u))

theorem le_classCover {k g : ℕ} (hg : g ∈ blocks k) : 1 ≤ s.classCover blocks g k := by
  have h1 : cover (blockAreas s.ginfo k g) g ≤
      ((blocks k).map fun g' => cover (blockAreas s.ginfo k g') g).sum :=
    List.le_sum_of_mem (List.mem_map_of_mem (f := fun g' => cover (blockAreas s.ginfo k g') g) hg)
  have h2 := has_block s.ginfo k g
  unfold classCover
  omega

theorem Owns.class_unique (h : Owns s blocks held) {j k g : ℕ} (hj : g ∈ blocks j)
    (hk : g ∈ blocks k) : j = k := by
  by_contra hne
  have h1 := add_le_sum_range (h.lt_nClasses hj) (h.lt_nClasses hk) hne (s.classCover blocks g)
  have h2 := h.cover_le_one g
  have h3 := @le_classCover s blocks j g hj
  have h4 := @le_classCover s blocks k g hk
  omega

theorem nodup_of_cover {ginfo : ℕ → Ginfo} {k : ℕ} {gs : List ℕ}
    (h : ∀ u, (gs.map fun g => cover (blockAreas ginfo k g) u).sum ≤ 1) : gs.Nodup := by
  induction gs with
  | nil => exact List.nodup_nil
  | cons g gs ih =>
    simp only [List.map_cons, List.sum_cons] at h
    refine List.nodup_cons.mpr ⟨fun hg => ?_, ih fun u => le_trans (Nat.le_add_left _ _) (h u)⟩
    have h1 : cover (blockAreas ginfo k g) g ≤
        (gs.map fun g' => cover (blockAreas ginfo k g') g).sum :=
      List.le_sum_of_mem (List.mem_map_of_mem (f := fun g' => cover (blockAreas ginfo k g') g) hg)
    have h2 := has_block ginfo k g
    have h3 := h g
    omega

theorem Owns.nodup (h : Owns s blocks held) (k : ℕ) : (blocks k).Nodup := by
  by_cases hk : k < nClasses
  · apply @nodup_of_cover s.ginfo k
    intro u
    exact le_trans (Nat.le_add_left _ _) (h.classCover_le hk u)
  · rw [h.above k (by omega)]
    exact List.nodup_nil

/-- The chunks held are no blocks. -/
theorem Owns.not_mem_blocks {c : ChunkInfo} (h : Owns s blocks (c :: held))
    (hc : 0 < extent c.size) (k : ℕ) : c.segno ∉ blocks k := by
  intro hk
  have h1 := h.cover_le_one c.segno
  rw [List.map_cons, cover_cons, if_pos (⟨le_rfl, by exact Nat.lt_add_of_pos_right hc⟩)] at h1
  have h2 := @le_classCover s blocks k _ hk
  have h3 := le_sum_range (h.lt_nClasses hk) (s.classCover blocks c.segno)
  omega

/-! ## Changing one block -/

theorem Linked.congr {ginfo ginfo' : ℕ → Ginfo} {l : Option ℕ} {gs : List ℕ}
    (h : Linked ginfo l gs) (hn : ∀ g ∈ gs, (ginfo' g).next = (ginfo g).next) :
    Linked ginfo' l gs := by
  induction gs generalizing l with
  | nil => exact h
  | cons g gs ih =>
    refine ⟨h.1, ?_⟩
    rw [hn g (List.mem_cons_self ..)]
    exact ih h.2 fun g' hg' => hn g' (List.mem_cons_of_mem _ hg')

/-- The classes other than `k` do not see a change of a block of class `k`. -/
theorem Owns.classCover_other (h : Owns s blocks held) {k g : ℕ} (hg : g ∈ blocks k)
    {ginfo' : ℕ → Ginfo} (hrec : ∀ g', g' ≠ g → (ginfo' g').recs = (s.ginfo g').recs) {j : ℕ}
    (hj : j ≠ k) (u : ℕ) :
    ({ s with ginfo := ginfo' } : ChunkSpace).classCover blocks u j = s.classCover blocks u j := by
  have hmap : ((blocks j).map fun g' => cover (blockAreas ginfo' j g') u) =
      (blocks j).map fun g' => cover (blockAreas s.ginfo j g') u := by
    apply List.map_congr_left
    intro g' hg'
    have hne : g' ≠ g := by
      rintro rfl
      exact hj (h.class_unique hg' hg)
    simp only [blockAreas, hrec g' hne]
  simp only [classCover, hmap]

/-- A block of class `k` that records something else, while chunks are taken from or added
to those held to the same extent. -/
theorem Owns.setBlock (h : Owns s blocks held) {k g : ℕ} (hg : g ∈ blocks k) (info : Ginfo)
    (hnext : info.next = (s.ginfo g).next) (hne : info.recs ≠ []) {n : ℕ}
    (hn : n + (s.ginfo g).recs.length = s.ngarbages k + info.recs.length)
    {held' : List ChunkInfo}
    (haligned : ∀ c ∈ held', c.size > sChunk → 2 ^ nChunkVariation ∣ c.segno)
    (hcover : ∀ u, cover (blockAreas (Function.update s.ginfo g info) k g) u +
        cover (held'.map ChunkInfo.area) u =
      cover (blockAreas s.ginfo k g) u + cover (held.map ChunkInfo.area) u) :
    Owns { s.setGinfo g info with ngarbages := Function.update s.ngarbages k n } blocks held' := by
  have hother : ∀ g', g' ≠ g → Function.update s.ginfo g info g' = s.ginfo g' :=
    fun g' hg' => Function.update_of_ne hg' _ _
  refine ⟨fun j => ?_, fun j => ?_, fun j g' hg' => ?_, h.above, h.cut, haligned, fun u => ?_⟩
  · refine (h.linked j).congr fun g' _ => ?_
    by_cases hg' : g' = g
    · subst hg'
      simpa [setGinfo] using hnext
    · simp [setGinfo, hother g' hg']
  · by_cases hj : j = k
    · subst hj
      have h1 := sum_map_exchange (h.nodup j) hg
        (f := fun g' => (Function.update s.ginfo g info g').recs.length)
        (g := fun g' => (s.ginfo g').recs.length) (fun b hb => by simp [hother b hb])
      simp only [Function.update_self] at h1
      have h2 := h.count j
      simp only [setGinfo, Function.update_self]
      omega
    · simp only [setGinfo, Function.update_of_ne hj, h.count j]
      refine congrArg List.sum (List.map_congr_left fun g' hg' => ?_)
      rw [hother g' (fun heq => hj (h.class_unique (heq ▸ hg') hg))]
  · by_cases hg'' : g' = g
    · subst hg''
      simpa [setGinfo] using hne
    · simpa [setGinfo, hother g' hg''] using h.nonempty j g' hg'
  · have h1 := sum_exchange (h.lt_nClasses hg)
      (f := ({ s with ginfo := Function.update s.ginfo g info } : ChunkSpace).classCover blocks u)
      (g := s.classCover blocks u)
      (fun j hj => h.classCover_other hg (fun g' hg' => by rw [hother g' hg']) hj u)
    have h2 := sum_map_exchange (h.nodup k) hg
      (f := fun g' => cover (blockAreas (Function.update s.ginfo g info) k g') u)
      (g := fun g' => cover (blockAreas s.ginfo k g') u)
      (fun b hb => by simp [blockAreas, hother b hb])
    have h3 := hcover u
    have h4 : ({ s with ginfo := Function.update s.ginfo g info } : ChunkSpace).classCover
        blocks u k + cover (blockAreas s.ginfo k g) u = s.classCover blocks u k +
          cover (blockAreas (Function.update s.ginfo g info) k g) u := by
      simp only [classCover]
      omega
    refine le_trans ?_ (h.once u)
    change _ + ∑ j ∈ Finset.range nClasses,
      ({ s with ginfo := Function.update s.ginfo g info } : ChunkSpace).classCover blocks u j ≤ _
    omega

theorem aligned_cons {c : ChunkInfo} (hc : ¬ c.size > sChunk)
    (h : ∀ c' ∈ held, c'.size > sChunk → 2 ^ nChunkVariation ∣ c'.segno) :
    ∀ c' ∈ c :: held, c'.size > sChunk → 2 ^ nChunkVariation ∣ c'.segno := by
  rintro c' hc' hsize
  rcases List.mem_cons.mp hc' with rfl | hc'
  · exact absurd hsize hc
  · exact h c' hc' hsize

theorem cover_cons_area {segno size : ℕ} (hsize : ¬ size > sChunk) (u : ℕ) :
    cover ((⟨segno, size⟩ :: held).map ChunkInfo.area) u = cover (held.map ChunkInfo.area) u +
      if (⟨segno, 2 ^ sizeClass size⟩ : Area).Has u then 1 else 0 := by
  rw [List.map_cons, cover_cons, ChunkInfo.area, extent_of_le hsize]

/-- Taking a record out of a block that keeps another one. -/
theorem Owns.pop (h : Owns s blocks held) {size g r : ℕ} {rest : List ℕ}
    (hsize : ¬ size > sChunk) (hg : g ∈ blocks (sizeClass size))
    (hr : (s.ginfo g).recs = r :: rest) (hrest : rest ≠ []) :
    Owns (s.pop (sizeClass size) g) blocks (⟨r, size⟩ :: held) := by
  have hpos : (s.ginfo g).recs.length ≤ s.ngarbages (sizeClass size) := by
    rw [h.count]
    exact List.le_sum_of_mem (List.mem_map_of_mem (f := fun g => (s.ginfo g).recs.length) hg)
  rw [hr, List.length_cons] at hpos
  refine h.setBlock hg { s.ginfo g with recs := (s.ginfo g).recs.tail } rfl ?_ ?_
    (aligned_cons (c := ⟨r, size⟩) hsize h.aligned) fun u => ?_
  · simpa [hr] using hrest
  · simp only [hr, List.length_cons, List.tail_cons]
    omega
  · rw [cover_cons_area hsize]
    simp only [blockAreas, hr, Function.update_self, List.tail_cons, List.map_cons, cover_cons]
    omega

/-- Recording a subchunk in a block of the list. -/
theorem Owns.push {size g offset : ℕ} (h : Owns s blocks (⟨offset, size⟩ :: held))
    (hsize : ¬ size > sChunk) (hg : g ∈ blocks (sizeClass size)) :
    Owns (s.push (sizeClass size) g offset) blocks held := by
  refine h.setBlock hg { s.ginfo g with recs := (s.ginfo g).recs ++ [offset] } rfl (by simp) ?_
    (fun c hc => h.aligned c (List.mem_cons_of_mem _ hc)) fun u => ?_
  · simp only [List.length_append, List.length_singleton]
    omega
  · rw [cover_cons_area hsize]
    simp only [blockAreas, Function.update_self, List.map_append, List.map_cons, List.map_nil,
      cover_cons, cover_append, cover_nil]
    omega

/-! ## Removing and adding a block -/

/-- The cover of the classes when only the list of class `k` changes, and the records only
of a block that no list has afterwards or before. -/
theorem sum_classCover_update (s' : ChunkSpace) {k g : ℕ} (gs : List ℕ) (hk : k < nClasses)
    (hfree : s'.freeChunks = s.freeChunks)
    (hrec : ∀ g', g' ≠ g → (s'.ginfo g').recs = (s.ginfo g').recs)
    (hother : ∀ j, j ≠ k → g ∉ blocks j) (u : ℕ) :
    ∑ j ∈ Finset.range nClasses, s'.classCover (Function.update blocks k gs) u j +
        ((blocks k).map fun g' => cover (blockAreas s.ginfo k g') u).sum =
      ∑ j ∈ Finset.range nClasses, s.classCover blocks u j +
        (gs.map fun g' => cover (blockAreas s'.ginfo k g') u).sum := by
  have h1 := sum_exchange hk (f := s'.classCover (Function.update blocks k gs) u)
    (g := s.classCover blocks u) (fun j hj => by
      have hmap : ((blocks j).map fun g' => cover (blockAreas s'.ginfo j g') u) =
          (blocks j).map fun g' => cover (blockAreas s.ginfo j g') u := by
        refine List.map_congr_left fun g' hg' => ?_
        have hne : g' ≠ g := fun heq => hother j hj (heq ▸ hg')
        simp only [blockAreas, hrec g' hne]
      simp only [classCover, Function.update_of_ne hj, hfree, hmap])
  simp only [classCover, Function.update_self, hfree] at h1 ⊢
  omega

/-- The first block of a list with its last record: both are held afterwards. -/
theorem Owns.removeBlock (h : Owns s blocks held) {size g r : ℕ} {gs : List ℕ}
    (hsize : ¬ size > sChunk) (hgs : blocks (sizeClass size) = g :: gs)
    (hr : (s.ginfo g).recs = [r]) :
    Owns ((s.pop (sizeClass size) g).setLink (.header (sizeClass size)) (s.ginfo g).next)
      (Function.update blocks (sizeClass size) gs) (⟨g, sGarbage⟩ :: ⟨r, size⟩ :: held) := by
  have hmem : g ∈ blocks (sizeClass size) := hgs ▸ List.mem_cons_self ..
  have hnodup := hgs ▸ h.nodup (sizeClass size)
  have hnot : ∀ j, ∀ g' ∈ Function.update blocks (sizeClass size) gs j, g' ≠ g := by
    rintro j g' hg' rfl
    by_cases hj : j = sizeClass size
    · subst hj
      rw [Function.update_self] at hg'
      exact (List.nodup_cons.mp hnodup).1 hg'
    · rw [Function.update_of_ne hj] at hg'
      exact hj (h.class_unique hg' hmem)
  have hginfo : ∀ g', g' ≠ g →
      Function.update s.ginfo g { s.ginfo g with recs := (s.ginfo g).recs.tail } g' = s.ginfo g' :=
    fun g' hg' => Function.update_of_ne hg' _ _
  refine ⟨fun j => ?_, fun j => ?_, fun j g' hg' => ?_, fun j hj => ?_, h.cut,
    aligned_cons (c := ⟨g, sGarbage⟩) not_sGarbage_gt
      (aligned_cons (c := ⟨r, size⟩) hsize h.aligned), fun u => ?_⟩
  · have hl := h.linked j
    by_cases hj : j = sizeClass size
    · subst hj
      rw [hgs] at hl
      simp only [setLink, ChunkSpace.pop, setGinfo, Function.update_self]
      refine hl.2.congr fun g' hg' => ?_
      rw [hginfo g' (hnot _ g' (by rwa [Function.update_self]))]
    · simp only [setLink, ChunkSpace.pop, setGinfo, Function.update_of_ne hj]
      refine hl.congr fun g' hg' => ?_
      rw [hginfo g' (hnot j g' (by rwa [Function.update_of_ne hj]))]
  · have hc := h.count j
    have hmap : ((Function.update blocks (sizeClass size) gs j).map fun g' => (Function.update
        s.ginfo g { s.ginfo g with recs := (s.ginfo g).recs.tail } g').recs.length) =
        (Function.update blocks (sizeClass size) gs j).map fun g' => (s.ginfo g').recs.length :=
      List.map_congr_left fun g' hg' => by rw [hginfo g' (hnot j g' hg')]
    simp only [setLink, ChunkSpace.pop, setGinfo]
    rw [hmap]
    by_cases hj : j = sizeClass size
    · subst hj
      rw [hgs] at hc
      simp only [List.map_cons, List.sum_cons, hr, List.length_singleton] at hc
      simp only [Function.update_self]
      omega
    · rw [Function.update_of_ne hj, Function.update_of_ne hj]
      exact hc
  · have hg'' : g' ∈ blocks j := by
      by_cases hj : j = sizeClass size
      · subst hj
        rw [Function.update_self] at hg'
        rw [hgs]
        exact List.mem_cons_of_mem _ hg'
      · rwa [Function.update_of_ne hj] at hg'
    simp only [setLink, ChunkSpace.pop, setGinfo, hginfo g' (hnot j g' hg')]
    exact h.nonempty j g' hg''
  · have hne : j ≠ sizeClass size := fun heq => absurd (sizeClass_lt hsize) (by omega)
    rw [Function.update_of_ne hne]
    exact h.above j hj
  · refine le_trans ?_ (h.once u)
    have h1 := sum_classCover_update (s := s)
      ((s.pop (sizeClass size) g).setLink (.header (sizeClass size)) (s.ginfo g).next) gs
      (sizeClass_lt hsize) rfl
      (fun g' hg' => by simp [setLink, ChunkSpace.pop, setGinfo, hginfo g' hg'])
      (fun j hj hg' => hj (h.class_unique hg' hmem)) u
    have hmap : (gs.map fun g' => cover (blockAreas ((s.pop (sizeClass size) g).setLink
        (.header (sizeClass size)) (s.ginfo g).next).ginfo (sizeClass size) g') u) =
        gs.map fun g' => cover (blockAreas s.ginfo (sizeClass size) g') u := by
      refine List.map_congr_left fun g' hg' => ?_
      have hne : g' ≠ g := fun heq => (List.nodup_cons.mp hnodup).1 (heq ▸ hg')
      simp [blockAreas, setLink, ChunkSpace.pop, setGinfo, hginfo g' hne]
    rw [hgs, List.map_cons, List.sum_cons, hmap] at h1
    rw [cover_cons_area not_sGarbage_gt, cover_cons_area hsize]
    simp only [blockAreas, hr, List.map_cons, List.map_nil, cover_cons, cover_nil,
      extent_of_le not_sGarbage_gt] at h1
    omega

/-- The place that ends the list `gs` that starts at `l`. -/
def endLink : Link → List ℕ → Link
  | l, [] => l
  | _, g :: gs => endLink (.next g) gs

/-- The end of a list lies at its start or in one of its blocks. -/
theorem endLink_mem (l : Link) (gs : List ℕ) :
    (gs = [] ∧ endLink l gs = l) ∨ ∃ g ∈ gs, endLink l gs = .next g := by
  induction gs generalizing l with
  | nil => exact .inl ⟨rfl, rfl⟩
  | cons g gs ih =>
    rcases ih (.next g) with ⟨rfl, heq⟩ | ⟨g', hg', heq⟩
    · exact .inr ⟨g, List.mem_cons_self .., heq⟩
    · exact .inr ⟨g', List.mem_cons_of_mem _ hg', heq⟩

/-- The space after the block `g` was hung at the end of the list `gs` of class `k`, with
one record. -/
def appendBlock (s : ChunkSpace) (l : Link) (k g offset : ℕ) : ChunkSpace :=
  ((s.setLink l (some g)).setGinfo g ⟨[], none⟩).push k g offset

theorem appendBlock_self (s : ChunkSpace) (l : Link) (k g offset : ℕ) :
    (s.appendBlock l k g offset).ginfo g = ⟨[offset], none⟩ := by
  simp [appendBlock, ChunkSpace.push, setGinfo]

theorem appendBlock_recs (s : ChunkSpace) (l : Link) (k : ℕ) {g g' : ℕ} (offset : ℕ)
    (h : g' ≠ g) : ((s.appendBlock l k g offset).ginfo g').recs = (s.ginfo g').recs := by
  cases l with
  | header j => simp [appendBlock, ChunkSpace.push, setGinfo, setLink, Function.update_of_ne h]
  | next g₀ =>
    simp only [appendBlock, ChunkSpace.push, setGinfo, setLink, Function.update_of_ne h]
    by_cases h₀ : g' = g₀
    · subst h₀
      simp
    · simp [Function.update_of_ne h₀]

theorem appendBlock_next (s : ChunkSpace) (l : Link) (k : ℕ) {g g' : ℕ} (offset : ℕ)
    (h : g' ≠ g) (hl : l ≠ .next g') :
    ((s.appendBlock l k g offset).ginfo g').next = (s.ginfo g').next := by
  cases l with
  | header j => simp [appendBlock, ChunkSpace.push, setGinfo, setLink, Function.update_of_ne h]
  | next g₀ =>
    have h₀ : g' ≠ g₀ := fun heq => hl (heq ▸ rfl)
    simp [appendBlock, ChunkSpace.push, setGinfo, setLink, Function.update_of_ne h,
      Function.update_of_ne h₀]

theorem appendBlock_link (s : ChunkSpace) (l : Link) (k g offset : ℕ) (hl : l ≠ .next g) :
    (s.appendBlock l k g offset).link l = some g := by
  cases l with
  | header j => simp [appendBlock, ChunkSpace.push, setGinfo, setLink, link]
  | next g₀ =>
    have h₀ : g₀ ≠ g := fun heq => hl (heq ▸ rfl)
    simp [appendBlock, ChunkSpace.push, setGinfo, setLink, link, Function.update_of_ne h₀]

theorem appendBlock_link_of_ne (s : ChunkSpace) {l l' : Link} (k g offset : ℕ) (hl : l ≠ l')
    (hg : l' ≠ .next g) : (s.appendBlock l k g offset).link l' = s.link l' := by
  cases l' with
  | header j =>
    cases l with
    | header i =>
      have hij : j ≠ i := fun heq => hl (heq ▸ rfl)
      simp [appendBlock, ChunkSpace.push, setGinfo, setLink, link, Function.update_of_ne hij]
    | next g₀ => simp [appendBlock, ChunkSpace.push, setGinfo, setLink, link]
  | next g' => exact appendBlock_next s l k offset (fun heq => hg (heq ▸ rfl)) hl

/-- Hanging a block at the end of a list makes the list longer by it. -/
theorem linked_appendBlock {l : Link} {gs : List ℕ} (h : Linked s.ginfo (s.link l) gs)
    (k : ℕ) {g : ℕ} (offset : ℕ) (hg : g ∉ gs) (hgs : gs.Nodup) (hl : l ≠ .next g)
    (hl' : ∀ g' ∈ gs, l ≠ .next g') :
    Linked (s.appendBlock (endLink l gs) k g offset).ginfo
      ((s.appendBlock (endLink l gs) k g offset).link l) (gs ++ [g]) := by
  induction gs generalizing l with
  | nil =>
    refine ⟨appendBlock_link s l k g offset hl, ?_⟩
    rw [appendBlock_self]
    rfl
  | cons g₁ gs ih =>
    have hne : g₁ ≠ g := fun heq => hg (heq ▸ List.mem_cons_self ..)
    have hend : endLink (.next g₁) gs ≠ l := by
      rcases endLink_mem (.next g₁) gs with ⟨-, heq⟩ | ⟨g', hg', heq⟩
      · rw [heq]
        exact (hl' g₁ (List.mem_cons_self ..)).symm
      · rw [heq]
        exact (hl' g' (List.mem_cons_of_mem _ hg')).symm
    refine ⟨?_, ?_⟩
    · change (s.appendBlock (endLink (.next g₁) gs) k g offset).link l = some g₁
      rw [appendBlock_link_of_ne s k g offset hend hl]
      exact h.1
    · refine ih (l := .next g₁) h.2 (fun hmem => hg (List.mem_cons_of_mem _ hmem))
        (List.nodup_cons.mp hgs).2 (fun heq => hne (Link.next.inj heq)) fun g' hg' heq => ?_
      exact (List.nodup_cons.mp hgs).1 (Link.next.inj heq ▸ hg')

/-- A chunk held becomes the last block of a list and records another chunk held. -/
theorem Owns.appendBlock {size g offset : ℕ}
    (h : Owns s blocks (⟨g, sGarbage⟩ :: ⟨offset, size⟩ :: held)) (hsize : ¬ size > sChunk) :
    Owns (s.appendBlock (endLink (.header (sizeClass size)) (blocks (sizeClass size)))
        (sizeClass size) g offset)
      (Function.update blocks (sizeClass size) (blocks (sizeClass size) ++ [g])) held := by
  have hg : ∀ j, g ∉ blocks j := fun j => h.not_mem_blocks extent_sGarbage_pos j
  have hk := sizeClass_lt hsize
  have harea := @cover_cons_area held offset size hsize
  generalize sizeClass size = k at hk harea ⊢
  have hend := endLink_mem (.header k) (blocks k)
  have hlinked := linked_appendBlock (l := .header k) (h.linked k) k offset (hg k) (h.nodup k)
    (by simp) (by simp)
  generalize endLink (.header k) (blocks k) = l at hend hlinked ⊢
  have hfree : (s.appendBlock l k g offset).freeChunks = s.freeChunks := by cases l <;> rfl
  have hchunks : (s.appendBlock l k g offset).chunks = s.chunks := by cases l <;> rfl
  have hn : (s.appendBlock l k g offset).ngarbages =
      Function.update s.ngarbages k (s.ngarbages k + 1) := by cases l <;> rfl
  have hrecs : ∀ j, ∀ g' ∈ blocks j,
      ((s.appendBlock l k g offset).ginfo g').recs = (s.ginfo g').recs :=
    fun j g' hg' => appendBlock_recs s l k offset fun heq => hg j (heq ▸ hg')
  refine ⟨fun j => ?_, fun j => ?_, fun j g' hg' => ?_, fun j hj => ?_, ?_, ?_, fun u => ?_⟩
  · by_cases hj : j = k
    · subst hj
      rwa [Function.update_self]
    · -- the other lists neither have the block nor end where it was hung
      rw [Function.update_of_ne hj]
      have hlink : (s.appendBlock l k g offset).link (.header j) = s.link (.header j) := by
        apply appendBlock_link_of_ne
        · rcases hend with ⟨-, rfl⟩ | ⟨g', -, rfl⟩
          · exact fun heq => hj (Link.header.inj heq).symm
          · simp
        · simp
      change Linked _ ((s.appendBlock l k g offset).link (.header j)) _
      rw [hlink]
      refine (h.linked j).congr fun g' hg' => appendBlock_next s l k offset
        (fun heq => hg j (heq ▸ hg')) fun heq => ?_
      rcases hend with ⟨-, rfl⟩ | ⟨g'', hg'', rfl⟩
      · cases heq
      · exact hj (h.class_unique hg' (Link.next.inj heq ▸ hg''))
  · have hmap : ((blocks j).map fun g' => ((s.appendBlock l k g offset).ginfo g').recs.length) =
        (blocks j).map fun g' => (s.ginfo g').recs.length :=
      List.map_congr_left fun g' hg' => by rw [hrecs j g' hg']
    by_cases hj : j = k
    · subst hj
      rw [Function.update_self, List.map_append, List.sum_append, hmap, ← h.count, hn]
      simp [appendBlock_self]
    · rw [Function.update_of_ne hj, hmap, ← h.count, hn, Function.update_of_ne hj]
  · by_cases hg'' : g' = g
    · subst hg''
      simp [appendBlock_self]
    · have hmem : g' ∈ blocks j := by
        by_cases hj : j = k
        · subst hj
          simpa [hg''] using hg'
        · rwa [Function.update_of_ne hj] at hg'
      rw [hrecs j g' hmem]
      exact h.nonempty j g' hmem
  · rw [Function.update_of_ne (by omega)]
    exact h.above j hj
  · rw [hfree]
    exact h.cut
  · exact fun c hc => h.aligned c (List.mem_cons_of_mem _ (List.mem_cons_of_mem _ hc))
  · have honce := h.once u
    have h1 := sum_classCover_update (s := s) (s.appendBlock l k g offset) (blocks k ++ [g]) hk
      hfree (fun g' hg' => appendBlock_recs s l k offset hg') (fun j _ => hg j) u
    have hmap : ((blocks k).map fun g' =>
        cover (blockAreas (s.appendBlock l k g offset).ginfo k g') u) =
        (blocks k).map fun g' => cover (blockAreas s.ginfo k g') u :=
      List.map_congr_left fun g' hg' => by simp only [blockAreas, hrecs k g' hg']
    rw [List.map_append, List.sum_append, hmap] at h1
    simp only [blockAreas, appendBlock_self, List.map_cons, List.map_nil, List.sum_singleton,
      cover_cons, cover_nil, extent_of_le not_sGarbage_gt] at h1
    rw [cover_cons_area not_sGarbage_gt, harea] at honce
    rw [hchunks]
    refine le_trans ?_ honce
    omega

/-! ## Segments -/

theorem mem_segment_iff {i u : ℕ} : u / 2 ^ nChunkVariation = i ↔
    (⟨i * 2 ^ nChunkVariation, 2 ^ nChunkVariation⟩ : Area).Has u := by
  simp only [Area.Has, nChunkVariation]
  omega

theorem mem_segments_iff {seg n u : ℕ} :
    (seg ≤ u / 2 ^ nChunkVariation ∧ u / 2 ^ nChunkVariation < seg + n) ↔
      (⟨seg * 2 ^ nChunkVariation, n * 2 ^ nChunkVariation⟩ : Area).Has u := by
  simp only [Area.Has, nChunkVariation]
  omega

theorem setChunks_of_mem (s : ChunkSpace) {seg n i : ℕ} (b : Bool) (h : seg ≤ i ∧ i < seg + n) :
    (s.setChunks seg n b).chunks i = b := if_pos h

theorem setChunks_of_not_mem (s : ChunkSpace) {seg n i : ℕ} (b : Bool)
    (h : ¬ (seg ≤ i ∧ i < seg + n)) : (s.setChunks seg n b).chunks i = s.chunks i := if_neg h

/-- Nothing lies in a segment that is not used. -/
theorem Owns.cover_eq_zero (h : Owns s blocks held) {u : ℕ}
    (hu : s.chunks (u / 2 ^ nChunkVariation) = false) :
    cover (held.map ChunkInfo.area) u +
      ∑ k ∈ Finset.range nClasses, s.classCover blocks u k = 0 := by
  have h1 := h.once u
  rw [hu] at h1
  simpa using h1

/-- Free segments become a chunk of more than one segment. -/
theorem Owns.takeSegments (h : Owns s blocks held) {j size : ℕ} (hsize : size > sChunk)
    (hfree : ∀ i, j ≤ i → i < j + nSegments size → s.chunks i = false) :
    Owns (s.setChunks j (nSegments size) true) blocks
      (⟨j * 2 ^ nChunkVariation, size⟩ :: held) := by
  refine ⟨h.linked, h.count, h.nonempty, h.above, h.cut, ?_, fun u => ?_⟩
  · rintro c hc hbig
    rcases List.mem_cons.mp hc with rfl | hc
    · exact Dvd.intro_left _ rfl
    · exact h.aligned c hc hbig
  · have honce := h.once u
    rw [List.map_cons, cover_cons, ChunkInfo.area, extent, if_pos hsize]
    change _ + ∑ k ∈ Finset.range nClasses, s.classCover blocks u k ≤ _
    by_cases hu : j ≤ u / 2 ^ nChunkVariation ∧ u / 2 ^ nChunkVariation < j + nSegments size
    · have h0 := h.cover_eq_zero (hfree _ hu.1 hu.2)
      rw [if_pos (mem_segments_iff.mp hu), if_pos (setChunks_of_mem s true hu)]
      omega
    · rw [if_neg fun hm => hu (mem_segments_iff.mpr hm)]
      simpa only [setChunks_of_not_mem s true hu, Nat.add_zero] using honce

/-- A chunk of more than one segment gives its segments back. -/
theorem Owns.giveSegments {offset size : ℕ} (h : Owns s blocks (⟨offset, size⟩ :: held))
    (hsize : size > sChunk) :
    Owns (s.setChunks (offset / 2 ^ nChunkVariation) (nSegments size) false) blocks held := by
  refine ⟨h.linked, h.count, h.nonempty, h.above, h.cut,
    fun c hc => h.aligned c (List.mem_cons_of_mem _ hc), fun u => ?_⟩
  have honce := h.cover_le_one u
  have honce' := h.once u
  have hal := Nat.div_mul_cancel (h.aligned _ (List.mem_cons_self ..) hsize)
  rw [List.map_cons, cover_cons, ChunkInfo.area, extent, if_pos hsize, ← hal] at honce honce'
  change _ + ∑ k ∈ Finset.range nClasses, s.classCover blocks u k ≤ _
  by_cases hu : offset / 2 ^ nChunkVariation ≤ u / 2 ^ nChunkVariation ∧
      u / 2 ^ nChunkVariation < offset / 2 ^ nChunkVariation + nSegments size
  · rw [if_pos (mem_segments_iff.mp hu)] at honce
    omega
  · rw [if_neg fun hm => hu (mem_segments_iff.mpr hm)] at honce'
    simpa only [setChunks_of_not_mem s false hu, Nat.add_zero] using honce'

/-! ## Cutting -/

/-- The cover of the classes when only the segment that is cut for class `k` changes. -/
theorem sum_classCover_setFree (s : ChunkSpace) (blocks : ℕ → List ℕ) {k : ℕ} (hk : k < nClasses)
    (v : Option ℕ) (u : ℕ) :
    ∑ j ∈ Finset.range nClasses, (s.setFree k v).classCover blocks u j +
        cover (restAreas s.freeChunks k) u =
      ∑ j ∈ Finset.range nClasses, s.classCover blocks u j +
        cover (restAreas (s.setFree k v).freeChunks k) u := by
  have h1 := sum_exchange hk (f := (s.setFree k v).classCover blocks u)
    (g := s.classCover blocks u)
    (fun j hj => by simp [classCover, restAreas, setFree, Function.update_of_ne hj])
  have h2 : (s.setFree k v).ginfo = s.ginfo := rfl
  simp only [classCover, h2] at h1 ⊢
  omega

/-- A free segment becomes the one that is cut for class `k`. -/
theorem Owns.takeSegment (h : Owns s blocks held) {i k : ℕ} (hk : k < nClasses)
    (hnone : s.freeChunks k = none) (hi : s.chunks i = false) :
    Owns ((s.setChunks i 1 true).setFree k (some (i * 2 ^ nChunkVariation))) blocks held := by
  refine ⟨h.linked, h.count, h.nonempty, h.above, fun j v hv => ?_, h.aligned, fun u => ?_⟩
  · by_cases hj : j = k
    · subst hj
      simp only [setFree, Function.update_self, Option.some.injEq] at hv
      subst hv
      exact (pow_dvd_pow 2 (by simp only [nClasses] at hk; omega)).mul_left i
    · simp only [setFree, Function.update_of_ne hj] at hv
      exact h.cut j v hv
  · have h1 := sum_classCover_setFree s blocks hk (some (i * 2 ^ nChunkVariation)) u
    have honce := h.once u
    simp only [restAreas, hnone, setFree, Function.update_self, cover_nil, cover_cons,
      Nat.mul_mod_left, Nat.sub_zero] at h1
    change _ + ∑ j ∈ Finset.range nClasses,
      (s.setFree k (some (i * 2 ^ nChunkVariation))).classCover blocks u j ≤
        if (s.setChunks i 1 true).chunks (u / 2 ^ nChunkVariation) then 1 else 0
    by_cases hu : i ≤ u / 2 ^ nChunkVariation ∧ u / 2 ^ nChunkVariation < i + 1
    · have hi' : u / 2 ^ nChunkVariation = i := by omega
      have h0 := h.cover_eq_zero (hi'.symm ▸ hi)
      rw [if_pos (mem_segment_iff.mp hi')] at h1
      rw [if_pos (setChunks_of_mem s true hu)]
      simp only [setFree]
      omega
    · rw [if_neg fun hm => hu (by have := mem_segment_iff.mpr hm; omega)] at h1
      simp only [setChunks_of_not_mem s true hu, setFree]
      omega

/-- The subchunk lies within the rest of its segment. -/
theorem mod_add_le {k v : ℕ} (hk : k < nClasses) (hv : 2 ^ k ∣ v) :
    v % 2 ^ nChunkVariation + 2 ^ k ≤ 2 ^ nChunkVariation := by
  have hk' : k ≤ nChunkVariation := by
    simp only [nClasses] at hk
    omega
  obtain ⟨c, hc⟩ := (Nat.dvd_mod_iff (pow_dvd_pow 2 hk')).mpr hv
  obtain ⟨d, hd⟩ := pow_dvd_pow 2 hk'
  have hlt : v % 2 ^ nChunkVariation < 2 ^ nChunkVariation := Nat.mod_lt _ (Nat.two_pow_pos _)
  rw [hc, hd] at hlt ⊢
  have hcd : c < d := Nat.lt_of_mul_lt_mul_left hlt
  calc 2 ^ k * c + 2 ^ k = 2 ^ k * (c + 1) := by ring
    _ ≤ 2 ^ k * d := Nat.mul_le_mul_left _ hcd

/-- The rest of a segment is its next subchunk and what is left then. -/
theorem cover_restAreas_cut {freeChunks : ℕ → Option ℕ} {k v : ℕ} (hk : k < nClasses)
    (hv : 2 ^ k ∣ v) (hfree : freeChunks k = some v) (u : ℕ) :
    cover (restAreas (Function.update freeChunks k
        (if (v + 2 ^ k) % 2 ^ nChunkVariation = 0 then none else some (v + 2 ^ k))) k) u +
      (if (⟨v, 2 ^ k⟩ : Area).Has u then 1 else 0) = cover (restAreas freeChunks k) u := by
  have hin := mod_add_le hk hv
  have hpos : 0 < 2 ^ k := Nat.two_pow_pos k
  simp only [restAreas, Function.update_self, hfree]
  generalize 2 ^ k = w at hin hpos ⊢
  by_cases hz : (v + w) % 2 ^ nChunkVariation = 0
  · have hw : 2 ^ nChunkVariation - v % 2 ^ nChunkVariation = w := by
      simp only [nChunkVariation] at *
      omega
    rw [if_pos hz, hw, cover_cons]
  · have hmod : (v + w) % 2 ^ nChunkVariation = v % 2 ^ nChunkVariation + w := by
      simp only [nChunkVariation] at *
      omega
    have hlen : 2 ^ nChunkVariation - v % 2 ^ nChunkVariation =
        w + (2 ^ nChunkVariation - (v + w) % 2 ^ nChunkVariation) := by
      omega
    rw [if_neg hz, hlen, cover_cut v w]
    simp only [cover_cons, cover_nil]
    omega

/-- The next subchunk of the segment that is cut. -/
theorem Owns.cutNext (h : Owns s blocks held) {size v : ℕ} (hsize : ¬ size > sChunk)
    (hv : s.freeChunks (sizeClass size) = some v) :
    Owns (s.setFree (sizeClass size)
      (if (v + 2 ^ sizeClass size) % 2 ^ nChunkVariation = 0 then none
        else some (v + 2 ^ sizeClass size))) blocks (⟨v, size⟩ :: held) := by
  have hk := sizeClass_lt hsize
  have hdvd := h.cut _ _ hv
  have harea := @cover_cons_area held v size hsize
  have hal := aligned_cons (c := ⟨v, size⟩) hsize h.aligned
  generalize sizeClass size = k at hk hdvd harea hv ⊢
  refine ⟨h.linked, h.count, h.nonempty, h.above, fun j w hw => ?_, hal, fun u => ?_⟩
  · by_cases hj : j = k
    · subst hj
      simp only [setFree, Function.update_self] at hw
      split at hw
      · cases hw
      · rw [← Option.some.inj hw]
        exact (Nat.dvd_add_right hdvd).mpr (dvd_refl _)
    · simp only [setFree, Function.update_of_ne hj] at hw
      exact h.cut j w hw
  · refine le_trans ?_ (h.once u)
    have h1 := sum_classCover_setFree s blocks hk
      (if (v + 2 ^ k) % 2 ^ nChunkVariation = 0 then none else some (v + 2 ^ k)) u
    have h2 := cover_restAreas_cut hk hdvd hv u
    simp only [setFree] at h1
    rw [harea]
    simp only [setFree]
    omega

end ChunkSpace

/-! ## Allocation and release -/

theorem findSegment_eq_some {chunks : ℕ → Bool} {rest i j : ℕ}
    (h : findSegment chunks rest i = some j) : chunks j = false := by
  induction rest generalizing i with
  | zero =>
    unfold findSegment at h
    split at h
    · cases h
    · rename_i hi
      cases h
      simpa using hi
  | succ rest ih =>
    unfold findSegment at h
    split at h
    · exact ih h
    · rename_i hi
      cases h
      simpa using hi

theorem findSegments_eq_some {chunks : ℕ → Bool} {n rest i start j : ℕ}
    (h : findSegments chunks n rest i start = some j) (hle : start ≤ i)
    (hfree : ∀ x, start ≤ x → x < i → chunks x = false) :
    ∀ x, j ≤ x → x < j + n → chunks x = false := by
  induction rest generalizing i start with
  | zero => cases h
  | succ rest ih =>
    unfold findSegments at h
    split at h
    · exact ih h le_rfl fun x hx hx' => absurd hx (by omega)
    · rename_i hi
      have hfree' : ∀ x, start ≤ x → x < i + 1 → chunks x = false := by
        intro x hx hx'
        rcases Nat.lt_succ_iff_lt_or_eq.mp hx' with hlt | rfl
        · exact hfree x hx hlt
        · simpa using hi
      split at h
      · cases h
        intro x hx hx'
        exact hfree' x hx (by omega)
      · exact ih h (by omega) hfree'

/-- The chunk that an allocation returned. -/
def obtained (r : Option ℕ) (size : ℕ) : List ChunkInfo := r.toList.map (⟨·, size⟩)

@[simp] theorem obtained_none (size : ℕ) : obtained none size = [] := rfl

@[simp] theorem obtained_some (segno size : ℕ) : obtained (some segno) size = [⟨segno, size⟩] := rfl

open ChunkSpace

variable {s : ChunkSpace} {blocks : ℕ → List ℕ} {held : List ChunkInfo}

theorem cutSubchunk_owns (h : Owns s blocks held) {size : ℕ} (hsize : ¬ size > sChunk) :
    Owns (cutSubchunk s (sizeClass size)).1 blocks
      (obtained (cutSubchunk s (sizeClass size)).2 size ++ held) := by
  unfold cutSubchunk
  cases hv : s.freeChunks (sizeClass size) with
  | some v => exact h.cutNext hsize hv
  | none =>
    cases hi : findSegment s.chunks (s.maxSegment - 1) 0 with
    | none => exact h.sameSpace ⟨s.maps, false, rfl⟩
    | some i =>
      exact (h.takeSegment (sizeClass_lt hsize) hv (findSegment_eq_some hi)).cutNext hsize
        (by simp [setFree])

theorem length_le_sum_recs {ginfo : ℕ → Ginfo} {gs : List ℕ} (hne : ∀ g ∈ gs, (ginfo g).recs ≠ []) :
    gs.length ≤ (gs.map fun g => (ginfo g).recs.length).sum := by
  induction gs with
  | nil => simp
  | cons g gs ih =>
    have h1 := List.length_pos_iff.mpr (hne g (List.mem_cons_self ..))
    have h2 := ih fun g' hg' => hne g' (List.mem_cons_of_mem _ hg')
    simp only [List.length_cons, List.map_cons, List.sum_cons]
    omega

/-- The search for room ends at a block of the list with room, or at the end of a list
whose blocks are all full. -/
theorem findRoom_spec {fuel : ℕ} {l : Link} {gs : List ℕ} (h : Linked s.ginfo (s.link l) gs)
    (hfuel : gs.length < fuel) :
    SameSpace s (findRoom fuel s l).1 ∧
      ∀ l' ∈ (findRoom fuel s l).2,
        (∃ g ∈ gs, s.link l' = some g ∧ (s.ginfo g).recs.length < nGarbages) ∨
        (l' = endLink l gs ∧ s.link l' = none ∧
          ∀ g ∈ gs, nGarbages ≤ (s.ginfo g).recs.length) := by
  induction fuel generalizing s l gs with
  | zero => omega
  | succ fuel ih =>
    unfold findRoom
    cases gs with
    | nil =>
      rw [show s.link l = none from h]
      refine ⟨.refl s, fun l' hl' => .inr ?_⟩
      obtain rfl := Option.mem_some_iff.mp hl'
      exact ⟨rfl, h, by simp⟩
    | cons g gs =>
      rw [h.1]
      obtain ⟨m, r, hm⟩ := sameSpace_winMap s
      cases hb : s.winMap with
      | mk t b =>
        rw [hb] at hm
        obtain rfl : t = _ := hm
        cases b with
        | false => exact ⟨⟨m, r, rfl⟩, by simp⟩
        | true =>
          by_cases hroom : (s.ginfo g).recs.length < nGarbages
          · simp only [hroom, if_true]
            refine ⟨⟨m, r, rfl⟩, fun l' hl' => .inl ?_⟩
            obtain rfl := Option.mem_some_iff.mp hl'
            exact ⟨g, List.mem_cons_self .., h.1, hroom⟩
          · simp only [hroom, if_false]
            obtain ⟨hs, hl⟩ := ih (s := { s with maps := m, rc := r }) (l := .next g) h.2
              (by simpa using hfuel)
            refine ⟨SameSpace.trans ⟨m, r, rfl⟩ hs, fun l' hl' => ?_⟩
            rcases hl l' hl' with ⟨g', hg', hlink, hlt⟩ | ⟨rfl, hlink, hfull⟩
            · exact .inl ⟨g', List.mem_cons_of_mem _ hg', hlink, hlt⟩
            · refine .inr ⟨rfl, hlink, fun g' hg' => ?_⟩
              rcases List.mem_cons.mp hg' with rfl | hg'
              · exact Nat.le_of_not_lt hroom
              · exact hfull g' hg'

theorem ChunkSpace.Owns.length_blocks_lt (h : Owns s blocks held) (k : ℕ) : (blocks k).length < s.ngarbages k + 1 := by
  rw [h.count]
  exact Nat.lt_succ_of_le (length_le_sum_recs (h.nonempty k))

/-- What a release needs of the allocation of a garbage block. -/
def AllocatesBlock (chunkNew : ChunkSpace → ℕ → ChunkSpace × Option ℕ) : Prop :=
  ∀ s blocks held, Owns s blocks held → FreshMapped s →
    ∃ blocks', Owns (chunkNew s sGarbage).1 blocks'
        (obtained (chunkNew s sGarbage).2 sGarbage ++ held) ∧
      FreshMapped (chunkNew s sGarbage).1 ∧
      ∀ j, (j ≠ garbageClass ∨ ∀ g ∈ blocks j, nGarbages ≤ (s.ginfo g).recs.length) →
        blocks' j = blocks j

/-- A release gives the chunk back, or loses it. -/
theorem chunkFreeWith_owns {chunkNew : ChunkSpace → ℕ → ChunkSpace × Option ℕ}
    (hnew : AllocatesBlock chunkNew) {offset size : ℕ}
    (h : Owns s blocks (⟨offset, size⟩ :: held)) (hf : FreshMapped s) :
    ∃ blocks', Owns (chunkFreeWith chunkNew s offset size) blocks' held ∧
      FreshMapped (chunkFreeWith chunkNew s offset size) ∧
      ∀ j, j ≠ sizeClass size → j ≠ garbageClass → blocks' j = blocks j := by
  unfold chunkFreeWith
  by_cases hsize : size > sChunk
  · simp only [hsize, if_true]
    exact ⟨blocks, h.giveSegments hsize, hf, fun _ _ _ => rfl⟩
  simp only [hsize, if_false]
  obtain ⟨⟨m, r, hs⟩, hl⟩ := findRoom_spec (l := .header (sizeClass size))
    (h.linked (sizeClass size)) (h.length_blocks_lt (sizeClass size))
  generalize findRoom (s.ngarbages (sizeClass size) + 1) s (.header (sizeClass size)) = room
    at hs hl ⊢
  obtain ⟨t, l⟩ := room
  obtain rfl : t = _ := hs
  have h' : Owns { s with maps := m, rc := r } blocks (⟨offset, size⟩ :: held) :=
    h.sameSpace ⟨m, r, rfl⟩
  cases l with
  | none => exact ⟨blocks, h'.drop, hf, fun _ _ _ => rfl⟩
  | some l =>
    rcases hl l rfl with ⟨g, hg, hlink, -⟩ | ⟨hend, hlink, hfull⟩
    · simp only [show link { s with maps := m, rc := r } l = some g from hlink]
      exact ⟨blocks, h'.push hsize hg, hf, fun _ _ _ => rfl⟩
    · simp only [show link { s with maps := m, rc := r } l = none from hlink]
      obtain ⟨blocks', h2, hf2, hsame⟩ := hnew { s with maps := m, rc := r } blocks _ h' hf
      generalize chunkNew { s with maps := m, rc := r } sGarbage = x at h2 hf2 ⊢
      obtain ⟨t, g⟩ := x
      cases g with
      | none => exact ⟨blocks', h2.drop, hf2, fun j _ hj => hsame j (.inl hj)⟩
      | some g =>
        -- the list of this class is still the one whose end was found
        have hk : blocks' (sizeClass size) = blocks (sizeClass size) := hsame _ (.inr hfull)
        have h3 := Owns.appendBlock h2 hsize
        rw [hk, ← hend] at h3
        have hframe : ∀ j, j ≠ sizeClass size → j ≠ garbageClass →
            Function.update blocks' (sizeClass size) (blocks (sizeClass size) ++ [g]) j =
              blocks j := by
          intro j hj hj'
          rw [Function.update_of_ne hj]
          exact hsame j (.inl hj')
        have hfresh : (setLink t l (some g)).freshMaps = t.freshMaps := by cases l <;> rfl
        simp only
        refine ⟨_, ?_, ?_, hframe⟩
        · rw [hfresh]
          split
          · rename_i stale rest heq
            exact absurd (hf2 _ (heq ▸ List.mem_cons_self ..)) (by simp)
          · exact ⟨h3.linked, h3.count, h3.nonempty, h3.above, h3.cut, h3.aligned, h3.once⟩
          · exact h3
        · rw [hfresh]
          split
          · rename_i stale rest heq
            exact absurd (hf2 _ (heq ▸ List.mem_cons_self ..)) (by simp)
          · rename_i rest heq
            exact fun m hm => hf2 m (heq ▸ List.mem_cons_of_mem _ hm)
          · exact fun m hm => hf2 m (hfresh ▸ hm)

/-- An allocation adds its chunk to those held. -/
theorem chunkNewWith_owns {chunkFree : ChunkSpace → ℕ → ℕ → ChunkSpace}
    (hfree : ∀ s blocks held g, Owns s blocks (⟨g, sGarbage⟩ :: held) → FreshMapped s →
      ∃ blocks', Owns (chunkFree s g sGarbage) blocks' held ∧
        FreshMapped (chunkFree s g sGarbage) ∧ ∀ j, j ≠ garbageClass → blocks' j = blocks j)
    (h : Owns s blocks held) (hf : FreshMapped s) (size : ℕ) :
    ∃ blocks', Owns (chunkNewWith chunkFree s size).1 blocks'
        (obtained (chunkNewWith chunkFree s size).2 size ++ held) ∧
      FreshMapped (chunkNewWith chunkFree s size).1 ∧
      (∀ j, j ≠ sizeClass size → j ≠ garbageClass → blocks' j = blocks j) ∧
      ((∀ g ∈ blocks (sizeClass size), nGarbages ≤ (s.ginfo g).recs.length) →
        blocks' (sizeClass size) = blocks (sizeClass size)) := by
  unfold chunkNewWith
  by_cases hsize : size > sChunk
  · simp only [hsize, if_true]
    cases hj : findSegments s.chunks (nSegments size) s.maxSegment 0 0 with
    | none => exact ⟨blocks, h.sameSpace ⟨s.maps, false, rfl⟩, hf, fun _ _ _ => rfl, fun _ => rfl⟩
    | some j =>
      refine ⟨blocks, h.takeSegments hsize fun i hi hi' => ?_, hf, fun _ _ _ => rfl, fun _ => rfl⟩
      exact findSegments_eq_some hj le_rfl (fun x _ hx => absurd hx (by omega)) i hi hi'
  simp only [hsize, if_false]
  have hcut : ∀ {t : ChunkSpace}, Owns t blocks held → FreshMapped t →
      ∃ blocks', Owns (cutSubchunk t (sizeClass size)).1 blocks'
          (obtained (cutSubchunk t (sizeClass size)).2 size ++ held) ∧
        FreshMapped (cutSubchunk t (sizeClass size)).1 ∧
        (∀ j, j ≠ sizeClass size → j ≠ garbageClass → blocks' j = blocks j) ∧
        ((∀ g ∈ blocks (sizeClass size), nGarbages ≤ (s.ginfo g).recs.length) →
          blocks' (sizeClass size) = blocks (sizeClass size)) := by
    intro t ht hft
    refine ⟨blocks, cutSubchunk_owns ht hsize, ?_, fun _ _ _ => rfl, fun _ => rfl⟩
    unfold cutSubchunk
    split
    · exact hft
    · split <;> exact hft
  by_cases hn : s.ngarbages (sizeClass size) > 1
  · simp only [hn, if_true]
    cases hg : s.garbages (sizeClass size) with
    | none => exact hcut h hf
    | some g =>
      obtain ⟨m, r, hm⟩ := sameSpace_winMap s
      cases hb : s.winMap with
      | mk t b =>
        rw [hb] at hm
        obtain rfl : t = _ := hm
        have h' : Owns { s with maps := m, rc := r } blocks held := h.sameSpace ⟨m, r, rfl⟩
        cases b with
        | false => exact ⟨blocks, h', hf, fun _ _ _ => rfl, fun _ => rfl⟩
        | true =>
          simp only
          split
          · rename_i hcond
            -- the first block of the list has a record, and it is taken
            obtain ⟨gs, hgs⟩ : ∃ gs, blocks (sizeClass size) = g :: gs := by
              have hl := h.linked (sizeClass size)
              rw [hg] at hl
              cases hbl : blocks (sizeClass size) with
              | nil => rw [hbl] at hl; cases hl
              | cons g' gs =>
                rw [hbl] at hl
                exact ⟨gs, by rw [Option.some.inj hl.1]⟩
            have hmem : g ∈ blocks (sizeClass size) := hgs ▸ List.mem_cons_self ..
            obtain ⟨rec, rest, hrec⟩ := List.exists_cons_of_ne_nil (h.nonempty _ g hmem)
            by_cases hrest : rest = []
            · subst hrest
              have hlen : ((({ s with maps := m, rc := r } : ChunkSpace).pop (sizeClass size) g).ginfo
                  g).recs.length = 0 := by simp [ChunkSpace.pop, setGinfo, hrec]
              simp only [hlen, if_true, hrec, List.headD_cons]
              have h2 := h'.removeBlock hsize hgs hrec
              obtain ⟨blocks', h3, hf3, hsame⟩ := hfree _ _ _ _ h2 hf
              refine ⟨blocks', h3, hf3, fun j hj hj' => ?_, fun hfull => ?_⟩
              · rw [hsame j hj', Function.update_of_ne hj]
              · have := hfull g hmem
                rw [hrec, List.length_singleton] at this
                exact absurd this (by decide)
            · have hlen : ((({ s with maps := m, rc := r } : ChunkSpace).pop (sizeClass size) g).ginfo
                  g).recs.length ≠ 0 := by
                simpa [ChunkSpace.pop, setGinfo, hrec] using hrest
              simp only [hlen, if_false, hrec, List.headD_cons]
              exact ⟨blocks, h'.pop hsize hmem hrec hrest, hf, fun _ _ _ => rfl, fun _ => rfl⟩
          · exact hcut h' hf
  · simp only [hn, if_false]
    exact hcut h hf

/-- An allocation within which blocks can be allocated. -/
theorem chunkNewN_succ_owns {n : ℕ} (hn : AllocatesBlock (chunkNewN n)) (h : Owns s blocks held)
    (hf : FreshMapped s) (size : ℕ) :
    ∃ blocks', Owns (chunkNewN (n + 1) s size).1 blocks'
        (obtained (chunkNewN (n + 1) s size).2 size ++ held) ∧
      FreshMapped (chunkNewN (n + 1) s size).1 ∧
      (∀ j, j ≠ sizeClass size → j ≠ garbageClass → blocks' j = blocks j) ∧
      ((∀ g ∈ blocks (sizeClass size), nGarbages ≤ (s.ginfo g).recs.length) →
        blocks' (sizeClass size) = blocks (sizeClass size)) := by
  refine chunkNewWith_owns (fun s blocks held g h hf => ?_) h hf size
  obtain ⟨blocks', h', hf', hsame⟩ := chunkFreeWith_owns hn h hf
  exact ⟨blocks', h', hf', fun j hj => hsame j hj hj⟩

theorem allocatesBlock_chunkNewN (n : ℕ) : AllocatesBlock (chunkNewN n) := by
  induction n with
  | zero =>
    exact fun s blocks held h hf => ⟨blocks, h.sameSpace ⟨s.maps, false, rfl⟩, hf, fun _ _ => rfl⟩
  | succ n ih =>
    intro s blocks held h hf
    obtain ⟨blocks', h', hf', hsame, hfull⟩ := chunkNewN_succ_owns ih h hf sGarbage
    refine ⟨blocks', h', hf', fun j hj => ?_⟩
    by_cases hjg : j = garbageClass
    · subst hjg
      exact hfull (hj.resolve_left (absurd rfl))
    · exact hsame j hjg hjg

/-- **Allocation.** The chunk returned, if any, is held afterwards. -/
theorem chunkNew_owns (h : Owns s blocks held) (hf : FreshMapped s) (size : ℕ) :
    ∃ blocks', Owns (chunkNew s size).1 blocks' (obtained (chunkNew s size).2 size ++ held) ∧
      FreshMapped (chunkNew s size).1 := by
  obtain ⟨blocks', h', hf', -⟩ := chunkNewN_succ_owns (allocatesBlock_chunkNewN _) h hf size
  exact ⟨blocks', h', hf'⟩

/-- **Release.** A chunk that was held is not held afterwards. -/
theorem chunkFree_owns {c : ChunkInfo} (h : Owns s blocks (c :: held)) (hf : FreshMapped s) :
    ∃ blocks', Owns (chunkFree s c.segno c.size) blocks' held ∧
      FreshMapped (chunkFree s c.segno c.size) := by
  have hnew : AllocatesBlock chunkNew := fun s => allocatesBlock_chunkNewN _ s
  obtain ⟨blocks', h', hf', -⟩ := chunkFreeWith_owns hnew h hf
  exact ⟨blocks', h', hf'⟩

end Groonga.Ii
