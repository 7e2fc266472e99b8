import Groonga.Ii.Ledger

/-!
# Chunks of the write buffers

A write buffer refers to chunks: its header to the chunk that holds the postings of its
terms, and a term with many postings to the split chunks listed in its table. Flushing a
buffer merges the records of the buffer into these chunks, term by term, and obtains
chunks for what the merge gives; when the new buffer is in place the old chunks are given
back, and when the flush fails the new ones are.

Merging sees the postings. What it makes of them is an input of the step here: which
chunks are merged, how many bytes their postings are encoded to, which terms vanish, and
where something fails. So a statement about every plan is one about every content.
-/

namespace Groonga.Ii

open Groonga.Lib

/-! ## Buffers -/

/-- A term of a buffer with the table of its split chunks. The term `0` is void. -/
structure BufferTerm where
  tid : ℕ
  cinfo : List ChunkInfo

/-- What a buffer refers to in the chunk space. -/
structure Buffer where
  chunk : Option ℕ
  chunkSize : ℕ
  terms : List BufferTerm

structure Index where
  space : ChunkSpace
  nLogicalSegments : ℕ
  /-- The buffer of each logical segment. -/
  buffers : ℕ → Option Buffer

def Index.create (maxSegment nLogicalSegments : ℕ) : Index where
  space := .create maxSegment
  nLogicalSegments := nLogicalSegments
  buffers := fun _ => none

/-! ## Merging -/

/-- `CHUNK_SPLIT_THRESHOLD`. -/
def chunkSplitThreshold : ℕ := 0x60000

/-- What becomes of a split chunk. -/
inductive ChunkPlan where
  /-- The records of the buffer all lie behind it. -/
  | keep
  /-- Its postings are merged and encoded to this many bytes, `0` if none is left. -/
  | merge (encsize : ℕ)
  /-- It cannot be mapped, decoded, merged or encoded. -/
  | fail

/-- What becomes of the postings after the last split chunk. -/
inductive RestPlan where
  | fail
  /-- The term has no array entry any more. -/
  | lost
  /-- `ndf` documents are left and encoded to `encsize` bytes; `embeds` if the posting of
  a single one can be stored in the array entry. -/
  | done (ndf encsize : ℕ) (embeds : Bool)

inductive TermPlan where
  /-- The buffer has no record of the term: its part of the chunk is copied. -/
  | copy
  | fail
  | merge (chunks : List ChunkPlan) (rest : RestPlan)

/-- The chunk space with the chunks to give back: `source` when the merge succeeds, `dest`
when it fails. -/
structure MergingData where
  space : ChunkSpace
  source : List ChunkInfo
  dest : List ChunkInfo

/-- `chunk_flush` of `encsize > 0` bytes. -/
def chunkFlush (s : ChunkSpace) (encsize : ℕ) : ChunkSpace × Option ChunkInfo :=
  match chunkNew s encsize with
  | (s, none) => (s, none)
  | (s, some dcn) =>
    if s.rc then
      match s.winMap with
      | (s, true) => (s, some ⟨dcn, encsize⟩)
      | (s, false) => (chunkFree s dcn encsize, none)
    else (s, none)

/-- `chunk_merge`: what stands for the chunk in the table afterwards; `none` on an error. -/
def chunkMerge (m : MergingData) (c : ChunkInfo) : ChunkPlan → MergingData × Option (List ChunkInfo)
  | .keep => (m, some [c])
  | .fail => (m, none)
  | .merge encsize =>
    if encsize = 0 then ({ m with source := m.source ++ [c] }, some [])
    else
      match chunkFlush m.space encsize with
      | (s, none) => ({ m with space := s }, none)
      | (s, some c') => (⟨s, m.source ++ [c], m.dest ++ [c']⟩, some [c'])

/-- The loop over the split chunks of a term. -/
def mergeChunks (m : MergingData) :
    List ChunkInfo → List ChunkPlan → MergingData × Option (List ChunkInfo)
  | [], _ => (m, some [])
  | c :: cs, plans =>
    match chunkMerge m c (plans.headD .keep) with
    | (m, none) => (m, none)
    | (m, some t) =>
      match mergeChunks m cs plans.tail with
      | (m, none) => (m, none)
      | (m, some ts) => (m, some (t ++ ts))

/-- The end of the loop body of `buffer_merge` for a term whose table is `cinfo` now. The
chunk of a rest that is split off is not noted in `dest`. -/
def mergeRest (m : MergingData) (tid : ℕ) (cinfo : List ChunkInfo) :
    RestPlan → MergingData × Option BufferTerm
  | .fail => (m, none)
  | .lost => (m, some ⟨0, []⟩)
  | .done ndf encsize embeds =>
    if cinfo = [] ∧ (ndf = 0 ∨ embeds) then (m, some ⟨0, []⟩)
    else if encsize > chunkSplitThreshold then
      match chunkFlush m.space encsize with
      | (s, none) => ({ m with space := s }, none)
      | (s, some c) => ({ m with space := s }, some ⟨tid, cinfo ++ [c]⟩)
    else (m, some ⟨tid, cinfo⟩)

/-- One round of the loop of `buffer_merge`. -/
def mergeTerm (m : MergingData) (bt : BufferTerm) (plan : TermPlan) :
    MergingData × Option BufferTerm :=
  if bt.tid = 0 then (m, some bt)
  else
    match plan with
    | .copy => (m, some bt)
    | .fail => (m, none)
    | .merge chunks rest =>
      match mergeChunks m bt.cinfo chunks with
      | (m, none) => (m, none)
      | (m, some cinfo) => mergeRest m bt.tid cinfo rest

/-- `buffer_merge`: the terms of the new buffer; `none` on an error. -/
def bufferMerge (m : MergingData) :
    List BufferTerm → List TermPlan → MergingData × Option (List BufferTerm)
  | [], _ => (m, some [])
  | bt :: bts, plans =>
    match mergeTerm m bt (plans.headD .copy) with
    | (m, none) => (m, none)
    | (m, some bt') =>
      match bufferMerge m bts plans.tail with
      | (m, none) => (m, none)
      | (m, some bts') => (m, some (bt' :: bts'))

/-! ## Flushing and splitting -/

/-- The loop of `grn_merging_data_fin`. -/
def freeAll (s : ChunkSpace) (cs : List ChunkInfo) : ChunkSpace :=
  cs.foldl (fun s c => chunkFree s c.segno c.size) s

/-- The chunk of a header, if it has one. -/
def freeHeader (s : ChunkSpace) (chunk : Option ℕ) (size : ℕ) : ChunkSpace :=
  match chunk with
  | none => s
  | some segno => chunkFree s segno size

/-- A chunk for the postings of a new buffer, if it has any. -/
def headerNew (s : ChunkSpace) (size : ℕ) : ChunkSpace × Option ℕ :=
  if size > 0 then chunkNew s size else (s, none)

structure FlushPlan where
  /-- The segments and the source chunk are obtained and mapped. -/
  opened : Bool
  terms : List TermPlan
  chunkSize : ℕ
  /-- The new chunk can be written. -/
  written : Bool
  maps : List Bool
  freshMaps : List (Option Ginfo)

/-- The space at the start of a call. -/
def ChunkSpace.enter (s : ChunkSpace) (maps : List Bool) (freshMaps : List (Option Ginfo)) :
    ChunkSpace :=
  { s with maps := maps, freshMaps := freshMaps, rc := true }

/-- `buffer_flush`. The flag that the new chunk has to be given back is set before there is
one, with the offset `0`. -/
def bufferFlush (ii : Index) (lseg : ℕ) (p : FlushPlan) : Index :=
  match ii.buffers lseg with
  | none => ii
  | some sb =>
    if p.opened then
      match bufferMerge ⟨ii.space.enter p.maps p.freshMaps, [], []⟩ sb.terms p.terms with
      | (m, none) => { ii with space := freeAll m.space m.dest }
      | (m, some terms) =>
        match headerNew m.space p.chunkSize with
        | (s, dcn) =>
          -- writing nothing cannot fail
          if s.rc ∧ (p.written ∨ p.chunkSize = 0) then
            { ii with
              space := freeAll (freeHeader s sb.chunk sb.chunkSize) m.source
              buffers := Function.update ii.buffers lseg (some ⟨dcn, p.chunkSize, terms⟩) }
          else
            { ii with space := freeAll (chunkFree s (dcn.getD 0) p.chunkSize) m.dest }
    else ii

structure SplitPlan where
  opened : Bool
  /-- The terms that go to the first of the two buffers. -/
  first : ℕ → Bool
  terms0 : List TermPlan
  terms1 : List TermPlan
  chunkSize0 : ℕ
  chunkSize1 : ℕ
  written0 : Bool
  written1 : Bool
  maps : List Bool
  freshMaps : List (Option Ginfo)

/-- `term_split`: the terms of the two buffers. -/
def termSplit (first : ℕ → Bool) (terms : List BufferTerm) : List BufferTerm × List BufferTerm :=
  let live := terms.filter fun bt => bt.tid ≠ 0
  (live.filter fun bt => first bt.tid, live.filter fun bt => !first bt.tid)

/-- `buffer_segment_reserve`: the first two logical segments without a buffer. -/
def bufferSegmentReserve (ii : Index) : Option (ℕ × ℕ) :=
  match (List.range ii.nLogicalSegments).filter fun l => (ii.buffers l).isNone with
  | l0 :: l1 :: _ => some (l0, l1)
  | _ => none

/-- `buffer_split`. -/
def bufferSplit (ii : Index) (lseg : ℕ) (p : SplitPlan) : Index :=
  match ii.buffers lseg, bufferSegmentReserve ii with
  | some sb, some (dls0, dls1) =>
    if p.opened then
      let (terms0, terms1) := termSplit p.first sb.terms
      match bufferMerge ⟨ii.space.enter p.maps p.freshMaps, [], []⟩ terms0 p.terms0 with
      | (m, none) => { ii with space := freeAll m.space m.dest }
      | (m, some db0) =>
        match headerNew m.space p.chunkSize0 with
        | (s, dcn0) =>
          if s.rc then
            if p.written0 ∨ p.chunkSize0 = 0 then
              match bufferMerge { m with space := s } terms1 p.terms1 with
              | (m, none) =>
                { ii with space := freeAll (freeHeader m.space dcn0 p.chunkSize0) m.dest }
              | (m, some db1) =>
                match headerNew m.space p.chunkSize1 with
                | (s, dcn1) =>
                  if s.rc then
                    if p.written1 ∨ p.chunkSize1 = 0 then
                      { ii with
                        space := freeAll (freeHeader s sb.chunk sb.chunkSize) m.source
                        buffers := Function.update (Function.update (Function.update ii.buffers
                          dls0 (some ⟨dcn0, p.chunkSize0, db0⟩))
                          dls1 (some ⟨dcn1, p.chunkSize1, db1⟩)) lseg none }
                    else
                      { ii with space := freeAll (freeHeader (freeHeader s dcn1 p.chunkSize1)
                          dcn0 p.chunkSize0) m.dest }
                  else { ii with space := freeAll (freeHeader s dcn0 p.chunkSize0) m.dest }
            else { ii with space := freeAll (freeHeader s dcn0 p.chunkSize0) m.dest }
          else { ii with space := freeAll s m.dest }
    else ii
  | _, _ => ii

/-! ## Steps and runs -/

/-- `buffer_segment_new`: an empty buffer at the first logical segment without one. -/
def bufferSegmentNew (ii : Index) : Index :=
  match (List.range ii.nLogicalSegments).find? fun l => (ii.buffers l).isNone with
  | none => ii
  | some lseg => { ii with buffers := Function.update ii.buffers lseg (some ⟨none, 0, []⟩) }

/-- The entry for a new term: the first void one, or one more. -/
def addTerm (tid : ℕ) : List BufferTerm → List BufferTerm
  | [] => [⟨tid, []⟩]
  | bt :: bts => if bt.tid = 0 then ⟨tid, []⟩ :: bts else bt :: addTerm tid bts

/-- The calls that updates make: those that create a buffer or a term in it, flush or split
one. Putting a record into a buffer does not concern the chunks. -/
inductive Step where
  | bufferNew
  | termNew (lseg tid : ℕ)
  | flush (lseg : ℕ) (plan : FlushPlan)
  | split (lseg : ℕ) (plan : SplitPlan)

def Index.step (ii : Index) : Step → Index
  | .bufferNew => bufferSegmentNew ii
  | .termNew lseg tid =>
    match ii.buffers lseg with
    | none => ii
    | some b =>
      { ii with buffers :=
          Function.update ii.buffers lseg (some { b with terms := addTerm tid b.terms }) }
  | .flush lseg plan => bufferFlush ii lseg plan
  | .split lseg plan => bufferSplit ii lseg plan

def Index.run (ii : Index) (steps : List Step) : Index := steps.foldl Index.step ii

/-! ## What is live and what is free -/

/-- The chunks that a buffer refers to. -/
def Buffer.chunks (b : Buffer) : List ChunkInfo :=
  obtained b.chunk b.chunkSize ++ b.terms.flatMap BufferTerm.cinfo

/-- The chunks of the buffer of a logical segment, if it has one. -/
def chunksOf : Option Buffer → List ChunkInfo
  | none => []
  | some b => b.chunks

def Index.liveChunks (ii : Index) : List ChunkInfo :=
  (List.range ii.nLogicalSegments).flatMap fun l => chunksOf (ii.buffers l)

/-- The garbage blocks from a pointer on. -/
def walkBlocks (ginfo : ℕ → Ginfo) : ℕ → Option ℕ → List ℕ
  | 0, _ => []
  | _ + 1, none => []
  | n + 1, some g => g :: walkBlocks ginfo n (ginfo g).next

/-- The areas that the space records as free for class `k`: the rest of the segment that is
cut and the subchunks in the garbage blocks, with the blocks themselves. -/
def ChunkSpace.freeAreasOf (s : ChunkSpace) (k : ℕ) : List Area :=
  ChunkSpace.restAreas s.freeChunks k ++
    (walkBlocks s.ginfo (s.ngarbages k) (s.garbages k)).flatMap
      (ChunkSpace.blockAreas s.ginfo k)

def ChunkSpace.freeAreas (s : ChunkSpace) : List Area :=
  (List.range nClasses).flatMap s.freeAreasOf

/-- **Chunk ownership.** -/
structure Index.Apart (ii : Index) : Prop where
  /-- No two chunks in use overlap. -/
  live : (ii.liveChunks.map ChunkInfo.area).Pairwise Area.Apart
  /-- No chunk in use overlaps a free area or lies in a free segment. -/
  live_free : ∀ c ∈ ii.liveChunks, ∀ a ∈ ii.space.freeAreas, c.area.Apart a
  live_used : ∀ c ∈ ii.liveChunks, ∀ u, c.area.Has u →
    ii.space.chunks (u / 2 ^ nChunkVariation) = true
  /-- Nothing is free twice. -/
  free : ii.space.freeAreas.Pairwise Area.Apart
  /-- What an allocation hands out is not in use. -/
  new : ∀ maps size, ∀ segno ∈ (chunkNew (ii.space.enter maps []) size).2, ∀ c ∈ ii.liveChunks,
    (ChunkInfo.mk segno size).area.Apart c.area

open ChunkSpace

theorem walkBlocks_eq {ginfo : ℕ → Ginfo} {l : Option ℕ} {gs : List ℕ} {n : ℕ}
    (h : Linked ginfo l gs) (hn : gs.length ≤ n) : walkBlocks ginfo n l = gs := by
  induction gs generalizing l n with
  | nil =>
    obtain rfl : l = none := h
    cases n <;> rfl
  | cons g gs ih =>
    cases n with
    | zero => simp at hn
    | succ n =>
      rw [h.1, walkBlocks, ih h.2 (by simpa using hn)]

/-- The space and its buffers agree on who owns what. -/
def Index.Inv (ii : Index) : Prop :=
  (∀ l, ii.nLogicalSegments ≤ l → ii.buffers l = none) ∧
    ∃ blocks, Owns ii.space blocks ii.liveChunks

section

variable {s : ChunkSpace} {blocks : ℕ → List ℕ} {held : List ChunkInfo}

theorem ChunkSpace.Owns.cover_freeAreas (h : Owns s blocks held) (u : ℕ) :
    cover s.freeAreas u = ∑ k ∈ Finset.range nClasses, s.classCover blocks u k := by
  rw [freeAreas, cover_flatMap_range]
  refine Finset.sum_congr rfl fun k _ => ?_
  have hlen := h.length_blocks_lt k
  rw [freeAreasOf, cover_append, cover_flatMap, classCover,
    walkBlocks_eq (h.linked k) (by omega)]

theorem ChunkSpace.Owns.enter (h : Owns s blocks held) (maps : List Bool)
    (freshMaps : List (Option Ginfo)) : Owns (s.enter maps freshMaps) blocks held :=
  ⟨h.linked, h.count, h.nonempty, h.above, h.cut, h.aligned, h.once⟩

/-- Counting covers gives the disjointness of the areas. -/
theorem Index.Inv.apart {ii : Index} (h : ii.Inv) : ii.Apart := by
  obtain ⟨-, blocks, hown⟩ := h
  have hone : ∀ u, cover (ii.liveChunks.map ChunkInfo.area) u + cover ii.space.freeAreas u ≤ 1 := by
    intro u
    rw [hown.cover_freeAreas]
    exact hown.cover_le_one u
  refine ⟨?_, ?_, ?_, ?_, ?_⟩
  · exact pairwise_apart_of_cover fun u => le_trans (Nat.le_add_right _ _) (hone u)
  · intro c hc a ha
    exact apart_of_cover hone (List.mem_map_of_mem hc) ha
  · intro c hc u hu
    by_contra hfree
    have h0 := hown.cover_eq_zero (by simpa using hfree)
    have h1 := cover_pos (List.mem_map_of_mem hc) hu
    omega
  · exact pairwise_apart_of_cover fun u => le_trans (Nat.le_add_left _ _) (hone u)
  · intro maps size segno hsegno c hc
    obtain ⟨blocks', hown', -⟩ := chunkNew_owns (hown.enter maps []) (by simp [FreshMapped, ChunkSpace.enter]) size
    rw [hsegno, obtained_some] at hown'
    have hpair := pairwise_apart_of_cover fun u =>
      le_trans (Nat.le_add_right _ _) (hown'.cover_le_one u)
    exact List.rel_of_pairwise_cons hpair (List.mem_map_of_mem hc)

/-! ## Merging keeps ownership -/

/-- Every chunk occurs in `l` at most as often as in `l'`. -/
def Within (l l' : List ChunkInfo) : Prop := ∀ c, l.count c ≤ l'.count c

theorem ChunkSpace.Owns.within (h : Owns s blocks held) {held' : List ChunkInfo}
    (hw : Within held' held) : Owns s blocks held' :=
  h.subperm (List.subperm_ext_iff.mpr fun c _ => hw c)

theorem chunkFlush_owns (h : Owns s blocks held) (hf : FreshMapped s) (encsize : ℕ) :
    ∃ blocks', Owns (chunkFlush s encsize).1 blocks' ((chunkFlush s encsize).2.toList ++ held) ∧
      FreshMapped (chunkFlush s encsize).1 := by
  obtain ⟨blocks', h', hf'⟩ := chunkNew_owns h hf encsize
  unfold chunkFlush
  generalize chunkNew s encsize = x at h' hf' ⊢
  obtain ⟨t, dcn⟩ := x
  cases dcn with
  | none => exact ⟨blocks', h', hf'⟩
  | some dcn =>
    simp only
    split
    · obtain ⟨m, r, hm⟩ := sameSpace_winMap t
      cases hb : t.winMap with
      | mk t' b =>
        rw [hb] at hm
        obtain rfl : t' = _ := hm
        have h2 : Owns { t with maps := m, rc := r } blocks' (⟨dcn, encsize⟩ :: held) :=
          h'.sameSpace ⟨m, r, rfl⟩
        cases b with
        | true => exact ⟨blocks', h2, hf'⟩
        | false => exact chunkFree_owns h2 hf'
    · exact ⟨blocks', h'.drop, hf'⟩

/-- What a part of the merge does: `new` are the chunks it obtained and has not given back,
`old` the chunks of the tables it worked on, `out` those of the tables it made. -/
structure Merges (m m' : MergingData) (held old : List ChunkInfo) (out : Option (List ChunkInfo)) :
    Prop where
  owns : ∃ blocks' new, Owns m'.space blocks' (new ++ held) ∧ Within m'.dest (m.dest ++ new) ∧
    ∀ cs ∈ out, Within (cs ++ m'.source) (old ++ m.source ++ new)
  fresh : FreshMapped m'.space

theorem chunkMerge_merges {m : MergingData} (h : Owns m.space blocks held)
    (hf : FreshMapped m.space) (c : ChunkInfo) (plan : ChunkPlan) :
    Merges m (chunkMerge m c plan).1 held [c] (chunkMerge m c plan).2 := by
  cases plan with
  | keep =>
    refine ⟨⟨blocks, [], h, fun c' => by simp [chunkMerge], fun cs hcs c' => ?_⟩, hf⟩
    obtain rfl := Option.mem_some_iff.mp hcs
    simp [chunkMerge]
  | fail => exact ⟨⟨blocks, [], h, fun c' => by simp [chunkMerge], by simp [chunkMerge]⟩, hf⟩
  | merge encsize =>
    simp only [chunkMerge]
    split
    · refine ⟨⟨blocks, [], h, fun c' => by simp, fun cs hcs c' => ?_⟩, hf⟩
      obtain rfl := Option.mem_some_iff.mp hcs
      simp only [List.append_nil, List.count_append, List.count_nil]
      omega
    · obtain ⟨blocks', h', hf'⟩ := chunkFlush_owns h hf encsize
      generalize chunkFlush m.space encsize = x at h' hf' ⊢
      obtain ⟨t, r⟩ := x
      cases r with
      | none => exact ⟨⟨blocks', [], h', fun c' => by simp, by simp⟩, hf'⟩
      | some c' =>
        refine ⟨⟨blocks', [c'], h', fun c'' => by simp, fun cs hcs c'' => ?_⟩, hf'⟩
        obtain rfl := Option.mem_some_iff.mp hcs
        simp only [List.count_append]
        omega

/-- Two parts of the merge, one after the other. -/
theorem Merges.trans {m m' m'' : MergingData} {old old' t : List ChunkInfo}
    {out : Option (List ChunkInfo)} (h : Merges m m' held old (some t))
    (h' : ∀ {blocks held}, Owns m'.space blocks held → FreshMapped m'.space →
      Merges m' m'' held old' out) :
    Merges m m'' held (old ++ old') (out.map (t ++ ·)) := by
  obtain ⟨⟨blocks', new, h1, hd, ho⟩, hf⟩ := h
  obtain ⟨⟨blocks'', new', h2, hd', ho'⟩, hf'⟩ := h' h1 hf
  refine ⟨⟨blocks'', new' ++ new, by simpa using h2, fun c => ?_, fun cs hcs c => ?_⟩, hf'⟩
  · have h3 := hd c
    have h4 := hd' c
    simp only [List.count_append] at h3 h4 ⊢
    omega
  · obtain ⟨cs', hcs', rfl⟩ := Option.map_eq_some_iff.mp hcs
    have h3 := ho t rfl c
    have h4 := ho' cs' hcs' c
    simp only [List.count_append] at h3 h4 ⊢
    omega

/-- A part of the merge that fails ends it. -/
theorem Merges.fail {m m' : MergingData} {old old' : List ChunkInfo}
    (h : Merges m m' held old none) : Merges m m' held old' none := by
  obtain ⟨⟨blocks', new, h1, hd, -⟩, hf⟩ := h
  exact ⟨⟨blocks', new, h1, hd, by simp⟩, hf⟩

theorem mergeChunks_merges {m : MergingData} (h : Owns m.space blocks held)
    (hf : FreshMapped m.space) (cs : List ChunkInfo) (plans : List ChunkPlan) :
    Merges m (mergeChunks m cs plans).1 held cs (mergeChunks m cs plans).2 := by
  induction cs generalizing m blocks held plans with
  | nil =>
    refine ⟨⟨blocks, [], h, fun c => by simp [mergeChunks], fun cs hcs c => ?_⟩, hf⟩
    obtain rfl := Option.mem_some_iff.mp hcs
    simp [mergeChunks]
  | cons c cs ih =>
    have h1 := chunkMerge_merges h hf c (plans.headD .keep)
    unfold mergeChunks
    generalize chunkMerge m c (plans.headD .keep) = x at h1 ⊢
    obtain ⟨m', t⟩ := x
    cases t with
    | none => exact h1.fail
    | some t =>
      have h2 := h1.trans fun {blocks held} h hf => @ih blocks held m' h hf plans.tail
      simp only at h2 ⊢
      generalize mergeChunks m' cs plans.tail = y at h2 ⊢
      obtain ⟨m'', ts⟩ := y
      cases ts with
      | none => exact h2
      | some ts => exact h2

theorem mergeRest_merges {m : MergingData} (h : Owns m.space blocks held)
    (hf : FreshMapped m.space) (tid : ℕ) (cinfo : List ChunkInfo) (plan : RestPlan) :
    Merges m (mergeRest m tid cinfo plan).1 held cinfo
      ((mergeRest m tid cinfo plan).2.map BufferTerm.cinfo) := by
  have hvoid : Merges m m held cinfo (some []) := by
    refine ⟨⟨blocks, [], h, fun c => by simp, fun cs hcs c => ?_⟩, hf⟩
    obtain rfl := Option.mem_some_iff.mp hcs
    simp
  cases plan with
  | fail => exact ⟨⟨blocks, [], h, fun c => by simp [mergeRest], by simp [mergeRest]⟩, hf⟩
  | lost => exact hvoid
  | done ndf encsize embeds =>
    simp only [mergeRest]
    split
    · exact hvoid
    · split
      · obtain ⟨blocks', h', hf'⟩ := chunkFlush_owns h hf encsize
        generalize chunkFlush m.space encsize = x at h' hf' ⊢
        obtain ⟨t, r⟩ := x
        cases r with
        | none => exact ⟨⟨blocks', [], h', fun c => by simp, by simp⟩, hf'⟩
        | some c' =>
          refine ⟨⟨blocks', [c'], h', fun c => by simp, fun cs hcs c => ?_⟩, hf'⟩
          obtain rfl := Option.mem_some_iff.mp hcs
          simp only [List.count_append]
          omega
      · refine ⟨⟨blocks, [], h, fun c => by simp, fun cs hcs c => ?_⟩, hf⟩
        obtain rfl := Option.mem_some_iff.mp hcs
        simp

theorem mergeTerm_merges {m : MergingData} (h : Owns m.space blocks held)
    (hf : FreshMapped m.space) (bt : BufferTerm) (plan : TermPlan) :
    Merges m (mergeTerm m bt plan).1 held bt.cinfo
      ((mergeTerm m bt plan).2.map BufferTerm.cinfo) := by
  have hcopy : Merges m m held bt.cinfo (some bt.cinfo) := by
    refine ⟨⟨blocks, [], h, fun c => by simp, fun cs hcs c => ?_⟩, hf⟩
    obtain rfl := Option.mem_some_iff.mp hcs
    simp
  unfold mergeTerm
  split
  · exact hcopy
  · cases plan with
    | copy => exact hcopy
    | fail => exact ⟨⟨blocks, [], h, fun c => by simp, by simp⟩, hf⟩
    | merge chunks rest =>
      have h1 := mergeChunks_merges h hf bt.cinfo chunks
      simp only
      generalize mergeChunks m bt.cinfo chunks = x at h1 ⊢
      obtain ⟨m', cinfo⟩ := x
      cases cinfo with
      | none => exact h1.fail
      | some cinfo =>
        obtain ⟨⟨blocks', new, h2, hd, ho⟩, hf2⟩ := h1
        obtain ⟨⟨blocks'', new', h3, hd', ho'⟩, hf3⟩ := mergeRest_merges h2 hf2 bt.tid cinfo rest
        refine ⟨⟨blocks'', new' ++ new, by simpa using h3, fun c => ?_, fun cs hcs c => ?_⟩, hf3⟩
        · have h4 := hd c
          have h5 := hd' c
          simp only [List.count_append] at h4 h5 ⊢
          omega
        · have h4 := ho cinfo rfl c
          have h5 := ho' cs hcs c
          simp only [List.count_append] at h4 h5 ⊢
          omega

/-- **Merging.** -/
theorem bufferMerge_merges {m : MergingData} (h : Owns m.space blocks held)
    (hf : FreshMapped m.space) (bts : List BufferTerm) (plans : List TermPlan) :
    Merges m (bufferMerge m bts plans).1 held (bts.flatMap BufferTerm.cinfo)
      ((bufferMerge m bts plans).2.map fun bts' => bts'.flatMap BufferTerm.cinfo) := by
  induction bts generalizing m blocks held plans with
  | nil =>
    refine ⟨⟨blocks, [], h, fun c => by simp [bufferMerge], fun cs hcs c => ?_⟩, hf⟩
    obtain rfl := Option.mem_some_iff.mp hcs
    simp [bufferMerge]
  | cons bt bts ih =>
    have h1 := mergeTerm_merges h hf bt (plans.headD .copy)
    unfold bufferMerge
    generalize mergeTerm m bt (plans.headD .copy) = x at h1 ⊢
    obtain ⟨m', bt'⟩ := x
    cases bt' with
    | none => exact h1.fail
    | some bt' =>
      have h2 := Merges.trans h1 fun {blocks held} h hf => @ih blocks held m' h hf plans.tail
      simp only at h2 ⊢
      generalize bufferMerge m' bts plans.tail = y at h2 ⊢
      obtain ⟨m'', bts'⟩ := y
      cases bts' with
      | none => exact h2
      | some bts' => exact h2

/-! ## Flushing and splitting keep ownership -/

theorem freeAll_owns {cs : List ChunkInfo} (h : Owns s blocks (cs ++ held)) (hf : FreshMapped s) :
    ∃ blocks', Owns (freeAll s cs) blocks' held ∧ FreshMapped (freeAll s cs) := by
  induction cs generalizing s blocks with
  | nil => exact ⟨blocks, h, hf⟩
  | cons c cs ih =>
    obtain ⟨blocks', h', hf'⟩ := chunkFree_owns h hf
    exact ih h' hf'

theorem freeHeader_owns {chunk : Option ℕ} {size : ℕ}
    (h : Owns s blocks (obtained chunk size ++ held)) (hf : FreshMapped s) :
    ∃ blocks', Owns (freeHeader s chunk size) blocks' held ∧
      FreshMapped (freeHeader s chunk size) := by
  cases chunk with
  | none => exact ⟨blocks, h, hf⟩
  | some segno => exact chunkFree_owns h hf

theorem headerNew_owns (h : Owns s blocks held) (hf : FreshMapped s) (size : ℕ) :
    ∃ blocks', Owns (headerNew s size).1 blocks' (obtained (headerNew s size).2 size ++ held) ∧
      FreshMapped (headerNew s size).1 := by
  unfold headerNew
  split
  · exact chunkNew_owns h hf size
  · exact ⟨blocks, h, hf⟩

/-- A merge that succeeds has met no error. -/
theorem chunkFlush_rc {t : ChunkSpace} {encsize : ℕ} {c : ChunkInfo}
    (h : chunkFlush s encsize = (t, some c)) : t.rc = true := by
  unfold chunkFlush at h
  split at h
  · cases h
  · rename_i t' dcn _
    split at h
    · rename_i hrc
      have hmap : t'.winMap.2 = true → t'.winMap.1.rc = t'.rc := by
        unfold winMap
        split <;> simp
      split at h
      · rename_i heq
        cases h
        rw [heq] at hmap
        exact (hmap rfl).trans hrc
      · cases h
    · cases h

theorem mergeChunks_rc {m m' : MergingData} {cs out : List ChunkInfo} {plans : List ChunkPlan}
    (hm : m.space.rc = true) (h : mergeChunks m cs plans = (m', some out)) :
    m'.space.rc = true := by
  induction cs generalizing m out plans with
  | nil =>
    cases h
    exact hm
  | cons c cs ih =>
    unfold mergeChunks at h
    split at h
    · cases h
    · rename_i m₁ t h₁
      have hm₁ : m₁.space.rc = true := by
        cases hplan : plans.headD .keep with
        | keep =>
          rw [hplan] at h₁
          cases h₁
          exact hm
        | fail => rw [hplan] at h₁; cases h₁
        | merge encsize =>
          rw [hplan] at h₁
          simp only [chunkMerge] at h₁
          split at h₁
          · cases h₁
            exact hm
          · split at h₁
            · cases h₁
            · rename_i heq
              cases h₁
              exact chunkFlush_rc heq
      split at h
      · cases h
      · rename_i heq
        cases h
        exact ih hm₁ heq

theorem mergeTerm_rc {m m' : MergingData} {bt bt' : BufferTerm} {plan : TermPlan}
    (hm : m.space.rc = true) (h : mergeTerm m bt plan = (m', some bt')) : m'.space.rc = true := by
  unfold mergeTerm at h
  split at h
  · cases h
    exact hm
  · cases plan with
    | copy => cases h; exact hm
    | fail => cases h
    | merge chunks rest =>
      simp only at h
      split at h
      · cases h
      · rename_i m₁ cinfo h₁
        have hm₁ := mergeChunks_rc hm h₁
        cases rest with
        | fail => cases h
        | lost => cases h; exact hm₁
        | done ndf encsize embeds =>
          simp only [mergeRest] at h
          split at h
          · cases h
            exact hm₁
          · split at h
            · split at h
              · cases h
              · rename_i heq
                cases h
                exact chunkFlush_rc heq
            · cases h
              exact hm₁

theorem bufferMerge_rc {m m' : MergingData} {bts out : List BufferTerm} {plans : List TermPlan}
    (hm : m.space.rc = true) (h : bufferMerge m bts plans = (m', some out)) :
    m'.space.rc = true := by
  induction bts generalizing m out plans with
  | nil =>
    cases h
    exact hm
  | cons bt bts ih =>
    unfold bufferMerge at h
    split at h
    · cases h
    · rename_i m₁ bt' h₁
      split at h
      · cases h
      · rename_i heq
        cases h
        exact ih (mergeTerm_rc hm h₁) heq

/-- Replacing the buffer of a logical segment exchanges its chunks. -/
theorem Index.count_liveChunks_update (ii : Index) {l : ℕ} (hl : l < ii.nLogicalSegments)
    (b : Option Buffer) (c : ChunkInfo) :
    ({ ii with buffers := Function.update ii.buffers l b } : Index).liveChunks.count c +
        (chunksOf (ii.buffers l)).count c =
      ii.liveChunks.count c + (chunksOf b).count c := by
  have h1 := sum_exchange hl (f := fun j => (chunksOf (Function.update ii.buffers l b j)).count c)
    (g := fun j => (chunksOf (ii.buffers j)).count c)
    (fun j hj => by simp [Function.update_of_ne hj])
  simp only [Function.update_self] at h1
  simp only [Index.liveChunks, List.count_flatMap]
  exact h1

theorem Index.Inv.lt {ii : Index} (h : ii.Inv) {l : ℕ} {b : Buffer} (hb : ii.buffers l = some b) :
    l < ii.nLogicalSegments := by
  by_contra hl
  rw [h.1 l (by omega)] at hb
  cases hb

/-- The other buffers with the chunks of this one are all there is. -/
theorem Index.Inv.count_others {ii : Index} (h : ii.Inv) {l : ℕ} {b : Buffer}
    (hb : ii.buffers l = some b) (c : ChunkInfo) :
    ({ ii with buffers := Function.update ii.buffers l none } : Index).liveChunks.count c +
      b.chunks.count c = ii.liveChunks.count c := by
  have h1 := ii.count_liveChunks_update (h.lt hb) none c
  rwa [hb] at h1

theorem Index.Inv.space {ii : Index} (h : ii.Inv) {s' : ChunkSpace}
    (hs : ∃ blocks, Owns s' blocks ii.liveChunks) : ({ ii with space := s' } : Index).Inv :=
  ⟨h.1, hs⟩

theorem update_above {n l : ℕ} {f : ℕ → Option Buffer} (h : ∀ j, n ≤ j → f j = none)
    (hl : l < n) (b : Option Buffer) : ∀ j, n ≤ j → Function.update f l b j = none := by
  intro j hj
  rw [Function.update_of_ne (by omega)]
  exact h j hj

/-- The step takes no wrong branch: every garbage block just obtained can be mapped, and a
flush whose merge succeeded obtains the chunk for the merged postings. -/
def Step.Safe (ii : Index) : Step → Prop
  | .flush lseg p => (∀ m ∈ p.freshMaps, m = none) ∧
      ∀ sb, ii.buffers lseg = some sb → p.opened = true → ∀ m terms,
        bufferMerge ⟨ii.space.enter p.maps p.freshMaps, [], []⟩ sb.terms p.terms = (m, some terms) →
        p.chunkSize > 0 → (chunkNew m.space p.chunkSize).2 ≠ none
  | .split _ p => ∀ m ∈ p.freshMaps, m = none
  | _ => True

theorem bufferFlush_inv {ii : Index} (h : ii.Inv) {lseg : ℕ} {p : FlushPlan}
    (hsafe : (Step.flush lseg p).Safe ii) : (bufferFlush ii lseg p).Inv := by
  obtain ⟨blocks, hown⟩ := h.2
  obtain ⟨hfresh, hfits⟩ := hsafe
  unfold bufferFlush
  cases hb : ii.buffers lseg with
  | none => exact h
  | some sb =>
    have hlive := h.count_others hb
    simp only
    by_cases hopen : p.opened = true
    · simp only [hopen, if_true]
      have hmerge := bufferMerge_merges (m := ⟨ii.space.enter p.maps p.freshMaps, [], []⟩)
        (hown.enter p.maps p.freshMaps) hfresh sb.terms p.terms
      have hfits' := hfits sb hb hopen
      have hrc := fun m' out => @bufferMerge_rc ⟨ii.space.enter p.maps p.freshMaps, [], []⟩ m'
        sb.terms out p.terms rfl
      generalize bufferMerge ⟨ii.space.enter p.maps p.freshMaps, [], []⟩ sb.terms p.terms = x
        at hmerge hfits' hrc ⊢
      obtain ⟨m, out⟩ := x
      obtain ⟨⟨blocks', new, h1, hdest, hout⟩, hf1⟩ := hmerge
      cases out with
      | none =>
        have h2 : Owns m.space blocks' (m.dest ++ ii.liveChunks) := by
          refine h1.within fun c => ?_
          have := hdest c
          simp only [List.nil_append, List.count_append] at this ⊢
          omega
        obtain ⟨blocks'', h3, -⟩ := freeAll_owns h2 hf1
        exact h.space ⟨blocks'', h3⟩
      | some terms =>
        have hout := hout _ rfl
        obtain ⟨blocks₂, h2, hf2⟩ := headerNew_owns h1 hf1 p.chunkSize
        have hheader : (headerNew m.space p.chunkSize).2 = none →
            (headerNew m.space p.chunkSize).1.rc = true ∧ p.chunkSize = 0 := by
          unfold headerNew
          split
          · rename_i hpos
            exact fun hnone => absurd hnone (hfits' m terms rfl hpos)
          · exact fun _ => ⟨hrc m terms rfl, by omega⟩
        simp only
        generalize headerNew m.space p.chunkSize = y at h2 hf2 hheader ⊢
        obtain ⟨t, dcn⟩ := y
        simp only at h2 hf2 hheader ⊢
        split
        · -- the new buffer takes the place of the old one
          have h3 : Owns t blocks₂ (obtained sb.chunk sb.chunkSize ++ (m.source ++
              ((⟨dcn, p.chunkSize, terms⟩ : Buffer).chunks ++ ({ ii with
                buffers := Function.update ii.buffers lseg none } : Index).liveChunks))) := by
            refine h2.within fun c => ?_
            have h4 := hout c
            have h5 := hlive c
            simp only [Buffer.chunks, List.count_append, List.count_nil] at h4 h5 ⊢
            omega
          obtain ⟨blocks₃, h4, hf3⟩ := freeHeader_owns h3 hf2
          obtain ⟨blocks₄, h5, -⟩ := freeAll_owns h4 hf3
          refine ⟨update_above h.1 (h.lt hb) _, blocks₄, h5.within fun c => ?_⟩
          have h6 := ii.count_liveChunks_update (h.lt hb) (some ⟨dcn, p.chunkSize, terms⟩) c
          have h7 := hlive c
          rw [hb] at h6
          simp only [chunksOf, List.count_append, Index.liveChunks] at h6 h7 ⊢
          omega
        · rename_i hfail
          cases dcn with
          | none =>
            obtain ⟨hok, hzero⟩ := hheader rfl
            exact absurd ⟨hok, .inr hzero⟩ hfail
          | some dcn =>
            have h3 : Owns t blocks₂ (⟨dcn, p.chunkSize⟩ :: (m.dest ++ ii.liveChunks)) := by
              refine h2.within fun c => ?_
              have := hdest c
              simp only [List.nil_append, List.count_append, List.count_cons, obtained_some,
                List.count_nil] at this ⊢
              omega
            obtain ⟨blocks₃, h4, hf3⟩ := chunkFree_owns h3 hf2
            obtain ⟨blocks₄, h5, -⟩ := freeAll_owns h4 hf3
            exact h.space ⟨blocks₄, h5⟩
    · simp only [hopen]
      exact h

theorem count_termSplit (first : ℕ → Bool) (terms : List BufferTerm) (c : ChunkInfo) :
    ((termSplit first terms).1.flatMap BufferTerm.cinfo).count c +
        ((termSplit first terms).2.flatMap BufferTerm.cinfo).count c ≤
      (terms.flatMap BufferTerm.cinfo).count c := by
  induction terms with
  | nil => simp [termSplit]
  | cons bt terms ih =>
    simp only [termSplit, List.filter_cons, List.flatMap_cons, List.count_append] at ih ⊢
    split
    · simp only [List.filter_cons]
      cases first bt.tid <;> simp only [Bool.false_eq_true, if_true, if_false, Bool.not_true,
        Bool.not_false, List.flatMap_cons, List.count_append] <;> omega
    · omega

theorem bufferSegmentReserve_spec {ii : Index} {l0 l1 : ℕ}
    (h : bufferSegmentReserve ii = some (l0, l1)) :
    (l0 < ii.nLogicalSegments ∧ ii.buffers l0 = none) ∧
      (l1 < ii.nLogicalSegments ∧ ii.buffers l1 = none) ∧ l0 ≠ l1 := by
  unfold bufferSegmentReserve at h
  split at h
  · rename_i a b rest heq
    cases h
    have hmem : ∀ l, l ∈ l0 :: l1 :: rest → l < ii.nLogicalSegments ∧ ii.buffers l = none := by
      intro l hl
      rw [← heq, List.mem_filter, List.mem_range] at hl
      exact ⟨hl.1, by simpa using hl.2⟩
    have hnodup : (l0 :: l1 :: rest).Nodup := heq ▸ List.nodup_range.filter _
    refine ⟨hmem l0 (by simp), hmem l1 (by simp), fun heq' => ?_⟩
    simp [heq'] at hnodup
  · cases h

theorem bufferSplit_inv {ii : Index} (h : ii.Inv) {lseg : ℕ} {p : SplitPlan}
    (hsafe : (Step.split lseg p).Safe ii) : (bufferSplit ii lseg p).Inv := by
  obtain ⟨blocks, hown⟩ := h.2
  unfold bufferSplit
  split
  · rename_i sb dls0 dls1 hb hres
    obtain ⟨⟨hlt0, hb0⟩, ⟨hlt1, hb1⟩, hne⟩ := bufferSegmentReserve_spec hres
    have hlive := h.count_others hb
    have hsplit := count_termSplit p.first sb.terms
    by_cases hopen : p.opened = true
    · simp only [hopen, if_true]
      have hmerge := bufferMerge_merges (m := ⟨ii.space.enter p.maps p.freshMaps, [], []⟩)
        (hown.enter p.maps p.freshMaps) hsafe (termSplit p.first sb.terms).1 p.terms0
      generalize bufferMerge ⟨ii.space.enter p.maps p.freshMaps, [], []⟩
        (termSplit p.first sb.terms).1 p.terms0 = x at hmerge ⊢
      obtain ⟨m, out⟩ := x
      obtain ⟨⟨blocks₁, new, h1, hdest, hout⟩, hf1⟩ := hmerge
      -- a failure gives back what was obtained for the new buffers
      have hfail : ∀ {t : ChunkSpace} {blocks : ℕ → List ℕ} {dest new : List ChunkInfo},
          Owns t blocks (new ++ ii.liveChunks) → FreshMapped t → Within dest new →
          ({ ii with space := freeAll t dest } : Index).Inv := by
        intro t blocks dest new ht hft hw
        have h2 : Owns t blocks (dest ++ ii.liveChunks) := by
          refine ht.within fun c => ?_
          have := hw c
          simp only [List.count_append]
          omega
        obtain ⟨blocks', h3, -⟩ := freeAll_owns h2 hft
        exact h.space ⟨blocks', h3⟩
      have hdest1 : Within m.dest new := fun c => by simpa using hdest c
      cases out with
      | none => exact hfail h1 hf1 hdest1
      | some db0 =>
        have hout := hout _ rfl
        obtain ⟨blocks₂, h2, hf2⟩ := headerNew_owns h1 hf1 p.chunkSize0
        simp only
        generalize headerNew m.space p.chunkSize0 = y at h2 hf2 ⊢
        obtain ⟨t, dcn0⟩ := y
        simp only at h2 hf2 ⊢
        split
        · split
          · have hmerge' := bufferMerge_merges (m := { m with space := t }) h2 hf2
              (termSplit p.first sb.terms).2 p.terms1
            generalize bufferMerge { m with space := t } (termSplit p.first sb.terms).2 p.terms1 = x'
              at hmerge' ⊢
            obtain ⟨m', out'⟩ := x'
            obtain ⟨⟨blocks₃, new', h3, hdest', hout'⟩, hf3⟩ := hmerge'
            have hdest2 : Within m'.dest (new' ++ new) := by
              intro c
              have h4 := hdest1 c
              have h5 := hdest' c
              simp only [List.count_append] at h5 ⊢
              omega
            cases out' with
            | none =>
              have h4 : Owns m'.space blocks₃
                  (obtained dcn0 p.chunkSize0 ++ (new' ++ new ++ ii.liveChunks)) := by
                refine h3.within fun c => ?_
                simp only [List.count_append]
                omega
              obtain ⟨blocks₄, h5, hf4⟩ := freeHeader_owns h4 hf3
              exact hfail h5 hf4 hdest2
            | some db1 =>
              have hout' := hout' _ rfl
              obtain ⟨blocks₄, h4, hf4⟩ := headerNew_owns h3 hf3 p.chunkSize1
              simp only
              generalize headerNew m'.space p.chunkSize1 = y' at h4 hf4 ⊢
              obtain ⟨t', dcn1⟩ := y'
              simp only at h4 hf4 ⊢
              split
              · split
                · -- the two new buffers take the place of the old one
                  have h5 : Owns t' blocks₄ (obtained sb.chunk sb.chunkSize ++ (m'.source ++
                      ((⟨dcn0, p.chunkSize0, db0⟩ : Buffer).chunks ++
                        (⟨dcn1, p.chunkSize1, db1⟩ : Buffer).chunks ++ ({ ii with
                          buffers := Function.update ii.buffers lseg none } : Index).liveChunks))) := by
                    refine h4.within fun c => ?_
                    have e1 := hout c
                    have e2 := hout' c
                    have e3 := hlive c
                    have e4 := hsplit c
                    simp only [Buffer.chunks, List.count_append, List.count_nil] at e1 e2 e3 e4 ⊢
                    omega
                  obtain ⟨blocks₅, h6, hf5⟩ := freeHeader_owns h5 hf4
                  obtain ⟨blocks₆, h7, -⟩ := freeAll_owns h6 hf5
                  have hne0 : lseg ≠ dls0 := fun heq => by rw [heq, hb0] at hb; cases hb
                  have hne1 : lseg ≠ dls1 := fun heq => by rw [heq, hb1] at hb; cases hb
                  refine ⟨update_above (update_above (update_above h.1 hlt0 _) hlt1 _) (h.lt hb) _,
                    blocks₆, h7.within fun c => ?_⟩
                  have e1 := ii.count_liveChunks_update hlt0
                    (some ⟨dcn0, p.chunkSize0, db0⟩) c
                  have e2 := Index.count_liveChunks_update { ii with
                    buffers := Function.update ii.buffers dls0 (some ⟨dcn0, p.chunkSize0, db0⟩) }
                    hlt1 (some ⟨dcn1, p.chunkSize1, db1⟩) c
                  have e3 := Index.count_liveChunks_update { ii with
                    buffers := Function.update (Function.update ii.buffers
                      dls0 (some ⟨dcn0, p.chunkSize0, db0⟩))
                      dls1 (some ⟨dcn1, p.chunkSize1, db1⟩) } (h.lt hb) none c
                  have e4 := hlive c
                  simp only [Function.update_of_ne hne0, Function.update_of_ne hne1,
                    Function.update_of_ne hne.symm, hb, hb0, hb1, chunksOf, List.count_append,
                    List.count_nil, Index.liveChunks] at e1 e2 e3 e4 ⊢
                  omega
                · have h5 : Owns t' blocks₄ (obtained dcn1 p.chunkSize1 ++
                      (obtained dcn0 p.chunkSize0 ++ (new' ++ new ++ ii.liveChunks))) := by
                    refine h4.within fun c => ?_
                    simp only [List.count_append]
                    omega
                  obtain ⟨blocks₅, h6, hf5⟩ := freeHeader_owns h5 hf4
                  obtain ⟨blocks₆, h7, hf6⟩ := freeHeader_owns h6 hf5
                  exact hfail h7 hf6 hdest2
              · have h5 : Owns t' blocks₄ (obtained dcn0 p.chunkSize0 ++
                    (new' ++ new ++ ii.liveChunks)) := by
                  refine h4.within fun c => ?_
                  simp only [List.count_append]
                  omega
                obtain ⟨blocks₅, h6, hf5⟩ := freeHeader_owns h5 hf4
                exact hfail h6 hf5 hdest2
          · obtain ⟨blocks₃, h3, hf3⟩ := freeHeader_owns h2 hf2
            exact hfail h3 hf3 hdest1
        · refine hfail (h2.within fun c => ?_) hf2 hdest1
          simp only [List.count_append]
          omega
    · simp only [hopen]
      exact h
  · exact h

theorem count_addTerm (tid : ℕ) (terms : List BufferTerm) (c : ChunkInfo) :
    ((addTerm tid terms).flatMap BufferTerm.cinfo).count c ≤
      (terms.flatMap BufferTerm.cinfo).count c := by
  induction terms with
  | nil => simp [addTerm]
  | cons bt terms ih =>
    simp only [addTerm]
    split
    · simp
    · simp only [List.flatMap_cons, List.count_append]
      omega

/-- **Steps.** A step that takes no wrong branch keeps ownership. -/
theorem Index.Inv.step {ii : Index} (h : ii.Inv) {st : Step} (hsafe : st.Safe ii) :
    (ii.step st).Inv := by
  cases st with
  | bufferNew =>
    simp only [Index.step, bufferSegmentNew]
    split
    · exact h
    · rename_i lseg hfind
      obtain ⟨blocks, hown⟩ := h.2
      have hlt : lseg < ii.nLogicalSegments := List.mem_range.mp (List.mem_of_find?_eq_some hfind)
      have hnone : ii.buffers lseg = none := by simpa using List.find?_some hfind
      refine ⟨update_above h.1 hlt _, blocks, hown.within fun c => ?_⟩
      have h1 := ii.count_liveChunks_update hlt (some ⟨none, 0, []⟩) c
      simp only [hnone, chunksOf, Buffer.chunks, obtained_none, List.flatMap_nil, List.append_nil,
        List.count_nil, Index.liveChunks] at h1 ⊢
      omega
  | termNew lseg tid =>
    simp only [Index.step]
    cases hb : ii.buffers lseg with
    | none => exact h
    | some b =>
      obtain ⟨blocks, hown⟩ := h.2
      refine ⟨update_above h.1 (h.lt hb) _, blocks, hown.within fun c => ?_⟩
      have h1 := ii.count_liveChunks_update (h.lt hb)
        (some { b with terms := addTerm tid b.terms }) c
      have h2 := count_addTerm tid b.terms c
      simp only [hb, chunksOf, Buffer.chunks, List.count_append, Index.liveChunks] at h1 ⊢
      omega
  | flush lseg plan => exact bufferFlush_inv h hsafe
  | split lseg plan => exact bufferSplit_inv h hsafe

theorem Index.inv_create (maxSegment nLogicalSegments : ℕ) :
    (Index.create maxSegment nLogicalSegments).Inv := by
  have hlive : (Index.create maxSegment nLogicalSegments).liveChunks = [] := by
    simp [Index.liveChunks, Index.create, chunksOf]
  refine ⟨fun _ _ => rfl, fun _ => [], ?_⟩
  rw [hlive]
  refine ⟨fun _ => rfl, fun _ => rfl, by simp, fun _ _ => rfl,
    by simp [Index.create, ChunkSpace.create], by simp, fun u => ?_⟩
  simp [Index.create, classCover, restAreas, ChunkSpace.create]

end

/-- No step of the run takes a wrong branch. -/
def SafeRun (ii : Index) : List Step → Prop
  | [] => True
  | st :: steps => st.Safe ii ∧ SafeRun (ii.step st) steps

/-- **Runs.** In every state that a run without a wrong branch reaches from an empty index,
the chunks in use and the free areas are apart from each other. -/
theorem apart_run (maxSegment nLogicalSegments : ℕ) (steps : List Step)
    (h : SafeRun (Index.create maxSegment nLogicalSegments) steps) :
    ((Index.create maxSegment nLogicalSegments).run steps).Apart := by
  have hrun : ∀ (steps : List Step) (ii : Index), ii.Inv → SafeRun ii steps →
      (ii.run steps).Inv := by
    intro steps
    induction steps with
    | nil => exact fun ii hinv _ => hinv
    | cons st steps ih => exact fun ii hinv hs => ih _ (hinv.step hs.1) hs.2
  exact (hrun steps _ (Index.inv_create maxSegment nLogicalSegments) h).apart

/-- A flush in which the only term of the buffer keeps some postings, and nothing fails in
the environment. -/
def plainFlush (chunkSize : ℕ) : FlushPlan where
  opened := true
  terms := [.merge [] (.done 1 chunkSize false)]
  chunkSize := chunkSize
  written := true
  maps := []
  freshMaps := []

/-- Two buffers of one term each, both flushed. -/
def twoBuffers : List Step :=
  [.bufferNew, .termNew 0 1, .flush 0 (plainFlush 256),
    .bufferNew, .termNew 1 2, .flush 1 (plainFlush 256)]

theorem apart_run_twoBuffers :
    SafeRun (Index.create 3 2) twoBuffers ∧ ((Index.create 3 2).run twoBuffers).Apart := by
  have h : SafeRun (Index.create 3 2) twoBuffers := by
    refine ⟨trivial, trivial, ⟨by simp [plainFlush], ?_⟩, trivial, trivial,
      ⟨by simp [plainFlush], ?_⟩, trivial⟩ <;>
    · rintro sb hb - m terms hm -
      cases hb
      cases hm
      decide +kernel
  exact ⟨h, apart_run 3 2 twoBuffers h⟩

/-- The index is full when the second buffer grows again: three segments are cut for
subchunks of 256 bytes, of 512 bytes and for garbage blocks, and no segment is left for one
of 1024 bytes. The flush fails and records the offset `0` as garbage, although the chunk
of the first buffer begins there. -/
theorem not_apart_fullIndex :
    ¬ ((Index.create 3 2).run
      (twoBuffers ++ [.flush 1 (plainFlush 512), .flush 1 (plainFlush 1024)])).Apart := by
  intro h
  have hlive : (⟨0, 256⟩ : ChunkInfo) ∈ ((Index.create 3 2).run
      (twoBuffers ++ [.flush 1 (plainFlush 512), .flush 1 (plainFlush 1024)])).liveChunks := by
    decide +kernel
  have hfree : (⟨0, 4⟩ : Area) ∈ ((Index.create 3 2).run
      (twoBuffers ++ [.flush 1 (plainFlush 512), .flush 1 (plainFlush 1024)])).space.freeAreas := by
    decide +kernel
  exact h.live_free _ hlive _ hfree 0 (by decide +kernel) (by decide +kernel)

end Groonga.Ii
