import Groonga.Lib.Area
import Mathlib

/-!
# The chunk space of an inverted index

The chunk file is a row of segments of 4 MiB, and its space is handed out in units of 256
bytes. A request of more than one segment takes whole segments; a smaller one is rounded
up to a power of two and takes a subchunk of a segment that is cut into subchunks of this
one size. A bit for each segment says whether it is in use.

A subchunk that is given back is recorded in a garbage block of its size class. The blocks
of a class are linked, each of them is a ring of offsets, and they live in the chunk file
themselves: to record a subchunk may need a new block, so `chunkFree` calls `chunkNew`,
and a block that runs empty is given back, so `chunkNew` calls `chunkFree`.

Whether a window of the file can be mapped is decided by the environment. The answers are
part of the state: `maps` are those of the windows that hold data or a block in use,
`freshMaps` those of the blocks just obtained.
-/

namespace Groonga.Ii

open Groonga.Lib

/-! ## Sizes -/

/-- `GRN_II_N_CHUNK_VARIATION`: a segment has `2 ^ 14` units. -/
def nChunkVariation : ℕ := 14

/-- `S_CHUNK`, the bytes of a segment. -/
def sChunk : ℕ := 2 ^ 22

/-- `S_GARBAGE`, the bytes of a garbage block. -/
def sGarbage : ℕ := 2 ^ 12

/-- `N_GARBAGES`, the capacity of a garbage block. -/
def nGarbages : ℕ := (sGarbage - 4 * 4) / 4

/-- `m - GRN_II_W_LEAST_CHUNK`: the subchunks of the class hold `2 ^ m` bytes. -/
def sizeClass (size : ℕ) : ℕ :=
  if size > 2 ^ 8 then Nat.log2 (size - 1) + 1 - 8 else 0

/-- The segments of a request of more than one segment, in the 32-bit arithmetic of the
source. -/
def nSegments (size : ℕ) : ℕ := (size + sChunk - 1) % 2 ^ 32 / sChunk

/-- The units that a request for `size` bytes takes. -/
def extent (size : ℕ) : ℕ :=
  if size > sChunk then nSegments size * 2 ^ nChunkVariation else 2 ^ sizeClass size

/-! ## State -/

/-- A garbage block. The ring of offsets is the queue it implements, oldest first. -/
structure Ginfo where
  recs : List ℕ
  next : Option ℕ

structure ChunkSpace where
  maxSegment : ℕ
  /-- The bit of each segment. -/
  chunks : ℕ → Bool
  /-- For each class the next subchunk of the segment that is being cut. -/
  freeChunks : ℕ → Option ℕ
  /-- For each class the first garbage block, and the number of all its records. -/
  garbages : ℕ → Option ℕ
  ngarbages : ℕ → ℕ
  /-- What the garbage block at an offset holds. -/
  ginfo : ℕ → Ginfo
  /-- Whether the next windows can be mapped. All are when the list has ended. -/
  maps : List Bool
  /-- The same for blocks just obtained. A block that cannot be mapped is not initialized:
  the answer says what it happens to hold. -/
  freshMaps : List (Option Ginfo)
  /-- `ctx->rc` is `GRN_SUCCESS`. -/
  rc : Bool

/-- `_grn_ii_create`. -/
def ChunkSpace.create (maxSegment : ℕ) : ChunkSpace where
  maxSegment := maxSegment
  chunks := fun _ => false
  freeChunks := fun _ => none
  garbages := fun _ => none
  ngarbages := fun _ => 0
  ginfo := fun _ => ⟨[], none⟩
  maps := []
  freshMaps := []
  rc := true

namespace ChunkSpace

/-- `WIN_MAP`. A failure is reported in `ctx->rc`. -/
def winMap (s : ChunkSpace) : ChunkSpace × Bool :=
  match s.maps with
  | [] => (s, true)
  | true :: rest => ({ s with maps := rest }, true)
  | false :: rest => ({ s with maps := rest, rc := false }, false)

/-- `HEADER_CHUNK_ON` and `HEADER_CHUNK_OFF` for `n` segments from `seg` on. -/
def setChunks (s : ChunkSpace) (seg n : ℕ) (b : Bool) : ChunkSpace :=
  { s with chunks := fun i => if seg ≤ i ∧ i < seg + n then b else s.chunks i }

def setFree (s : ChunkSpace) (k : ℕ) (v : Option ℕ) : ChunkSpace :=
  { s with freeChunks := Function.update s.freeChunks k v }

def setGinfo (s : ChunkSpace) (g : ℕ) (info : Ginfo) : ChunkSpace :=
  { s with ginfo := Function.update s.ginfo g info }

/-- A place that points to a garbage block: the header entry of a class or the `next`
field of a block. -/
inductive Link where
  | header (k : ℕ)
  | next (g : ℕ)

def link (s : ChunkSpace) : Link → Option ℕ
  | .header k => s.garbages k
  | .next g => (s.ginfo g).next

def setLink (s : ChunkSpace) (l : Link) (v : Option ℕ) : ChunkSpace :=
  match l with
  | .header k => { s with garbages := Function.update s.garbages k v }
  | .next g => s.setGinfo g { s.ginfo g with next := v }

/-- Records an offset in the block `g` of class `k`. -/
def push (s : ChunkSpace) (k g offset : ℕ) : ChunkSpace :=
  { s.setGinfo g { s.ginfo g with recs := (s.ginfo g).recs ++ [offset] } with
    ngarbages := Function.update s.ngarbages k (s.ngarbages k + 1) }

/-- Takes the oldest record out of the block `g` of class `k`. -/
def pop (s : ChunkSpace) (k g : ℕ) : ChunkSpace :=
  { s.setGinfo g { s.ginfo g with recs := (s.ginfo g).recs.tail } with
    ngarbages := Function.update s.ngarbages k (s.ngarbages k - 1) }

end ChunkSpace

/-! ## Allocation -/

/-- The first of `n` consecutive segments that are all free. `start` is the segment after
the last used one seen, `rest` the number of segments not seen yet. -/
def findSegments (chunks : ℕ → Bool) (n : ℕ) : (rest i start : ℕ) → Option ℕ
  | 0, _, _ => none
  | rest + 1, i, start =>
    if chunks i then findSegments chunks n rest (i + 1) (i + 1)
    else if i + 1 = start + n then some start
    else findSegments chunks n rest (i + 1) start

/-- The first free segment from `i` on. -/
def findSegment (chunks : ℕ → Bool) : (rest i : ℕ) → Option ℕ
  | rest, i =>
    if chunks i then
      match rest with
      | 0 => none
      | rest + 1 => findSegment chunks rest (i + 1)
    else some i

/-- The next subchunk of the segment that is cut for class `k`, with a new segment if there
is none. -/
def cutSubchunk (s : ChunkSpace) (k : ℕ) : ChunkSpace × Option ℕ :=
  let cut := fun (s : ChunkSpace) (v : ℕ) =>
    (s.setFree k
      (if (v + 2 ^ k) % 2 ^ nChunkVariation = 0 then none else some (v + 2 ^ k)), some v)
  match s.freeChunks k with
  | some v => cut s v
  | none =>
    match findSegment s.chunks (s.maxSegment - 1) 0 with
    | none => ({ s with rc := false }, none)
    | some i =>
      let v := i * 2 ^ nChunkVariation
      cut ((s.setChunks i 1 true).setFree k (some v)) v

/-- `chunk_new`: the offset obtained, or `none` with an error. The loop over the garbage
blocks looks at one block at most: a block that it passes over has no successor. -/
def chunkNewWith (chunkFree : ChunkSpace → ℕ → ℕ → ChunkSpace) (s : ChunkSpace) (size : ℕ) :
    ChunkSpace × Option ℕ :=
  if size > sChunk then
    match findSegments s.chunks (nSegments size) s.maxSegment 0 0 with
    | some j => (s.setChunks j (nSegments size) true, some (j * 2 ^ nChunkVariation))
    | none => ({ s with rc := false }, none)
  else
    let k := sizeClass size
    if s.ngarbages k > 1 then
      match s.garbages k with
      | none => cutSubchunk s k
      | some g =>
        match s.winMap with
        | (s, false) => (s, none)
        | (s, true) =>
          if (s.ginfo g).next.isSome ∨ (s.ginfo g).recs.length > 1 then
            let res := (s.ginfo g).recs.headD 0
            let next := (s.ginfo g).next
            let s := s.pop k g
            if (s.ginfo g).recs.length = 0 then
              (chunkFree (s.setLink (.header k) next) g sGarbage, some res)
            else (s, some res)
          else cutSubchunk s k
    else cutSubchunk s k

/-- The place from `l` on that points to a block with room, or that ends the list; `none`
if a window cannot be mapped. -/
def findRoom : (fuel : ℕ) → ChunkSpace → ChunkSpace.Link → ChunkSpace × Option ChunkSpace.Link
  | 0, s, _ => (s, none)
  | fuel + 1, s, l =>
    match s.link l with
    | none => (s, some l)
    | some g =>
      match s.winMap with
      | (s, false) => (s, none)
      | (s, true) =>
        if (s.ginfo g).recs.length < nGarbages then (s, some l)
        else findRoom fuel s (.next g)

/-- `chunk_free`. When the subchunk cannot be recorded, it is lost. -/
def chunkFreeWith (chunkNew : ChunkSpace → ℕ → ChunkSpace × Option ℕ) (s : ChunkSpace)
    (offset size : ℕ) : ChunkSpace :=
  if size > sChunk then s.setChunks (offset / 2 ^ nChunkVariation) (nSegments size) false
  else
    let k := sizeClass size
    match findRoom (s.ngarbages k + 1) s (.header k) with
    | (s, none) => s
    | (s, some l) =>
      match s.link l with
      | some g => s.push k g offset
      | none =>
        match chunkNew s sGarbage with
        | (s, none) => s
        | (s, some g) =>
          let s := s.setLink l (some g)
          match s.freshMaps with
          | some stale :: rest => { s.setGinfo g stale with freshMaps := rest, rc := false }
          | none :: rest => ({ s with freshMaps := rest }.setGinfo g ⟨[], none⟩).push k g offset
          | [] => (s.setGinfo g ⟨[], none⟩).push k g offset

/-- `chunk_new` with at most `n` calls of it inside each other. -/
def chunkNewN : ℕ → ChunkSpace → ℕ → ChunkSpace × Option ℕ
  | 0, s, _ => ({ s with rc := false }, none)
  | n + 1, s, size => chunkNewWith (chunkFreeWith (chunkNewN n)) s size

/-- `chunk_new`. A call inside a call takes a garbage record of the class of the garbage
blocks, so their number bounds the depth. -/
def chunkNew (s : ChunkSpace) (size : ℕ) : ChunkSpace × Option ℕ :=
  chunkNewN (s.ngarbages (sizeClass sGarbage) + 2) s size

def chunkFree (s : ChunkSpace) (offset size : ℕ) : ChunkSpace :=
  chunkFreeWith chunkNew s offset size

/-! ## The depth of the calls -/

theorem winMap_ngarbages (s : ChunkSpace) : s.winMap.1.ngarbages = s.ngarbages := by
  unfold ChunkSpace.winMap
  split <;> rfl

theorem findRoom_ngarbages (fuel : ℕ) (s : ChunkSpace) (l : ChunkSpace.Link) :
    (findRoom fuel s l).1.ngarbages = s.ngarbages := by
  induction fuel generalizing s l with
  | zero => rfl
  | succ fuel ih =>
    unfold findRoom
    split
    · rfl
    · have hm := winMap_ngarbages s
      split
      · rename_i t heq
        rw [heq] at hm
        exact hm
      · rename_i t heq
        rw [heq] at hm
        split
        · exact hm
        · exact (ih t _).trans hm

/-- A release depends on the allocation only for a block, before anything is recorded. -/
theorem chunkFreeWith_congr {new new' : ChunkSpace → ℕ → ChunkSpace × Option ℕ} {s : ChunkSpace}
    (h : ∀ t : ChunkSpace, t.ngarbages = s.ngarbages → new t sGarbage = new' t sGarbage)
    (offset size : ℕ) : chunkFreeWith new s offset size = chunkFreeWith new' s offset size := by
  have hroom := findRoom_ngarbages (s.ngarbages (sizeClass size) + 1) s (.header (sizeClass size))
  unfold chunkFreeWith
  split
  · rfl
  · simp only
    generalize findRoom (s.ngarbages (sizeClass size) + 1) s (.header (sizeClass size)) = room
      at hroom ⊢
    obtain ⟨t, l⟩ := room
    cases l with
    | none => rfl
    | some l =>
      simp only
      cases t.link l with
      | some g => rfl
      | none => simp only [h t hroom]

/-- An allocation depends on the release only after it has taken a record. -/
theorem chunkNewWith_congr {free free' : ChunkSpace → ℕ → ℕ → ChunkSpace} {s : ChunkSpace}
    {size : ℕ}
    (h : ∀ t g, s.ngarbages (sizeClass size) > 1 →
      t.ngarbages = Function.update s.ngarbages (sizeClass size)
        (s.ngarbages (sizeClass size) - 1) → free t g sGarbage = free' t g sGarbage) :
    chunkNewWith free s size = chunkNewWith free' s size := by
  unfold chunkNewWith
  split
  · rfl
  · simp only
    split
    · rename_i hn
      cases s.garbages (sizeClass size) with
      | none => rfl
      | some g =>
        have hmap := winMap_ngarbages s
        generalize s.winMap = w at hmap ⊢
        obtain ⟨t, b⟩ := w
        have hm : t.ngarbages = s.ngarbages := hmap
        cases b with
        | false => rfl
        | true =>
          simp only
          split
          · split
            · rw [h _ g hn]
              simp [ChunkSpace.setLink, ChunkSpace.pop, ChunkSpace.setGinfo, hm]
            · rfl
          · rfl
    · rfl

theorem chunkNewN_sGarbage {n : ℕ} {s : ChunkSpace} (h : s.ngarbages (sizeClass sGarbage) < n) :
    chunkNewN (n + 1) s sGarbage = chunkNewN n s sGarbage := by
  induction n generalizing s with
  | zero => omega
  | succ n ih =>
    refine chunkNewWith_congr fun t g hn ht => chunkFreeWith_congr (fun t' ht' => ih ?_) _ _
    rw [ht', ht, Function.update_self]
    omega

/-- **Depth.** Allowing more calls inside each other than `chunkNew` does changes nothing:
the bound is never met. -/
theorem chunkNewN_eq_chunkNew {n : ℕ} {s : ChunkSpace}
    (h : s.ngarbages (sizeClass sGarbage) + 2 ≤ n) (size : ℕ) :
    chunkNewN n s size = chunkNew s size := by
  induction n, h using Nat.le_induction with
  | base => rfl
  | succ n hn ih =>
    rw [← ih]
    obtain ⟨n, rfl⟩ : ∃ n', n = n' + 1 := ⟨n - 1, by omega⟩
    refine chunkNewWith_congr fun t g hn' ht =>
      chunkFreeWith_congr (fun t' ht' => chunkNewN_sGarbage ?_) _ _
    rw [ht', ht]
    by_cases hk : sizeClass sGarbage = sizeClass size
    · rw [← hk, Function.update_self]
      omega
    · rw [Function.update_of_ne hk]
      omega

end Groonga.Ii
