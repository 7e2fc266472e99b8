import Groonga.Ii.Cursor

/-!
# What a cursor returns

The postings of a term are those of its chunks and of its buffer, merged: a record of the buffer
counts instead of a posting of the chunks with the same key, and a record for section 0 instead
of all postings of its record id. `merged` says so for the whole lists. A cursor is seen here as
the list of what it still returns, and each operation is described by what it does to the list.

Leaving out chunks depends on the table of gaps. By it a chunk may seem to end earlier than it
does, and `SkipSafe` is the condition that no chunk is left out for that.
-/

namespace Groonga.Ii

open Groonga.Lib StoredCursor

variable (ii : Layout)

/-! ## The postings of chunks and records -/

/-- The positions behind their gaps. -/
def cumul : ℕ → List ℕ → List ℕ
  | _, [] => []
  | p, g :: gs => (p + g) % 2 ^ 32 :: cumul ((p + g) % 2 ^ 32) gs

/-- A posting of which no position has been read. -/
def Internal.hit (p : Internal) : Hit where
  docid := ⟨p.rid, p.sid⟩
  tf := p.tf
  weight := p.weight
  pos := if ii.withPosition then cumul 0 p.gaps else [0]

/-- The postings that are read behind `pc`. -/
def hits : Internal → List Entry → List Hit
  | _, [] => []
  | pc, e :: es => (readEntry ii pc e).hit ii :: hits (readEntry ii pc e) es

/-- The postings of unpacked vectors from their beginning on. -/
def loadHits (l : List Entry) : List Hit := hits ii .nil l

/-- The posting of a record. -/
def recHit (r : WriteBuffer.BufferRec) : Hit := (readRec r).hit ii

def Hit.visible (h : Hit) : Bool := h.tf ≠ 0 && h.docid.sid ≠ 0

/-- A posting that is no mark of a deletion, in front of others. -/
def emit (h : Hit) (rest : List Hit) : List Hit := if h.visible then h :: rest else rest

/-- **The postings of a term** from those of its chunks and its records. -/
def merged : List Hit → List Hit → List Hit
  | [], bs => bs.filter Hit.visible
  | c :: cs, [] => (c :: cs).filter Hit.visible
  | c :: cs, b :: bs =>
    if c.docid.rid < b.docid.rid then emit c (merged cs (b :: bs))
    else if b.docid.rid < c.docid.rid then emit b (merged (c :: cs) bs)
    else if b.docid.sid = 0 then merged cs (b :: bs)
    else if c.docid.sid < b.docid.sid then emit c (merged cs (b :: bs))
    else if b.docid.sid = c.docid.sid then emit b (merged cs bs)
    else emit b (merged (c :: cs) bs)
termination_by cs bs => cs.length + bs.length

section Merged

variable {ii} {c b h : Hit} {cs bs rest : List Hit} {p : ℕ → Bool} {min : ℕ}

theorem filter_emit (f : Hit → Bool) :
    (emit h rest).filter f = if f h then emit h (rest.filter f) else rest.filter f := by
  unfold emit
  by_cases hv : h.visible <;> by_cases hf : f h <;> simp [hv, hf]

theorem mem_emit : c ∈ emit h rest ↔ (c = h ∧ h.visible = true) ∨ c ∈ rest := by
  unfold emit
  by_cases hv : h.visible
  · simp [hv]
  · simp [hv]

@[simp] theorem merged_nil_left : merged [] bs = bs.filter Hit.visible := by rw [merged]

@[simp] theorem merged_nil_right : merged cs [] = cs.filter Hit.visible := by
  cases cs with
  | nil => simp
  | cons c cs => rw [merged]

theorem merged_chunk (hlt : c.docid < b.docid) :
    merged (c :: cs) (b :: bs) = emit c (merged cs (b :: bs)) := by
  rw [merged]
  rcases Docid.lt_def.1 hlt with hrid | ⟨hrid, hsid⟩
  · rw [if_pos hrid]
  · rw [if_neg (by omega), if_neg (by omega), if_neg (by omega), if_pos hsid]

theorem merged_buffer (hlt : b.docid < c.docid)
    (h : b.docid.sid ≠ 0 ∨ c.docid.rid ≠ b.docid.rid) :
    merged (c :: cs) (b :: bs) = emit b (merged (c :: cs) bs) := by
  rw [merged]
  rcases Docid.lt_def.1 hlt with hrid | ⟨hrid, hsid⟩
  · rw [if_neg (by omega), if_pos hrid]
  · rw [if_neg (by omega), if_neg (by omega), if_neg (by omega), if_neg (by omega),
      if_neg (by omega)]

theorem merged_same (h : c.docid = b.docid) (h0 : b.docid.sid ≠ 0) :
    merged (c :: cs) (b :: bs) = emit b (merged cs bs) := by
  rw [merged, h, if_neg (lt_irrefl _), if_neg (lt_irrefl _), if_neg h0, if_neg (lt_irrefl _),
    if_pos rfl]

theorem merged_shadowed (h : c.docid.rid = b.docid.rid) (h0 : b.docid.sid = 0) :
    merged (c :: cs) (b :: bs) = merged cs (b :: bs) := by
  rw [merged, if_neg (by omega), if_neg (by omega), if_pos h0]

/-- The cases of a merge step. -/
theorem merge_cases (c b : Hit) :
    c.docid < b.docid ∨
      (b.docid < c.docid ∧ (b.docid.sid ≠ 0 ∨ c.docid.rid ≠ b.docid.rid)) ∨
      (c.docid = b.docid ∧ b.docid.sid ≠ 0) ∨
      (c.docid.rid = b.docid.rid ∧ b.docid.sid = 0) := by
  have hext : c.docid = b.docid ↔ c.docid.rid = b.docid.rid ∧ c.docid.sid = b.docid.sid := by
    cases c.docid
    cases b.docid
    simp
  rw [hext, Docid.lt_def, Docid.lt_def]
  omega

/-- An induction over a merge: one rule for each case of a step. -/
theorem merged_induction {P : List Hit → List Hit → Prop}
    (nil_left : ∀ bs, P [] bs) (nil_right : ∀ cs, P cs [])
    (chunk : ∀ c cs b bs, c.docid < b.docid → P cs (b :: bs) → P (c :: cs) (b :: bs))
    (buffer : ∀ c cs b bs, b.docid < c.docid → b.docid.sid ≠ 0 ∨ c.docid.rid ≠ b.docid.rid →
      P (c :: cs) bs → P (c :: cs) (b :: bs))
    (same : ∀ c cs b bs, c.docid = b.docid → b.docid.sid ≠ 0 → P cs bs →
      P (c :: cs) (b :: bs))
    (shadowed : ∀ c cs b bs, c.docid.rid = b.docid.rid → b.docid.sid = 0 →
      P cs (b :: bs) → P (c :: cs) (b :: bs)) (cs bs : List Hit) :
    P cs bs := by
  induction hn : cs.length + bs.length using Nat.strongRecOn generalizing cs bs with
  | ind n ih =>
    subst hn
    cases cs with
    | nil => exact nil_left bs
    | cons c cs =>
      cases bs with
      | nil => exact nil_right _
      | cons b bs =>
        have hleft := ih (cs.length + (b :: bs).length) (by simp) cs (b :: bs) rfl
        have hright := ih ((c :: cs).length + bs.length) (by simp) (c :: cs) bs rfl
        rcases merge_cases c b with hlt | ⟨hlt, h⟩ | ⟨h, h0⟩ | ⟨h, h0⟩
        · exact chunk _ _ _ _ hlt hleft
        · exact buffer _ _ _ _ hlt h hright
        · exact same _ _ _ _ h h0 (ih (cs.length + bs.length) (by simp; omega) cs bs rfl)
        · exact shadowed _ _ _ _ h h0 hleft

theorem Docid.rid_le {a b : Docid} (h : a ≤ b) : a.rid ≤ b.rid := by
  rw [Docid.le_def] at h
  omega

/-- Taking the postings from a record id on commutes with merging: all that meets in the merge
has the same record id. -/
theorem merged_filter (min : ℕ) (cs bs : List Hit) :
    (merged cs bs).filter (fun h => min ≤ h.docid.rid) =
      merged (cs.filter fun h => min ≤ h.docid.rid) (bs.filter fun h => min ≤ h.docid.rid) := by
  have hcomm : ∀ l : List Hit, (l.filter Hit.visible).filter (fun h => min ≤ h.docid.rid) =
      (l.filter fun h => min ≤ h.docid.rid).filter Hit.visible := fun l => by
    simp [List.filter_filter, Bool.and_comm]
  induction cs, bs using merged_induction with
  | nil_left bs => rw [merged_nil_left, hcomm]; simp
  | nil_right cs => rw [merged_nil_right, hcomm]; simp
  | chunk c cs b bs hlt ih =>
    rw [merged_chunk hlt, filter_emit, ih]
    by_cases hc : min ≤ c.docid.rid
    · have hb : min ≤ b.docid.rid := hc.trans (Docid.rid_le hlt.le)
      simp only [hc, hb, decide_true, List.filter_cons_of_pos, if_true]
      rw [merged_chunk hlt]
    · simp [hc]
  | buffer c cs b bs hlt h ih =>
    rw [merged_buffer hlt h, filter_emit, ih]
    by_cases hb : min ≤ b.docid.rid
    · have hc : min ≤ c.docid.rid := hb.trans (Docid.rid_le hlt.le)
      simp only [hc, hb, decide_true, List.filter_cons_of_pos, if_true]
      rw [merged_buffer hlt h]
    · simp [hb]
  | same c cs b bs h h0 ih =>
    rw [merged_same h h0, filter_emit, ih]
    by_cases hb : min ≤ b.docid.rid
    · have hc : min ≤ c.docid.rid := by rw [h]; exact hb
      simp only [hc, hb, decide_true, List.filter_cons_of_pos, if_true]
      rw [merged_same h h0]
    · have hc : ¬ min ≤ c.docid.rid := by rw [h]; exact hb
      simp [hb, hc]
  | shadowed c cs b bs h h0 ih =>
    rw [merged_shadowed h h0, ih]
    by_cases hb : min ≤ b.docid.rid
    · have hc : min ≤ c.docid.rid := by rw [h]; exact hb
      simp only [hc, hb, decide_true, List.filter_cons_of_pos]
      rw [merged_shadowed h h0]
    · have hc : ¬ min ≤ c.docid.rid := by rw [h]; exact hb
      simp [hb, hc]

/-- A list of postings that grows in the record and the section. -/
def Sorted (l : List Hit) : Prop := l.Pairwise fun a b => a.docid < b.docid

theorem mem_of_mem_merged {x : Hit} (hx : x ∈ merged cs bs) : x ∈ cs ∨ x ∈ bs := by
  induction cs, bs using merged_induction with
  | nil_left bs =>
    rw [merged_nil_left] at hx
    exact .inr (List.mem_filter.1 hx).1
  | nil_right cs =>
    rw [merged_nil_right] at hx
    exact .inl (List.mem_filter.1 hx).1
  | chunk c cs b bs hlt ih =>
    rw [merged_chunk hlt, mem_emit] at hx
    rcases hx with ⟨rfl, -⟩ | hx
    · simp
    · exact (ih hx).imp_left (List.mem_cons_of_mem _)
  | buffer c cs b bs hlt h ih =>
    rw [merged_buffer hlt h, mem_emit] at hx
    rcases hx with ⟨rfl, -⟩ | hx
    · simp
    · exact (ih hx).imp_right (List.mem_cons_of_mem _)
  | same c cs b bs h h0 ih =>
    rw [merged_same h h0, mem_emit] at hx
    rcases hx with ⟨rfl, -⟩ | hx
    · simp
    · exact (ih hx).imp (List.mem_cons_of_mem _) (List.mem_cons_of_mem _)
  | shadowed c cs b bs h h0 ih =>
    rw [merged_shadowed h h0] at hx
    exact (ih hx).imp_left (List.mem_cons_of_mem _)

theorem sorted_emit (hr : Sorted rest) (h : ∀ x ∈ rest, c.docid < x.docid) :
    Sorted (emit c rest) := by
  unfold emit
  split_ifs
  · exact List.pairwise_cons.2 ⟨h, hr⟩
  · exact hr

/-- The merge grows as the two lists do. -/
theorem sorted_merged (hc : Sorted cs) (hb : Sorted bs) : Sorted (merged cs bs) := by
  induction cs, bs using merged_induction with
  | nil_left bs => rw [merged_nil_left]; exact hb.sublist List.filter_sublist
  | nil_right cs => rw [merged_nil_right]; exact hc.sublist List.filter_sublist
  | chunk c cs b bs hlt ih =>
    rw [merged_chunk hlt]
    refine sorted_emit (ih (List.Pairwise.of_cons hc) hb) fun x hx => ?_
    rcases mem_of_mem_merged hx with hx | hx
    · exact (List.pairwise_cons.1 hc).1 x hx
    · rcases List.mem_cons.1 hx with rfl | hx
      · exact hlt
      · exact hlt.trans ((List.pairwise_cons.1 hb).1 x hx)
  | buffer c cs b bs hlt h ih =>
    rw [merged_buffer hlt h]
    refine sorted_emit (ih hc (List.Pairwise.of_cons hb)) fun x hx => ?_
    rcases mem_of_mem_merged hx with hx | hx
    · rcases List.mem_cons.1 hx with rfl | hx
      · exact hlt
      · exact hlt.trans ((List.pairwise_cons.1 hc).1 x hx)
    · exact (List.pairwise_cons.1 hb).1 x hx
  | same c cs b bs h h0 ih =>
    rw [merged_same h h0]
    refine sorted_emit (ih (List.Pairwise.of_cons hc) (List.Pairwise.of_cons hb)) fun x hx => ?_
    rcases mem_of_mem_merged hx with hx | hx
    · rw [← h]
      exact (List.pairwise_cons.1 hc).1 x hx
    · exact (List.pairwise_cons.1 hb).1 x hx
  | shadowed c cs b bs h h0 ih =>
    rw [merged_shadowed h h0]
    exact ih (List.Pairwise.of_cons hc) hb

/-- **The merged postings** are the records that are no marks of deletions, and the postings of
the chunks that no record shadows. -/
theorem mem_merged (hc : Sorted cs) (hb : Sorted bs) {x : Hit} :
    x ∈ merged cs bs ↔ x.visible = true ∧
      (x ∈ bs ∨ (x ∈ cs ∧ ∀ r ∈ bs, ¬ WriteBuffer.Shadows r.docid x.docid)) := by
  -- a record does not shadow what is before it, nor what is behind it with another record id
  have hbefore : ∀ {r d : Docid}, d < r → ¬ WriteBuffer.Shadows r d := by
    rintro r d hlt (heq | ⟨h0, hrid⟩)
    · exact hlt.ne heq
    · rw [Docid.lt_def] at hlt
      omega
  induction cs, bs using merged_induction with
  | nil_left bs => simp [and_comm]
  | nil_right cs => simp [and_comm]
  | chunk c cs b bs hlt ih =>
    have ih' : x ∈ merged cs (b :: bs) ↔ _ := ih hc.of_cons hb
    rw [merged_chunk hlt, mem_emit, ih']
    have hcs : ∀ r ∈ b :: bs, ¬ WriteBuffer.Shadows r.docid c.docid := fun r hr => by
      refine hbefore ?_
      rcases List.mem_cons.1 hr with rfl | hr
      · exact hlt
      · exact hlt.trans ((List.pairwise_cons.1 hb).1 r hr)
    rw [List.mem_cons (l := cs)]
    constructor
    · rintro (⟨rfl, hv⟩ | ⟨hv, h⟩)
      · exact ⟨hv, .inr ⟨.inl rfl, hcs⟩⟩
      · exact ⟨hv, h.imp_right fun ⟨hx, hr⟩ => ⟨.inr hx, hr⟩⟩
    · rintro ⟨hv, h | ⟨rfl | hx, hr⟩⟩
      · exact .inr ⟨hv, .inl h⟩
      · exact .inl ⟨rfl, hv⟩
      · exact .inr ⟨hv, .inr ⟨hx, hr⟩⟩
  | buffer c cs b bs hlt h ih =>
    have ih' : x ∈ merged (c :: cs) bs ↔ _ := ih hc hb.of_cons
    rw [merged_buffer hlt h, mem_emit, ih', List.mem_cons (l := bs)]
    have hnot : ∀ y ∈ c :: cs, ¬ WriteBuffer.Shadows b.docid y.docid := fun y hy hs => by
      have hle : c.docid ≤ y.docid := by
        rcases List.mem_cons.1 hy with rfl | hy
        · exact le_rfl
        · exact ((List.pairwise_cons.1 hc).1 y hy).le
      rcases hs with heq | ⟨h0, hrid⟩
      · exact (hlt.trans_le hle).ne heq.symm
      · rw [Docid.lt_def] at hlt
        rw [Docid.le_def] at hle
        omega
    simp only [List.forall_mem_cons]
    constructor
    · rintro (⟨rfl, hv⟩ | ⟨hv, hx⟩)
      · exact ⟨hv, .inl (.inl rfl)⟩
      · exact ⟨hv, hx.imp .inr fun ⟨hx, hr⟩ => ⟨hx, hnot x hx, hr⟩⟩
    · rintro ⟨hv, (rfl | hx) | ⟨hx, -, hr⟩⟩
      · exact .inl ⟨rfl, hv⟩
      · exact .inr ⟨hv, .inl hx⟩
      · exact .inr ⟨hv, .inr ⟨hx, hr⟩⟩
  | same c cs b bs h h0 ih =>
    have ih' : x ∈ merged cs bs ↔ _ := ih hc.of_cons hb.of_cons
    rw [merged_same h h0, mem_emit, ih', List.mem_cons (l := bs),
      List.mem_cons (l := cs)]
    have hnot : ∀ y ∈ cs, ¬ WriteBuffer.Shadows b.docid y.docid := fun y hy hs => by
      have hlt := (List.pairwise_cons.1 hc).1 y hy
      rcases hs with heq | ⟨h0', -⟩
      · rw [h, ← heq] at hlt
        exact lt_irrefl _ hlt
      · exact h0 h0'
    simp only [List.forall_mem_cons]
    constructor
    · rintro (⟨rfl, hv⟩ | ⟨hv, hx⟩)
      · exact ⟨hv, .inl (.inl rfl)⟩
      · exact ⟨hv, hx.imp .inr fun ⟨hx, hr⟩ => ⟨.inr hx, hnot x hx, hr⟩⟩
    · rintro ⟨hv, (rfl | hx) | ⟨rfl | hx, hb', hr⟩⟩
      · exact .inl ⟨rfl, hv⟩
      · exact .inr ⟨hv, .inl hx⟩
      · exact absurd (.inl h) hb'
      · exact .inr ⟨hv, .inr ⟨hx, hr⟩⟩
  | shadowed c cs b bs h h0 ih =>
    have ih' : x ∈ merged cs (b :: bs) ↔ _ := ih hc.of_cons hb
    rw [merged_shadowed h h0, ih', List.mem_cons (l := cs)]
    simp only [List.forall_mem_cons]
    constructor
    · rintro ⟨hv, hx | ⟨hx, hr⟩⟩
      · exact ⟨hv, .inl hx⟩
      · exact ⟨hv, .inr ⟨.inr hx, hr⟩⟩
    · rintro ⟨hv, hx | ⟨rfl | hx, hr⟩⟩
      · exact ⟨hv, .inl hx⟩
      · exact absurd (.inr ⟨h0, h⟩) hr.1
      · exact ⟨hv, .inr ⟨hx, hr⟩⟩

theorem Sorted.dropWhile_eq_filter {l : List Hit} (h : Sorted l) (min : ℕ) :
    (l.dropWhile fun h => h.docid.rid < min) = l.filter fun h => min ≤ h.docid.rid := by
  induction l with
  | nil => rfl
  | cons x l ih =>
    by_cases hx : x.docid.rid < min
    · rw [List.dropWhile_cons_of_pos (by simpa using hx),
        List.filter_cons_of_neg (by simpa using hx), ih h.of_cons]
    · rw [List.dropWhile_cons_of_neg (by simpa using hx), eq_comm, List.filter_eq_self]
      intro y hy
      rcases List.mem_cons.1 hy with rfl | hy
      · simpa using hx
      · have := Docid.rid_le ((List.pairwise_cons.1 h).1 y hy).le
        simp only [decide_eq_true_eq]
        omega

end Merged

/-! ## Well-formed terms -/

/-- The record id a chunk ends with, the sum of its gaps. -/
def SplitChunk.lastRid (x : SplitChunk) : ℕ := (x.entries.map Entry.dgap).sum

/-- The sum of the gaps in the table. -/
def dgaps (l : List SplitChunk) : ℕ := (l.map SplitChunk.dgap).sum

/-- The postings of all the chunks. -/
def Stored.chunkHits (s : Stored) : List Hit := s.loads.flatMap (loadHits ii)

/-- What the records of a chain must be like for the cursor. -/
structure Stored.Chained (s : Stored) (used : Set ℕ) (xs : List ℕ) : Prop where
  skip : SkipChain (WriteBuffer.cells s.recs) used s.posInBuffer xs
  length_le : xs.length ≤ 2 ^ 16
  rid_pos : ∀ x ∈ xs, 0 < (s.recs x).docid.rid
  length_pos : ii.withPosition = true → ∀ x ∈ xs,
    (s.recs x).posting.pos.length = (s.recs x).posting.tf
  sorted_pos : ∀ x ∈ xs, (recHit ii (s.recs x)).pos.Pairwise (· ≤ ·)

/-- The chunks hold postings in order, and the records are a chain. -/
structure Stored.WF (s : Stored) : Prop where
  sorted : Sorted (s.chunkHits ii)
  rid_pos : ∀ h ∈ s.chunkHits ii, 0 < h.docid.rid
  nonempty : ∀ x ∈ s.chunks, x.entries ≠ []
  length_pos : ii.withPosition = true → ∀ l ∈ s.loads, ∀ e ∈ l, e.pos.length = 1 + e.tf
  sorted_pos : ∀ h ∈ s.chunkHits ii, h.pos.Pairwise (· ≤ ·)
  chained : ∃ used xs, s.Chained ii used xs

/-- **No chunk seems to end too early**: counted from the beginning, and from the end of any
chunk over at least one other, the gaps of the table reach the end of each chunk. -/
structure Stored.SkipSafe (s : Stored) : Prop where
  fromStart : ∀ mid x post, s.chunks = mid ++ x :: post → x.lastRid ≤ dgaps mid + x.dgap
  fromChunk : ∀ pre y mid x post, s.chunks = pre ++ y :: (mid ++ x :: post) → mid ≠ [] →
    x.lastRid ≤ y.lastRid + dgaps mid + x.dgap

/-- Counted from `rid` at the chunk `m`, the gaps reach the ends of the chunks behind it. -/
def Reaches (s : Stored) (m rid : ℕ) : Prop :=
  ∀ mid x post, s.chunks.drop m = mid ++ x :: post → mid ≠ [] →
    x.lastRid ≤ rid + dgaps mid + x.dgap

/-! ## Reading -/

section Reading

variable {ii} {s : Stored} {c : StoredCursor} {pc : Internal} {e : Entry} {es : List Entry}
  {min : ℕ}

@[simp] theorem readEntry_rid : (readEntry ii pc e).rid = pc.rid + e.dgap := rfl

/-- Only the ids of the posting before count. -/
theorem hits_congr {pc' : Internal} (hrid : pc'.rid = pc.rid) (hsid : pc'.sid = pc.sid) :
    hits ii pc' es = hits ii pc es := by
  cases es with
  | nil => rfl
  | cons e es =>
    have hread : readEntry ii pc' e = readEntry ii pc e := by
      unfold readEntry
      rw [hrid, hsid]
    rw [hits, hits, hread]

theorem length_hits : (hits ii pc es).length = es.length := by
  induction es generalizing pc with
  | nil => rfl
  | cons e es ih => rw [hits, List.length_cons, List.length_cons, ih]

/-- The postings of chunks are no marks. -/
theorem visible_of_mem_hits {h : Hit} (hh : h ∈ hits ii pc es) : h.visible = true := by
  induction es generalizing pc with
  | nil => cases hh
  | cons e es ih =>
    rw [hits, List.mem_cons] at hh
    rcases hh with rfl | hh
    · cases hsec : ii.withSection <;> simp [Hit.visible, Internal.hit, readEntry, hsec]
    · exact ih hh

/-- The ids only grow, and the last one is the sum of the gaps. -/
theorem rid_le_of_mem_hits {h : Hit} (hh : h ∈ hits ii pc es) :
    h.docid.rid ≤ pc.rid + (es.map Entry.dgap).sum := by
  induction es generalizing pc with
  | nil => cases hh
  | cons e es ih =>
    rw [hits, List.mem_cons] at hh
    rw [List.map_cons, List.sum_cons]
    rcases hh with rfl | hh
    · simp only [Internal.hit, readEntry_rid]
      omega
    · have := ih hh
      rw [readEntry_rid] at this
      omega

theorem exists_mem_hits (hes : es ≠ []) :
    ∃ h ∈ hits ii pc es, h.docid.rid = pc.rid + (es.map Entry.dgap).sum := by
  induction es generalizing pc with
  | nil => exact absurd rfl hes
  | cons e es ih =>
    by_cases hnil : es = []
    · subst hnil
      exact ⟨_, List.mem_cons_self, by simp [Internal.hit]⟩
    · obtain ⟨h, hh, hrid⟩ := @ih (readEntry ii pc e) hnil
      refine ⟨h, List.mem_cons_of_mem _ hh, ?_⟩
      rw [hrid, readEntry_rid, List.map_cons, List.sum_cons, Nat.add_assoc]

/-- A posting of which nothing has been read yet. -/
structure Fresh (ii : Layout) (p : Internal) : Prop where
  pos : p.pos = 0
  rest : p.rest = p.tf
  gaps : ii.withPosition = true → p.gaps.length = p.tf

/-- **Reading the vectors** goes to the first posting from `min` on. -/
theorem scan_spec (hgaps : ii.withPosition = true → ∀ e ∈ es, e.pos.length = 1 + e.tf) :
    ((∃ pc' es', scan ii min es pc = (pc', es', true) ∧
      (hits ii pc es).dropWhile (fun h => h.docid.rid < min) = pc'.hit ii :: hits ii pc' es' ∧
      min ≤ pc'.rid ∧ Fresh ii pc' ∧ es' <:+ es ∧
      pc'.rid + (es'.map Entry.dgap).sum = pc.rid + (es.map Entry.dgap).sum) ∨
    ∃ pc' es', scan ii min es pc = (pc', es', false) ∧
      (hits ii pc es).dropWhile (fun h => h.docid.rid < min) = [] ∧
      pc'.rid = pc.rid + (es.map Entry.dgap).sum) := by
  induction es generalizing pc with
  | nil => exact .inr ⟨pc, [], rfl, rfl, rfl⟩
  | cons e es ih =>
    rw [scan, hits]
    rw [List.map_cons, List.sum_cons, ← Nat.add_assoc]
    split_ifs with hlt
    · have hdrop : ((readEntry ii pc e).hit ii :: hits ii (readEntry ii pc e) es).dropWhile
          (fun h => h.docid.rid < min) =
          (hits ii (readEntry ii pc e) es).dropWhile fun h => h.docid.rid < min :=
        List.dropWhile_cons_of_pos (decide_eq_true hlt)
      rw [hdrop]
      rcases @ih (readEntry ii pc e) fun hp e' he' => hgaps hp e' (List.mem_cons_of_mem _ he')
        with ⟨pc', es', hscan, h1, h2, h3, h4, h5⟩ | h
      · exact .inl ⟨pc', es', hscan, h1, h2, h3, h4.trans (List.suffix_cons _ _), h5⟩
      · exact .inr h
    · refine .inl ⟨_, _, rfl, ?_, not_lt.1 hlt, ⟨rfl, rfl, fun hp => ?_⟩, List.suffix_cons _ _,
        rfl⟩
      · exact List.dropWhile_cons_of_neg (mt of_decide_eq_true hlt)
      · exact hgaps hp e List.mem_cons_self

end Reading

end Groonga.Ii
