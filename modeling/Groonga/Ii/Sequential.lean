import Groonga.Lib.Memory
import Groonga.Ii.WriteBuffer
import Mathlib

/-!
# The sequential search in place of an index

An AND search in an index for references marks the records of a result set that match, and what
is not marked is deleted. When the result set is small, the records are found by reading the
values of the source columns and not with the postings of the index.

A value is read as a list of ids of four bytes. The elements of a vector with weights are longer:
only the first part of their bytes is read then, and weights are taken for ids. The index drops
the sections without weight and the records in front of the smallest one of the search before;
the sequential search does not.
-/

namespace Groonga.Ii

open Lib

/-! ## Result sets -/

/-- A record of a result set, with `GRN_RSET_UTIL_BIT` of its `n_subrecs`. -/
structure RsetRecord where
  rid : ℕ
  utilBit : Bool
deriving DecidableEq

/-- The records of a result set in the order of their ids in the hash. -/
structure ResultSet where
  records : List RsetRecord
  nodup : (records.map RsetRecord.rid).Nodup

namespace ResultSet

/-- Whether `grn_hash_get` finds a record. -/
def Has (s : ResultSet) (rid : ℕ) : Prop := rid ∈ s.records.map RsetRecord.rid

instance (s : ResultSet) (rid : ℕ) : Decidable (s.Has rid) := List.instDecidableMemOfLawfulBEq _ _

/-- The result set in which the records with `p` are marked, too. -/
def mark (s : ResultSet) (p : ℕ → Bool) : ResultSet where
  records := s.records.map fun r => { r with utilBit := r.utilBit || p r.rid }
  nodup := by
    rw [List.map_map]
    exact s.nodup

/-- `grn_rset_add_record` and `grn_hash_add_record` for `GRN_OP_AND`. -/
def addRecord (s : ResultSet) (rid : ℕ) : ResultSet := s.mark (· == rid)

/-- `grn_ii_resolve_sel_and`. -/
def resolveSelAnd (s : ResultSet) : ResultSet where
  records := (s.records.filter RsetRecord.utilBit).map fun r => { r with utilBit := false }
  nodup := by
    rw [List.map_map]
    exact s.nodup.sublist (List.filter_sublist.map _)

variable {s : ResultSet} {p q : ℕ → Bool} {rid : ℕ}

/-- Records are marked one after the other. -/
theorem mark_mark : (s.mark p).mark q = s.mark fun rid => p rid || q rid := by
  simp only [mark, List.map_map, ResultSet.mk.injEq]
  refine List.map_congr_left fun r _ => ?_
  simp only [Function.comp_apply, Bool.or_assoc]

/-- Only whether the records of the set are marked counts. -/
theorem mark_congr (h : ∀ rid, s.Has rid → p rid = q rid) : s.mark p = s.mark q := by
  simp only [mark, ResultSet.mk.injEq]
  refine List.map_congr_left fun r hr => ?_
  rw [h r.rid (List.mem_map_of_mem hr)]

theorem mark_false : (s.mark fun _ => false) = s := by
  simp only [mark, Bool.or_false, List.map_id']

/-- **What is left are the marked records.** -/
theorem has_resolve_mark :
    (s.mark p).resolveSelAnd.Has rid ↔ ∃ r ∈ s.records, r.rid = rid ∧ (r.utilBit || p rid) := by
  simp only [Has, resolveSelAnd, mark, List.map_map, List.mem_map, List.mem_filter,
    Function.comp_apply]
  constructor
  · rintro ⟨_, ⟨⟨r, hr, rfl⟩, hbit⟩, rfl⟩
    exact ⟨r, hr, rfl, hbit⟩
  · rintro ⟨r, hr, rfl, hbit⟩
    exact ⟨_, ⟨⟨r, hr, rfl⟩, hbit⟩, rfl⟩

/-- **The same records are left** when the same ones are marked, unless a record has its mark from
before. -/
theorem resolve_mark_iff :
    (∀ rid, (s.mark p).resolveSelAnd.Has rid ↔ (s.mark q).resolveSelAnd.Has rid) ↔
      ∀ r ∈ s.records, r.utilBit = false → (p r.rid ↔ q r.rid) := by
  simp only [has_resolve_mark]
  constructor
  · intro h r hr hbit
    have hone : ∀ {p : ℕ → Bool}, (∃ r' ∈ s.records, r'.rid = r.rid ∧ (r'.utilBit || p r.rid)) ↔
        p r.rid := by
      intro p
      constructor
      · rintro ⟨r', hr', hrid, hp⟩
        obtain rfl : r' = r := List.inj_on_of_nodup_map s.nodup hr' hr hrid
        rwa [hbit, Bool.false_or] at hp
      · intro hp
        exact ⟨r, hr, rfl, by rw [hp, Bool.or_true]⟩
    exact hone.symm.trans ((h r.rid).trans hone)
  · intro h rid
    refine exists_congr fun r => and_congr_right fun hr => and_congr_right fun hrid => ?_
    subst hrid
    cases hbit : r.utilBit with
    | true => simp
    | false => simpa using h r hr hbit

end ResultSet

/-! ## Source columns -/

/-- The weights of the elements of a vector. -/
inductive ElementWeight
  | none
  | float32
  | bfloat16

/-- `grn_weight_size`, none without weights. -/
def ElementWeight.size : ElementWeight → ℕ
  | .none => 0
  | .float32 => 4
  | .bfloat16 => 2

/-- An element of a vector of references: an id and the bytes of its weight. -/
structure ReferenceElement (w : ElementWeight) where
  id : ℕ
  weight : List UInt8
  id_lt : id < 2 ^ 32
  length_weight : weight.length = w.size

/-- A reference column, with its values for the records. -/
inductive SourceColumn
  | scalar (value : ℕ → ℕ)
  | vector (w : ElementWeight) (value : ℕ → List (ReferenceElement w))

/-- The bytes of the value of a vector. -/
def vectorBytes {w : ElementWeight} (elements : List (ReferenceElement w)) : List UInt8 :=
  elements.flatMap fun e => leBytes 4 e.id ++ e.weight

/-- `grn_vector_size`, a number of 32 bits. -/
def nElements (w : ElementWeight) (bytes : List UInt8) : ℕ := bytes.length / (4 + w.size) % 2 ^ 32

/-- `GRN_RECORD_VALUE_AT`. -/
def recordValueAt (bytes : List UInt8) (j : ℕ) : ℕ := leNat ((bytes.drop (4 * j)).take 4)

/-- The ids of the value of a record. -/
def SourceColumn.ids : SourceColumn → ℕ → List ℕ
  | .scalar value, rid => [value rid]
  | .vector _ value, rid => (value rid).map ReferenceElement.id

/-- The ids that the sequential search compares with the one that it looks for. -/
def SourceColumn.readIds : SourceColumn → ℕ → List ℕ
  | .scalar value, rid => [value rid]
  | .vector w value, rid =>
    let bytes := vectorBytes (value rid)
    (List.range (nElements w bytes)).map (recordValueAt bytes)

/-! ## The two searches -/

/-- `data->wv_mode` with what it uses of the `grn_select_optarg`. The function of the dynamic mode
is one of the caller. -/
inductive WeightVector
  | none
  | static (weights : List ℚ)
  | dynamic (func : ℕ → ℕ → ℤ)
  | constant (weight : ℚ)

/-- `get_weight`. -/
def getWeight : WeightVector → Docid → ℚ
  | .none, _ => 1
  | .static weights, d => if d.sid = 0 then 0 else weights.getD (d.sid - 1) 0
  | .dynamic func, d => func d.rid d.sid
  | .constant weight, _ => weight

/-- An index over reference columns. The postings of a term are in order, and agree with the
values of the columns. -/
structure ReferenceIndex where
  withSection : Bool
  sources : List SourceColumn
  postings : ℕ → List Docid
  sorted : ∀ id, (postings id).Pairwise (· < ·)
  agrees : ∀ id ≠ 0, ∀ d, d ∈ postings id ↔ ∃ i source, sources[i]? = some source ∧
    d.sid = (if withSection then i + 1 else 1) ∧ id ∈ source.ids d.rid

/-- What a search uses: the id of the term, when it is in the lexicon and the index estimates
postings for it, the weights of the sections, and `match_info->min`. -/
structure ReferenceQuery where
  queryId : Option ℕ
  weights : WeightVector
  previousMin : ℕ
  ne_nil : queryId ≠ some 0

/-- `n_founds` of a record in a source column. -/
def SourceColumn.nFounds (source : SourceColumn) (rid queryId : ℕ) : ℕ :=
  (source.readIds rid).count queryId

/-- The loop over the result set in `grn_ii_select_sequential_search_reference`. -/
def searchSource (queryId : ℕ) (s : ResultSet) (source : SourceColumn) : ResultSet :=
  s.records.foldl
    (fun s r => if 0 < source.nFounds r.rid queryId then s.addRecord r.rid else s) s

/-- `grn_ii_select_sequential_search_reference`. -/
def sequentialSearchReference (ii : ReferenceIndex) (queryId : ℕ) (s : ResultSet) : ResultSet :=
  ii.sources.foldl (searchSource queryId) s

/-- `token_info_skip` of the only token. -/
def skipPostings (d : Docid) (postings : List Docid) : List Docid :=
  postings.dropWhile fun p => decide (p < d)

theorem skipPostings_cons (p : Docid) (postings : List Docid) :
    skipPostings ⟨p.rid, p.sid + 1⟩ (p :: postings) =
      skipPostings ⟨p.rid, p.sid + 1⟩ postings := by
  have hlt : p < ⟨p.rid, p.sid + 1⟩ := Docid.lt_def.2 (.inr ⟨rfl, Nat.lt_succ_self _⟩)
  exact List.dropWhile_cons_of_pos (p := fun p' => decide (p' < _)) (decide_eq_true hlt)

/-- `grn_result_set_add_ii_select_cursor` with `grn_ii_select_cursor_next`: the loop over the
postings of the only token. -/
def addSelectCursor (weights : WeightVector) (s : ResultSet) : List Docid → ResultSet
  | [] => s
  | p :: postings =>
    let next := skipPostings ⟨p.rid, p.sid + 1⟩ (p :: postings)
    if getWeight weights p = 0 then addSelectCursor weights s next
    else if ¬s.Has p.rid then addSelectCursor weights s next
    else addSelectCursor weights (s.addRecord p.rid) next
termination_by postings => postings.length
decreasing_by all_goals
  rw [skipPostings_cons]
  exact Nat.lt_succ_of_le (List.dropWhile_suffix _).length_le

/-- The search with the postings: the cursor of the term begins at `match_info->min`. -/
def cursorSearch (ii : ReferenceIndex) (query : ReferenceQuery) (queryId : ℕ) (s : ResultSet) :
    ResultSet :=
  addSelectCursor query.weights s
    ((ii.postings queryId).filter fun p => decide (query.previousMin ≤ p.rid))

/-- `grn_ii_select` for `GRN_OP_AND` and `GRN_OP_EXACT`, with or without the sequential search. -/
def grnIiSelect (sequential : Bool) (ii : ReferenceIndex) (query : ReferenceQuery)
    (s : ResultSet) : ResultSet :=
  match query.queryId with
  | none => s.resolveSelAnd
  | some queryId =>
    let s :=
      if sequential then sequentialSearchReference ii queryId s
      else cursorSearch ii query queryId s
    s.resolveSelAnd

/-! ## What the searches mark -/

section Searches

variable {ii : ReferenceIndex} {query : ReferenceQuery} {s : ResultSet} {queryId : ℕ}

theorem foldl_addRecord (p : ℕ → Bool) (rs : List RsetRecord) (s : ResultSet) :
    rs.foldl (fun s r => if p r.rid then s.addRecord r.rid else s) s =
      s.mark fun rid => decide (∃ r ∈ rs, r.rid = rid ∧ p rid) := by
  induction rs generalizing s with
  | nil => simp [ResultSet.mark_false]
  | cons r rs ih =>
    rw [List.foldl_cons, ih]
    split
    · rename_i hp
      rw [ResultSet.addRecord, ResultSet.mark_mark]
      refine ResultSet.mark_congr fun rid _ => ?_
      by_cases hrid : r.rid = rid
      · subst hrid
        simp [hp]
      · have hne : (rid == r.rid) = false := by simpa using fun h => hrid h.symm
        simp [hne, hrid]
    · rename_i hp
      refine ResultSet.mark_congr fun rid _ => ?_
      by_cases hrid : r.rid = rid
      · subst hrid
        simp [hp]
      · simp [hrid]

/-- One source column marks the records that show the id. -/
theorem searchSource_eq (source : SourceColumn) :
    searchSource queryId s source = s.mark fun rid => decide (queryId ∈ source.readIds rid) := by
  have h := foldl_addRecord (fun rid => decide (queryId ∈ source.readIds rid)) s.records s
  simp only [searchSource, SourceColumn.nFounds, List.count_pos_iff]
  simp only [decide_eq_true_eq] at h
  rw [h]
  refine ResultSet.mark_congr fun rid hrid => ?_
  obtain ⟨r, hr, rfl⟩ := List.mem_map.1 hrid
  refine decide_eq_decide.2 ⟨fun ⟨_, _, _, h⟩ => h, fun h => ⟨r, hr, rfl, h⟩⟩

/-- **The sequential search** marks the records for which some source column shows the id. -/
theorem sequentialSearchReference_eq :
    sequentialSearchReference ii queryId s =
      s.mark fun rid => decide (∃ source ∈ ii.sources, queryId ∈ source.readIds rid) := by
  rw [sequentialSearchReference]
  induction ii.sources generalizing s with
  | nil => simp [ResultSet.mark_false]
  | cons source sources ih =>
    rw [List.foldl_cons, ih, searchSource_eq, ResultSet.mark_mark]
    refine ResultSet.mark_congr fun rid _ => ?_
    simp

/-- In order the next posting is the one behind. -/
theorem skipPostings_sorted {p : Docid} {postings : List Docid}
    (hsorted : (p :: postings).Pairwise (· < ·)) :
    skipPostings ⟨p.rid, p.sid + 1⟩ (p :: postings) = postings := by
  rw [skipPostings_cons, skipPostings]
  cases postings with
  | nil => rfl
  | cons p' postings =>
    refine List.dropWhile_cons_of_neg ?_
    have hlt : p < p' := (List.pairwise_cons.1 hsorted).1 p' List.mem_cons_self
    simp only [decide_eq_true_eq, Docid.lt_def] at hlt ⊢
    omega

/-- **The cursor** marks the records of its postings that have a weight. -/
theorem addSelectCursor_eq {weights : WeightVector} {postings : List Docid}
    (hsorted : postings.Pairwise (· < ·)) (s : ResultSet) :
    addSelectCursor weights s postings =
      s.mark fun rid => decide (∃ p ∈ postings, p.rid = rid ∧ getWeight weights p ≠ 0) := by
  induction postings generalizing s with
  | nil => simp [addSelectCursor, ResultSet.mark_false]
  | cons p postings ih =>
    have ih := ih (List.pairwise_cons.1 hsorted).2
    rw [addSelectCursor, skipPostings_sorted hsorted]
    split
    · rename_i hzero
      rw [ih]
      refine ResultSet.mark_congr fun rid _ => decide_eq_decide.2 ?_
      simp [hzero]
    · rename_i hweight
      split
      · rename_i hout
        rw [ih]
        refine ResultSet.mark_congr fun rid hrid => decide_eq_decide.2 ?_
        have hne : p.rid ≠ rid := fun h => hout (h ▸ hrid)
        simp [hne]
      · rw [ih, ResultSet.addRecord, ResultSet.mark_mark]
        refine ResultSet.mark_congr fun rid _ => ?_
        by_cases hrid : p.rid = rid
        · subst hrid
          simp [hweight]
        · have hne : (rid == p.rid) = false := by simpa using fun h => hrid h.symm
          simp [hne, hrid]

open scoped Classical in
/-- **The search with the postings** marks the records with an element that has a weight. -/
theorem cursorSearch_eq (hid : queryId ≠ 0) :
    cursorSearch ii query queryId s =
      s.mark fun rid => decide (query.previousMin ≤ rid ∧ ∃ i source, ii.sources[i]? = some source ∧
        queryId ∈ source.ids rid ∧
        getWeight query.weights ⟨rid, if ii.withSection then i + 1 else 1⟩ ≠ 0) := by
  rw [cursorSearch, addSelectCursor_eq ((ii.sorted queryId).filter _)]
  refine ResultSet.mark_congr fun rid _ => decide_eq_decide.2 ?_
  simp only [List.mem_filter, decide_eq_true_eq, ii.agrees queryId hid]
  constructor
  · rintro ⟨⟨rid, sid⟩, ⟨⟨i, source, hsource, rfl, hmem⟩, hmin⟩, rfl, hweight⟩
    exact ⟨hmin, i, source, hsource, hmem, hweight⟩
  · rintro ⟨hmin, i, source, hsource, hmem, hweight⟩
    exact ⟨⟨rid, _⟩, ⟨⟨i, source, hsource, rfl, hmem⟩, hmin⟩, rfl, hweight⟩

end Searches

/-! ## The two searches leave the same records -/

/-- **The same records are left by both searches** if and only if for each record without a mark
from before two things are the same: that the id is read in what the sequential search looks at,
and that the record, at or behind `match_info->min`, has the id in a section with a weight. -/
theorem select_same_iff (ii : ReferenceIndex) (query : ReferenceQuery) (s : ResultSet) :
    (∀ rid, (grnIiSelect true ii query s).Has rid ↔ (grnIiSelect false ii query s).Has rid) ↔
      ∀ queryId ∈ query.queryId, ∀ r ∈ s.records, r.utilBit = false →
        ((∃ source ∈ ii.sources, queryId ∈ source.readIds r.rid) ↔
          query.previousMin ≤ r.rid ∧ ∃ i source, ii.sources[i]? = some source ∧
            queryId ∈ source.ids r.rid ∧
            getWeight query.weights ⟨r.rid, if ii.withSection then i + 1 else 1⟩ ≠ 0) := by
  classical
  simp only [grnIiSelect]
  cases hquery : query.queryId with
  | none => simp
  | some queryId =>
    have hid : queryId ≠ 0 := fun h => query.ne_nil (h ▸ hquery)
    simp only [if_true, Bool.false_eq_true, if_false, sequentialSearchReference_eq,
      cursorSearch_eq hid, ResultSet.resolve_mark_iff, decide_eq_true_eq, Option.mem_some_iff,
      forall_eq']

/-- An index over a vector with weights, in which one record refers to the terms 1 and 2. -/
def weightedIndex : ReferenceIndex where
  withSection := false
  sources := [.vector .float32 fun rid =>
    if rid = 1 then
      [⟨1, leBytes 4 0x3f800000, by decide, rfl⟩, ⟨2, leBytes 4 0x3f800000, by decide, rfl⟩]
    else []]
  postings id := if id = 1 ∨ id = 2 then [⟨1, 1⟩] else []
  sorted id := by
    split
    · exact List.pairwise_singleton _ _
    · exact List.Pairwise.nil
  agrees id _ d := by
    have hsource : ∀ {i : ℕ} {source : SourceColumn}, ([source][i]? = some source) ↔ i = 0 := by
      intro i source
      cases i <;> simp
    rcases d with ⟨rid, sid⟩
    constructor
    · intro hmem
      split at hmem
      · rename_i hid
        simp only [List.mem_singleton, Docid.mk.injEq] at hmem
        obtain ⟨rfl, rfl⟩ := hmem
        refine ⟨0, _, rfl, rfl, ?_⟩
        simpa [SourceColumn.ids] using hid
      · simp at hmem
    · rintro ⟨i, source, hi, hsid, hmem⟩
      cases i with
      | succ i => simp at hi
      | zero =>
        obtain rfl := Option.some.inj hi
        simp only [SourceColumn.ids, Bool.false_eq_true, if_false] at hmem hsid
        by_cases hrid : rid = 1
        · subst hrid
          have hid : id = 1 ∨ id = 2 := by simpa using hmem
          simp [hid, hsid]
        · simp [hrid] at hmem

/-- The second element of a vector with weights is found with the postings only. -/
theorem select_differs :
    ¬ ∀ (ii : ReferenceIndex) (query : ReferenceQuery) (s : ResultSet) (rid : ℕ),
      (grnIiSelect true ii query s).Has rid ↔ (grnIiSelect false ii query s).Has rid := by
  intro h
  let query : ReferenceQuery := ⟨some 2, .none, 0, by decide⟩
  let s : ResultSet := ⟨[⟨1, false⟩], by decide⟩
  have hsequential : ¬ (grnIiSelect true weightedIndex query s).Has 1 := by decide
  refine hsequential ((h weightedIndex query s 1).2 ?_)
  have hcursor : (addSelectCursor .none s [⟨1, 1⟩]).resolveSelAnd.Has 1 := by
    rw [addSelectCursor_eq (List.pairwise_singleton _ _), ResultSet.has_resolve_mark]
    exact ⟨⟨1, false⟩, by decide, rfl, by decide⟩
  exact hcursor

end Groonga.Ii
