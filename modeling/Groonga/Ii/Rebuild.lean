import Groonga.Ii.ColumnUpdate

/-!
# Column maintenance against a rebuild

For a fixed term, record and section, `grn_ii_column_update` acts on one posting only. The
elements of the value that are stored under the section are the components of
`Lib.Change`: indexing a value writes them in turn, replacing a value replays their
changes. The index after the replacement is therefore the one a rebuild gives exactly when
the last change of every posting is the rebuild's last write.
-/

namespace Groonga.Ii

open Lib

/-! ## Hashes of specifications -/

/-- The specifications of one value: one for each term, all of one record and section, and
each with a token behind it. -/
structure Specs.Valid (rid sid : ℕ) (specs : Specs) : Prop where
  nodup : (specs.map (·.1)).Nodup
  rid_eq : ∀ e ∈ specs, e.2.rid = rid
  sid_eq : ∀ e ∈ specs, e.2.sid = sid
  tf_ne : ∀ e ∈ specs, e.2.tf ≠ 0

@[simp] theorem updspecAdd_rid (u : Updspec) (pos weight : ℕ) :
    (updspecAdd u pos weight).rid = u.rid := by
  unfold updspecAdd
  split_ifs <;> rfl

@[simp] theorem updspecAdd_sid (u : Updspec) (pos weight : ℕ) :
    (updspecAdd u pos weight).sid = u.sid := by
  unfold updspecAdd
  split_ifs <;> rfl

theorem updspecAdd_tf_ne (u : Updspec) (pos weight : ℕ) : (updspecAdd u pos weight).tf ≠ 0 := by
  unfold updspecAdd
  split_ifs with h
  · exact fun h0 => absurd (h0 ▸ h : maxTf ≤ 0) (by decide)
  · exact Nat.succ_ne_zero _

variable {rid sid tid pos weight : ℕ}

theorem mem_specsAdd {specs : Specs} {e : ℕ × Updspec}
    (he : e ∈ specsAdd rid sid tid pos weight specs) :
    e ∈ specs ∨ e = (tid, updspecAdd (updspecOpen rid sid) pos weight) ∨
      ∃ u, (tid, u) ∈ specs ∧ e = (tid, updspecAdd u pos weight) := by
  induction specs with
  | nil =>
    rw [specsAdd, List.mem_singleton] at he
    exact .inr (.inl he)
  | cons f specs ih =>
    obtain ⟨t, u⟩ := f
    unfold specsAdd at he
    split_ifs at he with ht
    · subst ht
      rcases List.mem_cons.1 he with rfl | he
      · exact .inr (.inr ⟨u, List.mem_cons_self, rfl⟩)
      · exact .inl (List.mem_cons_of_mem _ he)
    · rcases List.mem_cons.1 he with rfl | he
      · exact .inl List.mem_cons_self
      · rcases ih he with h | h | ⟨u', hu', h⟩
        · exact .inl (List.mem_cons_of_mem _ h)
        · exact .inr (.inl h)
        · exact .inr (.inr ⟨u', List.mem_cons_of_mem _ hu', h⟩)

theorem nodup_specsAdd {specs : Specs} (h : (specs.map (·.1)).Nodup) :
    ((specsAdd rid sid tid pos weight specs).map (·.1)).Nodup := by
  induction specs with
  | nil => simp [specsAdd]
  | cons f specs ih =>
    obtain ⟨t, u⟩ := f
    rw [List.map_cons, List.nodup_cons] at h
    unfold specsAdd
    split_ifs with ht
    · simpa using h
    · rw [List.map_cons, List.nodup_cons]
      refine ⟨fun hmem => ?_, ih h.2⟩
      obtain ⟨e, he, heq⟩ := List.mem_map.1 hmem
      rcases mem_specsAdd he with hin | rfl | ⟨u', -, rfl⟩
      · exact h.1 (List.mem_map.2 ⟨e, hin, heq⟩)
      · exact ht heq.symm
      · exact ht heq.symm

namespace Specs

theorem valid_nil : Valid rid sid [] := ⟨by simp, by simp, by simp, by simp⟩

theorem Valid.add {specs : Specs} (h : Valid rid sid specs) (tid pos weight : ℕ) :
    Valid rid sid (specsAdd rid sid tid pos weight specs) where
  nodup := nodup_specsAdd h.nodup
  rid_eq e he := by
    rcases mem_specsAdd he with hin | rfl | ⟨u, hu, rfl⟩
    · exact h.rid_eq e hin
    · simp [updspecOpen]
    · simpa using h.rid_eq _ hu
  sid_eq e he := by
    rcases mem_specsAdd he with hin | rfl | ⟨u, hu, rfl⟩
    · exact h.sid_eq e hin
    · simp [updspecOpen]
    · simpa using h.sid_eq _ hu
  tf_ne e he := by
    rcases mem_specsAdd he with hin | rfl | ⟨u, hu, rfl⟩
    · exact h.tf_ne e hin
    · exact updspecAdd_tf_ne _ _ _
    · exact updspecAdd_tf_ne _ _ _

theorem Valid.foldl_add {α : Type*} (f : α → ℕ × ℕ × ℕ) (l : List α) {specs : Specs}
    (h : Valid rid sid specs) :
    Valid rid sid
      (l.foldl (fun specs a => specsAdd rid sid (f a).1 (f a).2.1 (f a).2.2 specs) specs) := by
  induction l generalizing specs with
  | nil => exact h
  | cons a l ih => exact ih (h.add _ _ _)

theorem Valid.of_cons {e : ℕ × Updspec} {specs : Specs} (h : Valid rid sid (e :: specs)) :
    Valid rid sid specs where
  nodup := (List.nodup_cons.1 h.nodup).2
  rid_eq f hf := h.rid_eq f (List.mem_cons_of_mem _ hf)
  sid_eq f hf := h.sid_eq f (List.mem_cons_of_mem _ hf)
  tf_ne f hf := h.tf_ne f (List.mem_cons_of_mem _ hf)

theorem Valid.filter {specs : Specs} (h : Valid rid sid specs) (p : ℕ × Updspec → Bool) :
    Valid rid sid (specs.filter p) where
  nodup := h.nodup.sublist (List.filter_sublist.map _)
  rid_eq e he := h.rid_eq e (List.mem_of_mem_filter he)
  sid_eq e he := h.sid_eq e (List.mem_of_mem_filter he)
  tf_ne e he := h.tf_ne e (List.mem_of_mem_filter he)

theorem lookup_eq_none {specs : Specs} {t : ℕ} (h : t ∉ specs.map (·.1)) :
    specs.lookup t = none := by
  simp only [List.lookup_eq_none_iff, List.mem_map, not_exists, not_and] at *
  exact fun e he => by simpa using fun heq => h e he heq.symm

theorem lookup_filter_ne (specs : Specs) (k t : ℕ) :
    (specs.filter (·.1 ≠ k)).lookup t = if t = k then none else specs.lookup t := by
  induction specs with
  | nil => simp
  | cons e specs ih =>
    obtain ⟨t', u⟩ := e
    by_cases ht' : t' = k
    · subst ht'
      by_cases ht : t = t'
      · simp [ht] at ih ⊢
        exact ih
      · simp only [ht, ne_eq, not_true_eq_false, decide_false, Bool.false_eq_true,
          not_false_eq_true, List.filter_cons_of_neg, if_false] at ih ⊢
        rw [ih, List.lookup_cons, beq_false_of_ne ht]
    · by_cases ht : t = t'
      · subst ht
        simp [ht']
      · have hb : (t == t') = false := beq_false_of_ne ht
        rw [List.filter_cons_of_pos (by simpa using ht'), List.lookup_cons, List.lookup_cons, hb]
        exact ih

end Specs

namespace Schema

variable (ii : Schema)

/-- The specifications of a value, when the lexicon lacks no term it accepts. -/
def termSpecs (rid originalSection sid : ℕ) : Option Value → Specs
  | none => []
  | some v =>
    (ii.items rid originalSection v).foldl
      (fun specs item => ii.addTokens rid sid item (Token.accepted (ii.tokenize item.query)) specs)
      (addReferences rid sid (ii.references v) [])

/-- Every term of the value can be looked up. -/
def Known (rid originalSection : ℕ) (v : Option Value) (lexicon : List ℕ) : Prop :=
  ∀ v' ∈ v, ∀ item ∈ ii.items rid originalSection v', Token.Known (ii.tokenize item.query) lexicon

variable {ii}

theorem Known.mono {rid originalSection : ℕ} {v : Option Value} {l l' : List ℕ}
    (h : ii.Known rid originalSection v l) (hl : l ⊆ l') : ii.Known rid originalSection v l' :=
  fun v' hv' item hitem => (h v' hv' item hitem).mono hl

theorem valid_termSpecs (rid originalSection sid : ℕ) (v : Option Value) :
    (ii.termSpecs rid originalSection sid v).Valid rid sid := by
  cases v with
  | none => exact Specs.valid_nil
  | some v =>
    have hrefs : (addReferences rid sid (ii.references v) []).Valid rid sid :=
      Specs.valid_nil.foldl_add (fun e : (ℕ × ℕ) × ℕ => (e.1.1, e.2, e.1.2)) _
    simp only [termSpecs]
    generalize addReferences rid sid (ii.references v) [] = specs at hrefs ⊢
    generalize ii.items rid originalSection v = items
    induction items generalizing specs with
    | nil => exact hrefs
    | cons item items ih =>
      exact ih _ (hrefs.foldl_add (fun t : Token =>
        (t.tid, if ii.haveTokenizer then t.pos else item.index, item.weight)) _)

theorem subset_foldl_addItem (mode : TokenizeMode) (items : List Item) (s : Specs × List ℕ) :
    s.2 ⊆ (items.foldl (ii.addItem mode rid sid) s).2 := by
  induction items generalizing s with
  | nil => exact List.Subset.refl _
  | cons item items ih =>
    exact List.Subset.trans (Token.subset_read mode (ii.tokenize item.query) s.2)
      (ih (ii.addItem mode rid sid s item))

theorem subset_updspecs (mode : TokenizeMode) (rid originalSection sid : ℕ) (v : Option Value)
    (lexicon : List ℕ) : lexicon ⊆ (ii.updspecs mode rid originalSection sid v lexicon).2 := by
  cases v with
  | none => exact List.Subset.refl _
  | some v =>
    exact subset_foldl_addItem mode (ii.items rid originalSection v)
      (addReferences rid sid (ii.references v) [], lexicon)

/-- A new value gets all its specifications. -/
theorem updspecs_add (rid originalSection sid : ℕ) (v : Option Value) (lexicon : List ℕ) :
    (ii.updspecs .add rid originalSection sid v lexicon).1 =
      ii.termSpecs rid originalSection sid v := by
  cases v with
  | none => rfl
  | some v =>
    exact foldl_entry (ii.addItem .add rid sid) Prod.fst _
      (fun s item => by simp [addItem, Token.read_add]) _ _

/-- After a value has been added, all its terms are known. -/
theorem known_updspecs_add (rid originalSection sid : ℕ) (v : Option Value) (lexicon : List ℕ) :
    ii.Known rid originalSection v (ii.updspecs .add rid originalSection sid v lexicon).2 := by
  rintro v' rfl item hitem
  simp only [updspecs]
  generalize (addReferences rid sid (ii.references v') [], lexicon) = s
  revert hitem
  generalize ii.items rid originalSection v' = items
  intro hitem
  induction items generalizing s with
  | nil => simp at hitem
  | cons item' items ih =>
    rcases List.mem_cons.1 hitem with rfl | hitem
    · exact (Token.known_read_add (ii.tokenize item.query) s.2).mono
        (subset_foldl_addItem .add items (ii.addItem .add rid sid s item))
    · exact ih _ hitem

/-- An old value whose terms are known gets the specifications it was added with. -/
theorem updspecs_del {originalSection : ℕ} {v : Option Value} {lexicon : List ℕ}
    (h : ii.Known rid originalSection v lexicon) :
    ii.updspecs .del rid originalSection sid v lexicon =
      (ii.termSpecs rid originalSection sid v, lexicon) := by
  cases v with
  | none => rfl
  | some v =>
    have hitems := h v rfl
    simp only [updspecs, termSpecs]
    generalize addReferences rid sid (ii.references v) [] = specs
    generalize ii.items rid originalSection v = items at hitems
    induction items generalizing specs with
    | nil => rfl
    | cons item items ih =>
      rw [List.foldl_cons, List.foldl_cons, ← ih _ fun i hi => hitems i (List.mem_cons_of_mem _ hi)]
      simp [addItem, Token.read_del (hitems item List.mem_cons_self)]

/-! ## One section, one posting -/

/-- What the two loops do to the posting of a term, as the change of one component. -/
def change (ii : Schema) (rid originalSection sid : ℕ) (old new : Option Value) (t : ℕ) :
    Change Posting :=
  let o := (ii.termSpecs rid originalSection sid old).lookup t
  let n := (ii.termSpecs rid originalSection sid new).lookup t
  { old := o.map ii.storedPosting
    new := n.map ii.storedPosting
    skipped := ii.doUpdspecCmp new && o.any fun u => n.any fun un => updspecCmp u un = 0 }

theorem sound_change (rid originalSection sid : ℕ) (old new : Option Value) (t : ℕ) :
    (ii.change rid originalSection sid old new t).Sound := by
  intro h
  simp only [change, Bool.and_eq_true, Option.any_eq_true, decide_eq_true_eq] at h
  obtain ⟨-, u, hu, un, hun, hcmp⟩ := h
  simp [change, hu, hun, storedPosting_eq_of_updspecCmp hcmp]

/-- The loop over the new specifications, at one term. -/
theorem foldl_updateOne_apply {specs : Specs} (h : specs.Valid rid sid) (hsid : sid ≠ 0)
    (p : Postings) (t r s : ℕ) :
    specs.foldl (fun p e => p.updateOne ii.toLayout e.1 e.2) p t r s =
      if t ≠ 0 ∧ r = rid ∧ s = ii.storedSid sid then
        ((specs.lookup t).map ii.storedPosting).or (p t r s)
      else p t r s := by
  induction specs generalizing p with
  | nil => simp
  | cons e specs ih =>
    obtain ⟨k, u⟩ := e
    obtain rfl : u.rid = rid := h.rid_eq _ List.mem_cons_self
    obtain rfl : u.sid = sid := h.sid_eq _ List.mem_cons_self
    have hk : k ∉ specs.map (·.1) := (List.nodup_cons.1 h.nodup).1
    have htf : u.tf ≠ 0 := h.tf_ne _ List.mem_cons_self
    rw [List.foldl_cons, ih h.of_cons]
    rcases eq_or_ne k 0 with rfl | hk0
    · simp only [Postings.updateOne_zero]
      split_ifs with hcell
      · rw [List.lookup_cons, beq_false_of_ne hcell.1]
      · rfl
    · rw [Postings.updateOne_apply hk0 htf hsid]
      rcases eq_or_ne t k with rfl | htk
      · simp only [Specs.lookup_eq_none hk, List.lookup_cons_self, true_and, hk0, ne_eq,
          not_false_eq_true]
        split_ifs <;> simp
      · simp [List.lookup_cons, beq_false_of_ne htk, htk]

/-- May the term be skipped? -/
def skips (doCmp : Bool) (o n : Option Updspec) : Bool :=
  doCmp && o.any fun u => n.any fun un => updspecCmp u un = 0

/-- One pass of the loop over the old specifications leaves the other terms alone. -/
theorem compareOld_of_ne {doCmp : Bool} {n : Specs} {p : Postings} {k : ℕ} {u : Updspec} {t : ℕ}
    (ht : t ≠ k) :
    (ii.compareOld doCmp (n, p) (k, u)).1.lookup t = n.lookup t ∧
      (ii.compareOld doCmp (n, p) (k, u)).2 t = p t := by
  unfold compareOld
  cases hn : n.lookup k with
  | none =>
    refine ⟨rfl, ?_⟩
    funext r s
    simp only [Postings.deleteOne]
    split_ifs with hk0
    · rfl
    · simp [ht]
  | some un =>
    simp only
    split_ifs with hskip
    · exact ⟨by rw [Specs.lookup_filter_ne, if_neg ht], rfl⟩
    · exact ⟨rfl, rfl⟩

/-- One pass of the loop over the old specifications, at its own term. -/
theorem compareOld_self {doCmp : Bool} {n : Specs} {p : Postings} {k : ℕ} {u : Updspec}
    (hrid : u.rid = rid) (hsid : u.sid = sid) (h0 : sid ≠ 0) :
    (ii.compareOld doCmp (n, p) (k, u)).1.lookup k =
        (if skips doCmp (some u) (n.lookup k) then none else n.lookup k) ∧
      ∀ r s, (ii.compareOld doCmp (n, p) (k, u)).2 k r s =
        if k ≠ 0 ∧ r = rid ∧ s = ii.storedSid sid ∧ n.lookup k = none then none else p k r s := by
  subst hrid hsid
  unfold compareOld
  cases hn : n.lookup k with
  | none =>
    refine ⟨by simp [hn, skips], fun r s => ?_⟩
    rcases eq_or_ne k 0 with rfl | hk0
    · simp
    · simp [Postings.deleteOne_apply hk0 h0, hk0]
  | some un =>
    cases hskip : skips doCmp (some u) (some un) with
    | true =>
      have hcmp : (doCmp && decide (updspecCmp u un = 0)) = true := hskip
      simp only [hcmp, if_true]
      exact ⟨by rw [Specs.lookup_filter_ne, if_pos rfl], fun r s => by simp⟩
    | false =>
      have hcmp : (doCmp && decide (updspecCmp u un = 0)) = false := hskip
      simp only [hcmp, Bool.false_eq_true, if_false]
      exact ⟨hn, fun r s => by simp⟩

theorem valid_compareOld {doCmp : Bool} {n : Specs} (h : n.Valid rid sid) (p : Postings)
    (e : ℕ × Updspec) : (ii.compareOld doCmp (n, p) e).1.Valid rid sid := by
  unfold compareOld
  cases n.lookup e.1 with
  | none => exact h
  | some un =>
    simp only
    split_ifs with hskip
    · exact h.filter _
    · exact h

/-- **The loop over the old specifications**, at one term: it drops the new specification if
the two compare equal, and deletes the posting if there is no new one. -/
theorem foldl_compareOld (ii : Schema) (doCmp : Bool) {o n : Specs} (ho : o.Valid rid sid)
    (hn : n.Valid rid sid) (h0 : sid ≠ 0) (p : Postings) :
    (o.foldl (ii.compareOld doCmp) (n, p)).1.Valid rid sid ∧
      ∀ t, (o.foldl (ii.compareOld doCmp) (n, p)).1.lookup t =
          (if skips doCmp (o.lookup t) (n.lookup t) then none else n.lookup t) ∧
        ∀ r s, (o.foldl (ii.compareOld doCmp) (n, p)).2 t r s =
          if t ≠ 0 ∧ r = rid ∧ s = ii.storedSid sid ∧ n.lookup t = none ∧ (o.lookup t).isSome
          then none else p t r s := by
  induction o generalizing n p with
  | nil => exact ⟨hn, fun t => ⟨by simp [skips], fun r s => by simp⟩⟩
  | cons e o ih =>
    obtain ⟨k, u⟩ := e
    have hk : k ∉ o.map (·.1) := (List.nodup_cons.1 ho.nodup).1
    obtain ⟨hvalid, hrest⟩ := ih ho.of_cons (valid_compareOld hn p (k, u))
      (ii.compareOld doCmp (n, p) (k, u)).2
    refine ⟨hvalid, fun t => ?_⟩
    obtain ⟨hlookup, hcell⟩ := hrest t
    rw [List.foldl_cons]
    rcases eq_or_ne t k with rfl | htk
    · -- the rest of the loop has no entry for this term
      obtain ⟨hself, hpself⟩ := @compareOld_self _ _ ii doCmp n p t u (ho.rid_eq _ List.mem_cons_self) (ho.sid_eq _ List.mem_cons_self) h0
      have hnone : o.lookup t = none := Specs.lookup_eq_none hk
      refine ⟨?_, fun r s => ?_⟩
      · rw [hlookup, hnone, hself, List.lookup_cons_self]
        simp [skips]
      · rw [hcell, hnone, hpself, List.lookup_cons_self, if_neg (by simp)]
        exact if_congr (by simp) rfl rfl
    · obtain ⟨hne, hpne⟩ := @compareOld_of_ne ii doCmp n p k u t htk
      have hcons : ((k, u) :: o).lookup t = o.lookup t := by
        rw [List.lookup_cons, beq_false_of_ne htk]
      refine ⟨?_, fun r s => ?_⟩
      · rw [hlookup, hne, hcons]
      · rw [hcell, hne, hpne, hcons]

/-- The two loops together are the change of one component. -/
theorem or_eq_apply (doCmp : Bool) (o n : Option Updspec) (f : Updspec → Posting)
    (cell : Option Posting) :
    ((if skips doCmp o n then none else n).map f).or
        (if n = none ∧ o.isSome then none else cell) =
      Change.apply cell ⟨o.map f, n.map f, skips doCmp o n⟩ := by
  cases hskip : skips doCmp o n with
  | true =>
    obtain ⟨un, rfl⟩ : ∃ un, n = some un := by
      refine Option.ne_none_iff_exists'.1 fun hnone => ?_
      simp [skips, hnone] at hskip
    simp [Change.apply]
  | false => cases n <;> simp [Change.apply]

/-- **One section.** The update of a section is the change of its component at the cell of
that section, and touches nothing else. -/
theorem updateSection_postings {s : ColumnIndex} {originalSection : ℕ} {old : Option Value}
    (hold : ii.Known rid originalSection old s.lexicon) (h0 : sid ≠ 0) (new : Option Value)
    (t r k : ℕ) :
    (ii.updateSection s rid originalSection sid old new).postings t r k =
      if t ≠ 0 ∧ r = rid ∧ k = ii.storedSid sid then
        (ii.change rid originalSection sid old new t).apply (s.postings t r k)
      else s.postings t r k := by
  have hdel : ii.updspecs .del rid originalSection sid old
      (ii.updspecs .add rid originalSection sid new s.lexicon).2 =
      (ii.termSpecs rid originalSection sid old,
        (ii.updspecs .add rid originalSection sid new s.lexicon).2) :=
    updspecs_del (hold.mono (subset_updspecs .add rid originalSection sid new s.lexicon))
  simp only [updateSection, hdel, updspecs_add]
  obtain ⟨hvalid, hloop⟩ := foldl_compareOld ii (ii.doUpdspecCmp new)
    (valid_termSpecs rid originalSection sid old) (valid_termSpecs rid originalSection sid new)
    h0 s.postings
  obtain ⟨hlookup, hcell⟩ := hloop t
  rw [foldl_updateOne_apply hvalid h0, hlookup, hcell]
  by_cases hk : t ≠ 0 ∧ r = rid ∧ k = ii.storedSid sid
  · obtain ⟨ht, rfl, rfl⟩ := hk
    simp only [ht, ne_eq, not_false_eq_true, and_self, true_and, if_true]
    exact or_eq_apply _ _ _ _ _
  · rw [if_neg hk, if_neg hk, if_neg fun h => hk ⟨h.1, h.2.1, h.2.2.1⟩]

theorem subset_updateSection (s : ColumnIndex) (rid originalSection sid : ℕ)
    (old new : Option Value) :
    s.lexicon ⊆ (ii.updateSection s rid originalSection sid old new).lexicon :=
  List.Subset.trans (subset_updspecs .add rid originalSection sid new s.lexicon)
    (subset_updspecs .del rid originalSection sid old _)

theorem known_updateSection (s : ColumnIndex) (rid originalSection sid : ℕ)
    (old new : Option Value) :
    ii.Known rid originalSection new
      (ii.updateSection s rid originalSection sid old new).lexicon :=
  (known_updspecs_add rid originalSection sid new s.lexicon).mono
    (subset_updspecs .del rid originalSection sid old _)

@[simp] theorem updateSection_none (s : ColumnIndex) (rid originalSection sid : ℕ) :
    ii.updateSection s rid originalSection sid none none = s := rfl

/-! ## The elements of a value -/

/-- Is the value taken apart into its elements? -/
def splits (ii : Schema) (v : Value) : Bool := ii.haveTokenizer && v.isTextVector

/-- How many sections the value takes. -/
def nComponents (ii : Schema) : Option Value → ℕ
  | none => 0
  | some v => if ii.splits v then vectorSize (some v) else 1

/-- The part of the value that goes to the section `i` after the first. -/
def component (ii : Schema) (v : Option Value) (i : ℕ) : Option Value :=
  match v with
  | none => none
  | some v => if ii.splits v then vectorElement (some v) i else if i = 0 then some v else none

/-- Values of one column: both are text vectors, or neither is. -/
def SameColumn (old new : Option Value) : Prop :=
  ∀ o ∈ old, ∀ n ∈ new, o.isTextVector = n.isTextVector

theorem vectorElement_of_le {v : Option Value} {i : ℕ} (h : vectorSize v ≤ i) :
    vectorElement v i = none := by
  match v with
  | none => rfl
  | some (.bulk ..) => rfl
  | some (.references ..) => rfl
  | some (.numbers ..) => rfl
  | some (.vector domain sections) =>
    have : sections[i]? = none := List.getElem?_eq_none h
    simp [vectorElement, this]

theorem component_of_le {v : Option Value} {i : ℕ} (h : ii.nComponents v ≤ i) :
    ii.component v i = none := by
  cases v with
  | none => rfl
  | some v =>
    simp only [nComponents] at h
    simp only [component]
    split_ifs at h ⊢ with hsplit hi
    · exact vectorElement_of_le h
    · exact absurd h (by simp [hi])
    · rfl

theorem component_of_splits {v : Option Value} (h : ∀ x ∈ v, ii.splits x = true) :
    ii.component v = vectorElement v ∧ ii.nComponents v = vectorSize v := by
  cases v with
  | none => exact ⟨rfl, rfl⟩
  | some v => exact ⟨funext fun i => by simp [component, h v rfl], by simp [nComponents, h v rfl]⟩

theorem component_of_not_splits {v : Option Value} (h : ∀ x ∈ v, ii.splits x = false) :
    ii.component v 0 = v ∧ ii.nComponents v ≤ 1 := by
  cases v with
  | none => exact ⟨rfl, zero_le_one⟩
  | some v => exact ⟨by simp [component, h v rfl], by simp [nComponents, h v rfl]⟩

theorem sameColumn_none_left (v : Option Value) : SameColumn none v := by
  intro o ho
  cases ho

/-- Of two values of one column either both are taken apart or none is. -/
theorem isTextVectorIndex_cases (ii : Schema) {old new : Option Value} (h : SameColumn old new) :
    (ii.isTextVectorIndex old new = true ∧
        (∀ x ∈ old, ii.splits x = true) ∧ ∀ x ∈ new, ii.splits x = true) ∨
      (ii.isTextVectorIndex old new = false ∧
        (∀ x ∈ old, ii.splits x = false) ∧ ∀ x ∈ new, ii.splits x = false) := by
  cases htok : ii.haveTokenizer with
  | false => exact .inr ⟨by simp [isTextVectorIndex, htok], by simp [splits, htok]⟩
  | true =>
    cases old with
    | none =>
      cases new with
      | none => exact .inr ⟨by simp [isTextVectorIndex], by simp⟩
      | some n => cases hn : n.isTextVector <;> simp [isTextVectorIndex, splits, htok, hn]
    | some o =>
      cases new with
      | none => cases ho : o.isTextVector <;> simp [isTextVectorIndex, splits, htok, ho]
      | some n =>
        have hsame : o.isTextVector = n.isTextVector := h o rfl n rfl
        cases hn : n.isTextVector <;>
          simp [isTextVectorIndex, splits, htok, hsame, hn]

/-- One pass of the loop over the elements. -/
def updateComponent (ii : Schema) (rid sid : ℕ) (old new : Option Value) (s : ColumnIndex)
    (i : ℕ) : ColumnIndex :=
  ii.updateSection s rid sid (sid + i) (ii.component old i) (ii.component new i)

/-- Passes beyond both values do nothing. -/
theorem foldl_updateComponent_of_le {old new : Option Value} {m N : ℕ} (hm : m ≤ N)
    (hold : ii.nComponents old ≤ m) (hnew : ii.nComponents new ≤ m) (s : ColumnIndex) :
    (List.range N).foldl (ii.updateComponent rid sid old new) s =
      (List.range m).foldl (ii.updateComponent rid sid old new) s := by
  induction N, hm using Nat.le_induction with
  | base => rfl
  | succ N hmN ih =>
    rw [List.range_succ, List.foldl_append, ih, List.foldl_cons, List.foldl_nil, updateComponent,
      component_of_le (hold.trans hmN), component_of_le (hnew.trans hmN), updateSection_none]

/-- **The loop over the elements** is how the update treats every value, a value that is not
taken apart being its own only element. -/
theorem columnUpdate_eq_foldl {s : ColumnIndex} {old new : Option Value} {N : ℕ}
    (hrid : rid ≠ 0) (hsame : SameColumn old new) (hold : ii.nComponents old ≤ N)
    (hnew : ii.nComponents new ≤ N) :
    ii.columnUpdate s rid sid old new =
      (List.range N).foldl (ii.updateComponent rid sid old new) s := by
  rw [columnUpdate, if_neg hrid]
  rcases isTextVectorIndex_cases ii hsame with ⟨hindex, ho, hn⟩ | ⟨hindex, ho, hn⟩
  · obtain ⟨hoc, hon⟩ := component_of_splits ho
    obtain ⟨hnc, hnn⟩ := component_of_splits hn
    rw [if_pos hindex, ← hon, ← hnn, foldl_updateComponent_of_le (max_le hold hnew)
      (le_max_left _ _) (le_max_right _ _)]
    refine List.foldl_ext _ _ _ fun s i _ => ?_
    rw [updateComponent, hoc, hnc]
  · obtain ⟨hoc, hon⟩ := component_of_not_splits ho
    obtain ⟨hnc, hnn⟩ := component_of_not_splits hn
    have hone : ii.updateSection s rid sid sid old new =
        (List.range 1).foldl (ii.updateComponent rid sid old new) s := by
      simp [updateComponent, hoc, hnc]
    rw [hindex, if_neg Bool.false_ne_true, hone]
    rcases le_total 1 N with hN | hN
    · rw [foldl_updateComponent_of_le hN hon hnn]
    · rw [foldl_updateComponent_of_le hN hold hnew]

/-! ## One posting through all elements -/

/-- The changes of the elements that are stored under the section `k`. -/
def changesAt (ii : Schema) (rid sid : ℕ) (old new : Option Value) (t k : ℕ) (l : List ℕ) :
    List (Change Posting) :=
  (l.filter fun i => ii.storedSid (sid + i) = k).map fun i =>
    ii.change rid sid (sid + i) (ii.component old i) (ii.component new i) t

theorem foldl_updateComponent_postings {old new : Option Value} (h0 : sid ≠ 0) (l : List ℕ)
    {s : ColumnIndex} (hold : ∀ i ∈ l, ii.Known rid sid (ii.component old i) s.lexicon)
    (t r k : ℕ) :
    (l.foldl (ii.updateComponent rid sid old new) s).postings t r k =
      if t ≠ 0 ∧ r = rid then
        (ii.changesAt rid sid old new t k l).foldl Change.apply (s.postings t r k)
      else s.postings t r k := by
  induction l generalizing s with
  | nil => simp [changesAt]
  | cons i l ih =>
    have hstep := updateSection_postings (hold i List.mem_cons_self)
      (Nat.add_pos_left (Nat.pos_of_ne_zero h0) i).ne' (ii.component new i) t r k
    have hknown : ∀ j ∈ l, ii.Known rid sid (ii.component old j)
        (ii.updateComponent rid sid old new s i).lexicon := fun j hj =>
      (hold j (List.mem_cons_of_mem _ hj)).mono (subset_updateSection _ _ _ _ _ _)
    rw [List.foldl_cons, ih hknown, updateComponent, hstep]
    by_cases hcell : t ≠ 0 ∧ r = rid
    · by_cases hk : ii.storedSid (sid + i) = k
      · subst hk
        simp [hcell, changesAt]
      · simp [hcell, changesAt, hk, Ne.symm hk]
    · rw [if_neg hcell, if_neg hcell, if_neg fun h => hcell ⟨h.1, h.2.1⟩]

/-- After a value has been indexed, the terms of all its elements are known. -/
theorem known_foldl_updateComponent {old new : Option Value} (l : List ℕ) (s : ColumnIndex) :
    (∀ i ∈ l, ii.Known rid sid (ii.component new i)
      (l.foldl (ii.updateComponent rid sid old new) s).lexicon) ∧
    s.lexicon ⊆ (l.foldl (ii.updateComponent rid sid old new) s).lexicon := by
  induction l generalizing s with
  | nil => exact ⟨by simp, List.Subset.refl _⟩
  | cons i l ih =>
    obtain ⟨hl, hsub⟩ := ih (ii.updateComponent rid sid old new s i)
    refine ⟨fun j hj => ?_, List.Subset.trans (subset_updateSection _ _ _ _ _ _) hsub⟩
    rcases List.mem_cons.1 hj with rfl | hj
    · exact (known_updateSection s rid sid (sid + j) (ii.component old j) _).mono hsub
    · exact hl j hj

/-- Indexing a value writes its elements in turn. -/
theorem foldl_apply_changesAt_none (new : Option Value) (t k : ℕ) (l : List ℕ)
    (cell : Option Posting) :
    (ii.changesAt rid sid none new t k l).foldl Change.apply cell =
      written ((ii.changesAt rid sid none new t k l).map (·.new)) cell := by
  unfold changesAt written
  rw [List.map_map, List.foldl_map, List.foldl_map]
  refine List.foldl_ext _ _ _ fun cell i _ => ?_
  have hold : ii.component none i = none := rfl
  cases h : (ii.termSpecs rid sid (sid + i) (ii.component new i)).lookup t <;>
    simp [hold, change, Change.apply, h, termSpecs.eq_1]

theorem map_new_changesAt (old old' new : Option Value) (t k : ℕ) (l : List ℕ) :
    (ii.changesAt rid sid old new t k l).map (·.new) =
      (ii.changesAt rid sid old' new t k l).map (·.new) := by
  simp [changesAt, change]

theorem map_old_changesAt (old new : Option Value) (t k : ℕ) (l : List ℕ) :
    (ii.changesAt rid sid old new t k l).map (·.old) =
      (ii.changesAt rid sid none old t k l).map (·.new) := by
  simp [changesAt, change]

theorem sound_of_mem_changesAt {old new : Option Value} {t k : ℕ} {l : List ℕ}
    {c : Change Posting} (hc : c ∈ ii.changesAt rid sid old new t k l) : c.Sound := by
  obtain ⟨i, -, rfl⟩ := List.mem_map.1 hc
  exact sound_change _ _ _ _ _ _

/-! ## The rebuild -/

/-- The index has no posting yet where the values are to be stored. -/
def Vacant (ii : Schema) (b : ColumnIndex) (rid sid : ℕ) (old new : Option Value) : Prop :=
  ∀ t, ∀ i < max (ii.nComponents old) (ii.nComponents new),
    b.postings t rid (ii.storedSid (sid + i)) = none

/-- Replacing `old` by `new` in an index that contains `old` gives the postings of an index
that never did, and replacing a value by itself changes nothing. -/
def MatchesRebuild (ii : Schema) (b : ColumnIndex) (rid sid : ℕ) (old new : Option Value) :
    Prop :=
  (ii.columnUpdate (ii.columnUpdate b rid sid none old) rid sid old new).postings =
      (ii.columnUpdate b rid sid none new).postings ∧
    (old = new →
      (ii.columnUpdate (ii.columnUpdate b rid sid none old) rid sid old new).postings =
        (ii.columnUpdate b rid sid none old).postings)

/-- The elements of the two values together. -/
def indexes (ii : Schema) (old new : Option Value) : List ℕ :=
  List.range (max (ii.nComponents old) (ii.nComponents new))

/-- The changes of a term, element by element. -/
def changes (ii : Schema) (rid sid : ℕ) (old new : Option Value) (t : ℕ) :
    List (Change Posting) :=
  (ii.indexes old new).map fun i =>
    ii.change rid sid (sid + i) (ii.component old i) (ii.component new i) t

/-- With sections the elements of a value have a cell each. -/
theorem length_changesAt_le (hsec : ii.withSection = true) (old new : Option Value) (t k N : ℕ) :
    (ii.changesAt rid sid old new t k (List.range N)).length ≤ 1 := by
  have hnodup : ((List.range N).filter fun i => ii.storedSid (sid + i) = k).Nodup :=
    List.nodup_range.filter _
  have heq : ∀ i ∈ (List.range N).filter fun i => ii.storedSid (sid + i) = k, sid + i = k := by
    intro i hi
    simpa [Layout.storedSid, hsec] using (List.mem_filter.1 hi).2
  rw [changesAt, List.length_map]
  match h : (List.range N).filter fun i => ii.storedSid (sid + i) = k with
  | [] => exact zero_le_one
  | [_] => exact le_refl 1
  | i :: j :: l =>
    rw [h] at hnodup heq
    have hij : i = j := by
      have hi := heq i (by simp)
      have hj := heq j (by simp)
      exact Nat.add_left_cancel (hi.trans hj.symm)
    simp [hij] at hnodup

/-- Without sections the elements of a value share the cell of section 1. -/
theorem changesAt_eq (hsec : ii.withSection = false) (old new : Option Value) (t k : ℕ) :
    ii.changesAt rid sid old new t k
        (ii.indexes old new) =
      if k = 1 then ii.changes rid sid old new t else [] := by
  rcases eq_or_ne k 1 with rfl | hk
  · simp [changesAt, changes, Layout.storedSid, hsec]
  · simp [changesAt, Layout.storedSid, hsec, hk, Ne.symm hk]

/-- The three indexes at the cell `(t, rid, k)`. -/
theorem columnUpdate_postings (ii : Schema) (b : ColumnIndex) {old new : Option Value} (hrid : rid ≠ 0)
    (h0 : sid ≠ 0) (hsame : SameColumn old new) (t r k : ℕ) :
    (ii.columnUpdate (ii.columnUpdate b rid sid none old) rid sid old new).postings t r k =
        (if t ≠ 0 ∧ r = rid then
          (ii.changesAt rid sid old new t k
            (ii.indexes old new)).foldl Change.apply
            (written ((ii.changesAt rid sid old new t k
              (ii.indexes old new)).map (·.old))
              (b.postings t r k))
        else b.postings t r k) ∧
      (ii.columnUpdate b rid sid none new).postings t r k =
        if t ≠ 0 ∧ r = rid then
          written ((ii.changesAt rid sid old new t k
            (ii.indexes old new)).map (·.new))
            (b.postings t r k)
        else b.postings t r k := by
  simp only [indexes]
  set N := max (ii.nComponents old) (ii.nComponents new) with hN
  have hunknown : ∀ (s : ColumnIndex), ∀ i ∈ List.range N,
      ii.Known rid sid (ii.component none i) s.lexicon := fun s i _ v hv => by cases hv
  have hindexed : ii.columnUpdate b rid sid none old =
      (List.range N).foldl (ii.updateComponent rid sid none old) b :=
    columnUpdate_eq_foldl hrid (sameColumn_none_left old) (Nat.zero_le _) (le_max_left _ _)
  have hknown : ∀ i ∈ List.range N, ii.Known rid sid (ii.component old i)
      (ii.columnUpdate b rid sid none old).lexicon := by
    rw [hindexed]
    exact (known_foldl_updateComponent (List.range N) b).1
  constructor
  · rw [columnUpdate_eq_foldl hrid hsame (le_max_left _ _) (le_max_right _ _), ← hN,
      foldl_updateComponent_postings h0 _ hknown, hindexed,
      foldl_updateComponent_postings h0 _ (hunknown b), foldl_apply_changesAt_none,
      map_old_changesAt]
    split_ifs <;> rfl
  · rw [columnUpdate_eq_foldl hrid (sameColumn_none_left new) (Nat.zero_le _) (le_max_right _ _),
      ← hN, foldl_updateComponent_postings h0 _ (hunknown b), foldl_apply_changesAt_none,
      map_new_changesAt none old]

/-- A cell matches the rebuild exactly when the last change of the posting is kept. -/
theorem cell_eq_iff {b : ColumnIndex} {old new : Option Value} (hvacant : ii.Vacant b rid sid old new)
    (t k : ℕ) :
    ((ii.changesAt rid sid old new t k
        (ii.indexes old new)).foldl Change.apply
        (written ((ii.changesAt rid sid old new t k
          (ii.indexes old new)).map (·.old))
          (b.postings t rid k)) =
      written ((ii.changesAt rid sid old new t k
        (ii.indexes old new)).map (·.new))
        (b.postings t rid k)) ↔
      Change.LastKept (ii.changesAt rid sid old new t k
        (ii.indexes old new)) := by
  rcases h : (ii.indexes old new).filter
      fun i => ii.storedSid (sid + i) = k with _ | ⟨i, l⟩
  · -- no element is stored under this section
    simp [changesAt, h, Change.LastKept, Change.last]
  · have hi : i ∈ (ii.indexes old new).filter
        fun i => ii.storedSid (sid + i) = k := by rw [h]; exact List.mem_cons_self
    rw [List.mem_filter, indexes, List.mem_range, decide_eq_true_eq] at hi
    rw [← hi.2, hvacant t i hi.1]
    exact Change.foldl_apply_eq_written_iff fun c hc => sound_of_mem_changesAt hc

/-- **Maintenance against a rebuild.** Where the elements of a value share a posting, the
maintained index is the rebuilt one exactly when, for every term, the last element whose
posting of the term is touched has the posting the new value ends up with. Otherwise it always
is. -/
theorem matchesRebuild_iff {b : ColumnIndex} {old new : Option Value} (hrid : rid ≠ 0)
    (hsid : sid ≠ 0) (hsame : SameColumn old new) (hvacant : ii.Vacant b rid sid old new) :
    ii.MatchesRebuild b rid sid old new ↔
      ii.withSection = true ∨ ∀ t ≠ 0, Change.LastKept (ii.changes rid sid old new t) := by
  have hfst : ii.MatchesRebuild b rid sid old new ↔
      ∀ t ≠ 0, ∀ k, Change.LastKept (ii.changesAt rid sid old new t k
        (ii.indexes old new)) := by
    constructor
    · rintro ⟨hmatch, -⟩ t ht k
      obtain ⟨hl, hr⟩ := columnUpdate_postings ii b hrid hsid hsame t rid k
      rw [hmatch, hr, if_pos ⟨ht, rfl⟩, if_pos ⟨ht, rfl⟩] at hl
      exact (cell_eq_iff hvacant t k).1 hl.symm
    · intro hkept
      have hmatch : (ii.columnUpdate (ii.columnUpdate b rid sid none old) rid sid old new).postings =
          (ii.columnUpdate b rid sid none new).postings := by
        funext t r k
        obtain ⟨hl, hr⟩ := columnUpdate_postings ii b hrid hsid hsame t r k
        rw [hl, hr]
        by_cases hcell : t ≠ 0 ∧ r = rid
        · obtain ⟨ht, rfl⟩ := hcell
          rw [if_pos ⟨ht, rfl⟩, if_pos ⟨ht, rfl⟩]
          exact (cell_eq_iff hvacant t k).2 (hkept t ht k)
        · rw [if_neg hcell, if_neg hcell]
      exact ⟨hmatch, fun heq => by rw [hmatch, heq]⟩
  rw [hfst]
  cases hsec : ii.withSection with
  | true =>
    simp only [true_or, iff_true]
    exact fun t _ k => Change.lastKept_of_length_le_one (length_changesAt_le hsec old new t k _)
  | false =>
    simp only [Bool.false_eq_true, false_or]
    constructor
    · intro h t ht
      simpa [changesAt_eq hsec] using h t ht 1
    · intro h t ht k
      rw [changesAt_eq hsec]
      split_ifs with hk
      · exact h t ht
      · exact Change.lastKept_of_length_le_one (by simp)

end Schema

/-- An index of tags: words at blanks, with positions. The ids are those of the words' bytes. -/
def tagIndex (withSection : Bool) : Schema where
  withSection := withSection
  withWeight := false
  withPosition := true
  domain := 300
  keyDomain := 14
  haveTokenizer := true
  tokenize q := ((q.text.splitOn 32).filter (· ≠ [])).zipIdx.map fun (word, i) =>
    ⟨word.foldl (fun n b => 256 * n + b.toNat) 0, false, false, i⟩
  cast _ element := element

/-- A vector of tags. -/
def tags (words : List (List UInt8)) : Value := .vector 14 (words.map fun w => ⟨w, 0, 14⟩)

theorem matchesRebuild_tags :
    (tagIndex true).MatchesRebuild ⟨[], fun _ _ _ => none⟩ 1 1
      (some (tags [[97], [97]])) (some (tags [[98], [97]])) :=
  (Schema.matchesRebuild_iff (by decide) (by decide)
    (by rintro _ ⟨⟩ _ ⟨⟩; rfl) (fun _ _ _ => rfl)).2 (.inl rfl)

/-- `["a", "a"]` is replaced by `["b", "a"]` in an index without sections: the first element
deletes the posting of `a`, and the second, being unchanged, does not bring it back. -/
theorem not_matchesRebuild_tags :
    ¬ (tagIndex false).MatchesRebuild ⟨[], fun _ _ _ => none⟩ 1 1
      (some (tags [[97], [97]])) (some (tags [[98], [97]])) := by
  rintro ⟨hmatch, -⟩
  have hcell := congrFun (congrFun (congrFun hmatch 97) 1) 1
  revert hcell
  decide +kernel

end Groonga.Ii
