import Groonga.Pat.Surgery

/-!
# Where a new key goes

`grn_pat_add_internal_find` follows the key down, compares it with the key it ends at,
and puts it at the place on its way where the first difference belongs. It may end at a
missing child; then it compares with the key of the node above, which can be on either
side, and which can even be the same key if that node is deleted.
-/

namespace Groonga.Pat

open Lib.Patricia Lib.Patricia.Trie

/-! ## The place of a difference -/

/-- A word may be put at a place, with a branch at the position `c`, or as a leaf without
a branch where nothing is. -/
structure Insertable (w : ℕ → Word) (v : Word) (k : List (Frame ℕ)) (t : Trie ℕ) (c : ℕ) :
    Prop where
  lt : c < v.len
  fits : Fits w k v
  side : (lastCheck k < c ∧ WF w c t ∧
      ∀ j ∈ t.ids, c < (w j).len ∧ (w j).AgreeBelow c v ∧ (w j).bit c = !v.bit c) ∨
    (t = .nil ∧ (c : ℤ) = lastCheck k)

variable {w : ℕ → Word} {v : Word} {k k₁ k₂ : List (Frame ℕ)} {t : Trie ℕ} {c g : ℕ}

/-- A word that agrees with one at a place, and takes the way to it, fits there. -/
theorem fits_of_agree {u : Word} (hu : Fits w k u) (hv : ∀ f ∈ k, f.Follows v)
    (hc : ∀ f ∈ k, f.check ≤ c) (hagree : v.AgreeBelow c u) : Fits w k v := by
  intro f hf
  exact ⟨(hv f hf).1, (hagree.mono (hc f hf)).trans (hu f hf).agree, (hv f hf).2⟩

/-- No position on the way is the one where the words differ. -/
theorem check_ne_of_fits {u : Word} (hu : Fits w k u) (hv : ∀ f ∈ k, f.Follows v)
    (hne : v.bit c ≠ u.bit c) : ∀ f ∈ k, f.check ≠ c := by
  rintro f hf rfl
  exact hne ((hv f hf).2.trans (hu f hf).bit.symm)

/-- **The place of the first difference** to a key that is below it. -/
theorem insertable_split (hwf : WF w (-1) (plug (k₁ ++ k₂) t)) (hv : ∀ f ∈ k₁ ++ k₂, f.Follows v)
    (h₁ : ∀ f ∈ k₁, c < f.check) (h₂ : ∀ f ∈ k₂, f.check < c) (ht : WF w c t)
    (hg : g ∈ (plug k₁ t).ids) (hlt : c < v.len) (hltg : c < (w g).len)
    (hagree : v.AgreeBelow c (w g)) (hne : v.bit c ≠ (w g).bit c) :
    Insertable w v k₂ (plug k₁ t) c := by
  rw [plug_append] at hwf
  obtain ⟨-, hsub, hfits⟩ := wf_plug.mp hwf
  have hraise : WF w c (plug k₁ t) := wf_raise hsub h₁ ht
  have hlast : lastCheck k₂ < c := by
    cases k₂ with
    | nil => simp only [lastCheck]; omega
    | cons f k₂ => exact Int.ofNat_lt.mpr (h₂ f (List.mem_cons_self ..))
  refine ⟨hlt, fits_of_agree (hfits g hg) (fun f hf => hv f (List.mem_append_right _ hf))
    (fun f hf => (h₂ f hf).le) hagree, .inl ⟨hlast, hraise, fun j hj => ?_⟩⟩
  have hjg : (w j).AgreeBelow (c + 1) (w g) := hraise.agree hj hg
  refine ⟨hraise.lt_len hg hltg j hj, (hjg.mono (Nat.le_succ c)).trans hagree.symm, ?_⟩
  rw [hjg c (Nat.lt_succ_self c)]
  revert hne
  cases (w g).bit c <;> cases v.bit c <;> simp

/-! ## The source's choice -/

variable {s : GrnPat} {key : List UInt8}

/-- The second half of `grn_pat_add_internal_find`. -/
def chooseLocation (s : GrnPat) (key : List UInt8) (checkMax : ℕ) (st : FindState) (check : ℕ) :
    Option (Loc × ℕ) :=
  if (check : ℤ) = st.checkNode ∧ s.load st.idLocation = 0 then
    some (st.idLocation, if check + 2 < checkMax then check + 2 else check)
  else if (check : ℤ) < st.checkNode then
    if st.checkNodePrevious < check then
      some (st.idLocationPrevious, check)
    else
      (locateLoop s key check checkMax (checkMax + 2) .root).map (·, check)
  else
    some (st.idLocation, check)

theorem grnPatAddInternalFind_eq (hroot : s.load .root ≠ 0) :
    grnPatAddInternalFind s key =
      (findLoop s key (key.length * 16) (key.length * 16 + 2) (findStateAt [])).bind fun r =>
        match r with
        | .found id => some (.inl id)
        | .compare st foundKey =>
          (chooseLocation s key (key.length * 16) st (keyDifference 0 key foundKey)).bind fun r =>
            if key.length * 16 ≤ r.2 then none else some (.inr r) := by
  unfold grnPatAddInternalFind
  rw [if_neg hroot, patCheckPack_length]
  refine Option.bind_congr fun r _ => ?_
  cases r with
  | found id => rfl
  | compare st foundKey =>
    simp only [chooseLocation]
    split_ifs <;> simp

theorem lastCheck_lt (h : ∀ f ∈ k, f.check < c) : lastCheck k < c := by
  cases k with
  | nil => exact Int.negSucc_lt_zero 0 |>.trans_le (Int.natCast_nonneg c)
  | cons f k => exact Int.ofNat_lt.mpr (h f (List.mem_cons_self ..))

theorem chooseLocation_below {checkMax i : ℕ} (h : lastCheck k < c) :
    chooseLocation s key checkMax { findStateAt k with id := i } c = some (place k, c) := by
  have hne : ¬ ((c : ℤ) = lastCheck k ∧ s.load (place k) = 0) := fun hc => h.ne hc.1.symm
  exact (if_neg hne).trans (if_neg (not_lt.mpr h.le))

/-- At a difference that is not a check of the way, the choice is the place of the
difference. -/
theorem chooseLocation_split
    (hlink : Linked s.nodes (-1) (linkAt s.nodes .root) (plug (k₁ ++ k₂) t))
    (hctx : ContextWF w (k₁ ++ k₂)) (hv : ∀ f ∈ k₁ ++ k₂, f.Follows (word key))
    (h₁ : ∀ f ∈ k₁, c < f.check) (h₂ : ∀ f ∈ k₂, f.check < c) (hc : c < key.length * 16) (i : ℕ) :
    chooseLocation s key (key.length * 16) { findStateAt (k₁ ++ k₂) with id := i } c =
      some (place k₂, c) := by
  rcases k₁ with _ | ⟨f, k₁⟩
  · exact chooseLocation_below (lastCheck_lt h₂)
  · have hf : (c : ℤ) < lastCheck (f :: k₁ ++ k₂) :=
      Int.ofNat_lt.mpr (h₁ f (List.mem_cons_self ..))
    have hne : ¬ ((c : ℤ) = lastCheck (f :: k₁ ++ k₂) ∧ s.load (place (f :: k₁ ++ k₂)) = 0) :=
      fun h => hf.ne h.1
    refine (if_neg hne).trans ((if_pos hf).trans ?_)
    rcases k₁ with _ | ⟨f', k₁⟩
    · -- just above the last check
      exact if_pos (lastCheck_lt h₂)
    · -- further up: a second search
      have hf' := h₁ f' (List.mem_cons_of_mem _ (List.mem_cons_self ..))
      have hlength : k₂.length + 1 ≤ key.length * 16 + 2 := by
        have hlen := hctx.of_append.length_le
        have hlast := lastCheck_lt h₂
        omega
      have hlocate := @locateLoop_eq t s key c (f :: f' :: k₁) (by simp) h₁ k₂ []
        (key.length * 16 + 2) (by rwa [List.append_nil])
        (fun g hg => ⟨h₂ g hg, hv g (List.mem_append_right _ hg)⟩) hlength
      rw [List.append_nil] at hlocate
      have hlocate : locateLoop s key c (key.length * 16) (key.length * 16 + 2) .root =
        some (place k₂) := hlocate
      have hlast' : ¬ lastCheck (f :: f' :: k₁ ++ k₂).tail < c :=
        not_lt.mpr (Int.ofNat_le.mpr hf'.le)
      refine (if_neg hlast').trans ?_
      rw [hlocate]
      rfl

/-! ## The search -/

/-- The key agrees with the key of the node above a place. -/
theorem fits_of_last {f : Frame ℕ} (hctx : ContextWF w (f :: k)) (hv : ∀ g ∈ f :: k, g.Follows v)
    (hagree : v.AgreeBelow f.check (w f.id)) : Fits w (f :: k) v := by
  have hf := hv f (List.mem_cons_self ..)
  intro g hg
  rcases List.mem_cons.mp hg with rfl | hg
  · exact ⟨hf.1, hagree, hf.2⟩
  · have hlt := hctx.check_lt g hg
    have hid := hctx.2.2.2.2.1 g hg
    have hg := hv g (List.mem_cons_of_mem _ hg)
    exact ⟨hg.1, (hagree.mono hlt.le).trans hid.agree, hg.2⟩

/-- A word may always be put behind the position above a missing child. -/
theorem insertable_nil (hfits : Fits w k v) (hc : lastCheck k ≤ c) (hlt : c < v.len) :
    Insertable w v k .nil c := by
  refine ⟨hlt, hfits, ?_⟩
  rcases hc.lt_or_eq with hc | hc
  · exact .inl ⟨hc, trivial, fun j hj => absurd hj not_mem_ids_nil⟩
  · exact .inr ⟨rfl, hc.symm⟩

variable {own : ℕ → ℕ}

/-- The choice for a key that differs from one at the end of its way. -/
theorem chooseLocation_guide (h : Rooted s.nodes s.words (plug k t) own)
    (hv : ∀ f ∈ k, f.Follows (word key)) (hg : g ∈ t.ids) (ht : WF s.words c t)
    (hdiff : DiffersAt key (s.keyOf g) c) (i : ℕ) :
    ∃ k' t', plug k' t' = plug k t ∧ Insertable s.words (word key) k' t' c ∧
      chooseLocation s key (key.length * 16) { findStateAt k with id := i } c =
        some (place k', c) := by
  obtain ⟨hctx, -, hfits⟩ := wf_plug.mp h.wf
  obtain ⟨k₁, k₂, rfl, h₁, h₂⟩ := hctx.split (check_ne_of_fits (hfits g hg) hv hdiff.ne)
  refine ⟨k₂, plug k₁ t, (plug_append ..).symm, ?_, ?_⟩
  · refine insertable_split h.wf hv h₁ h₂ ht ?_ hdiff.lt_left hdiff.lt_right hdiff.agree hdiff.ne
    exact mem_ids_plug.mpr (.inl hg)
  · exact chooseLocation_split h.linked hctx hv h₁ h₂ hdiff.lt_left i

/-- The choice at a missing child, after a comparison with the node above it. -/
theorem chooseLocation_nil {f : Frame ℕ} (h : Rooted s.nodes s.words (plug (f :: k) .nil) own)
    (hkey : key ≠ []) (hid : s.keyOf f.id ≠ []) (hv : ∀ g ∈ f :: k, g.Follows (word key)) (i : ℕ) :
    ∃ k' t' c, plug k' t' = plug (f :: k) .nil ∧ Insertable s.words (word key) k' t' c ∧
      chooseLocation s key (key.length * 16) { findStateAt (f :: k) with id := i }
        (keyDifference 0 key (s.keyOf f.id)) = some (place k', c) := by
  obtain ⟨hctx, -, -⟩ := wf_plug.mp h.wf
  have hlt : f.check < key.length * 16 := (hv f (List.mem_cons_self ..)).1
  have hload : s.load (place (f :: k)) = 0 := (linked_plug.mp h.linked).2
  generalize hc : keyDifference 0 key (s.keyOf f.id) = c
  -- a missing child is a place for the key unless the difference is above it
  have hbelow : f.check ≤ c → (word key).AgreeBelow f.check (s.words f.id) → c < key.length * 16 →
      ∃ k' t' c', plug k' t' = plug (f :: k) .nil ∧ Insertable s.words (word key) k' t' c' ∧
        chooseLocation s key (key.length * 16) { findStateAt (f :: k) with id := i } c =
          some (place k', c') := by
    intro hle hagree hclt
    have hfits := fits_of_last hctx hv hagree
    rcases hle.lt_or_eq with hlt' | rfl
    · exact ⟨f :: k, .nil, c, rfl, insertable_nil hfits (Int.ofNat_le.mpr hle) hclt,
        chooseLocation_below (Int.ofNat_lt.mpr hlt')⟩
    · refine ⟨f :: k, .nil, if f.check + 2 < key.length * 16 then f.check + 2 else f.check, rfl,
        insertable_nil hfits ?_ ?_, if_pos ⟨rfl, hload⟩⟩
      · have hlast : lastCheck (f :: k) = f.check := rfl
        split_ifs <;> omega
      · rw [word_len]
        split_ifs <;> assumption
  by_cases hsame : s.keyOf f.id = key
  · -- the node above is deleted and has the same key
    rw [hsame, keyDifference_self hkey] at hc
    refine hbelow (by omega) ?_ (by omega)
    rw [GrnPat.words, hsame]
    exact .refl
  · have hdiff := differsAt_keyDifference hkey hid (Ne.symm hsame)
    rw [hc] at hdiff
    rcases Nat.lt_or_ge c f.check with hlt' | hge
    · have hne : ∀ g ∈ f :: k, g.check ≠ c := by
        intro g hg
        rcases List.mem_cons.mp hg with rfl | hg
        · exact hlt'.ne'
        · exact check_ne_of_fits hctx.2.2.2.2.1 (fun g hg => hv g (List.mem_cons_of_mem _ hg))
            hdiff.ne g hg
      obtain ⟨k₁, k₂, hsplit, h₁, h₂⟩ := hctx.split hne
      have hmem : f.id ∈ (plug k₁ (.nil : Trie ℕ)).ids := by
        rcases k₁ with _ | ⟨f', k₁⟩
        · rw [List.nil_append] at hsplit
          exact absurd (h₂ f (hsplit ▸ List.mem_cons_self ..)) (Nat.not_lt.mpr hlt'.le)
        · obtain ⟨rfl, -⟩ := List.cons.inj hsplit
          exact mem_ids_plug.mpr (.inr (.inl (Multiset.mem_cons_self _ _)))
      rw [hsplit] at h hctx hv ⊢
      refine ⟨k₂, plug k₁ .nil, c, (plug_append ..).symm, ?_, ?_⟩
      · exact insertable_split h.wf hv h₁ h₂ trivial hmem hdiff.lt_left hdiff.lt_right hdiff.agree
          hdiff.ne
      · exact chooseLocation_split h.linked hctx hv h₁ h₂ hdiff.lt_left i
    · exact hbelow hge (hdiff.agree.mono hge) hdiff.lt_left

/-- **What `grn_pat_add_internal_find` returns**: the live record of the key, or a place
where the key may be put. -/
theorem grnPatAddInternalFind_spec {T : Trie ℕ} (h : Rooted s.nodes s.words T own)
    (hids : ∀ i ∈ T.ids, s.keyOf i ≠ []) (hkey : key ≠ []) :
    (∃ i ∈ T.leaves, s.keyOf i = key ∧ grnPatAddInternalFind s key = some (.inl i)) ∨
    ((∀ i ∈ T.leaves, s.keyOf i ≠ key) ∧ ∃ k t c, plug k t = T ∧
      Insertable s.words (word key) k t c ∧
      grnPatAddInternalFind s key = some (.inr (place k, c))) := by
  have hlen : 0 < key.length := List.length_pos_iff.mpr hkey
  by_cases hroot : s.load .root = 0
  · -- the table is empty
    right
    obtain rfl : T = .nil := by
      cases T with
      | nil => rfl
      | leaf i => exact absurd (h.linked.1.symm.trans hroot) h.linked.2.1
      | node i c child => exact absurd (h.linked.1.symm.trans hroot) h.linked.2.1
    refine ⟨fun i hi => absurd hi (Multiset.notMem_zero i), [], .nil,
      patCheckPack (key.length - 1) 7 false, rfl, insertable_nil ?_ ?_ ?_, if_pos hroot⟩
    · intro f hf
      cases hf
    · exact (Int.negSucc_lt_zero 0).le.trans (Int.natCast_nonneg _)
    · simp only [patCheckPack, word_len, Bool.toNat_false]
      omega
  · have hloop := findLoop_eq (k := []) h.linked h.wf
      (Int.negSucc_lt_zero 0 |>.trans_le (Int.natCast_nonneg _)) (enoughFuel_start (key.length * 16))
    have hplug := plug_descend (word key) [] T
    have hfollows := follows_descend (word key) (k := []) T (by simp)
    have hleaf : ∀ i ∈ T.leaves, s.keyOf i = key →
        (descend (word key) [] T).2 = .leaf i := by
      rintro i hi rfl
      exact descend_leaf h.wf hi
    generalize hdescend : descend (word key) [] T = r at hloop hplug hfollows hleaf
    obtain ⟨k, t⟩ := r
    rw [plug_nil] at hplug
    simp only at hplug hfollows hleaf
    subst hplug
    obtain ⟨hctx, hwft, -⟩ := wf_plug.mp h.wf
    -- what is left to do when the search stops with a key to compare with
    have hfinish : ∀ {st foundKey k' t' c},
        foundAt s key (k, t) = .compare st foundKey →
        chooseLocation s key (key.length * 16) st (keyDifference 0 key foundKey) =
          some (place k', c) → Insertable s.words (word key) k' t' c →
        grnPatAddInternalFind s key = some (.inr (place k', c)) := by
      intro st foundKey k' t' c hfound hchoose hins
      rw [grnPatAddInternalFind_eq hroot, hloop, hfound, Option.bind_some]
      simp only [hchoose, Option.bind_some]
      exact if_neg (Nat.not_le.mpr hins.lt)
    cases t with
    | nil =>
      right
      refine ⟨fun i hi hi' => (by cases hleaf i hi hi'), ?_⟩
      rcases k with _ | ⟨f, k⟩
      · exact absurd h.linked hroot
      · have hid : f.id ∈ (plug (f :: k) .nil).ids :=
          mem_ids_plug.mpr (.inr (.inl (Multiset.mem_cons_self _ _)))
        obtain ⟨k', t', c, hplug, hins, hchoose⟩ :=
          chooseLocation_nil h hkey (hids _ hid) hfollows 0
        exact ⟨k', t', c, hplug, hins, hfinish rfl hchoose hins⟩
    | leaf i =>
      have hi : i ∈ (plug k (.leaf i)).ids := mem_ids_plug.mpr (.inl (mem_ids_leaf.mpr rfl))
      by_cases hsame : s.keyOf i = key
      · left
        refine ⟨i, mem_plug_leaves.mpr (.inl (Multiset.mem_singleton_self i)), hsame, ?_⟩
        rw [grnPatAddInternalFind_eq hroot, hloop, foundAt, if_pos hsame]
        rfl
      · right
        refine ⟨fun j hj hj' => ?_, ?_⟩
        · obtain rfl := Trie.leaf.inj (hleaf j hj hj')
          exact hsame hj'
        · obtain ⟨k', t', hplug, hins, hchoose⟩ := chooseLocation_guide h hfollows
            (mem_ids_leaf.mpr rfl) trivial
            (differsAt_keyDifference hkey (hids i hi) (Ne.symm hsame)) i
          exact ⟨k', t', _, hplug, hins, hfinish (if_neg hsame) hchoose hins⟩
    | node i c child =>
      -- the key ends before the check of the node
      right
      have hi : i ∈ (Trie.node i c child).ids := mem_ids_node.mpr (.inl rfl)
      have hge : key.length * 16 ≤ c := by
        by_contra hlt
        exact descend_ne_node (not_le.mp hlt) hdescend
      have hsame : s.keyOf i ≠ key := by
        rintro rfl
        exact absurd (hwft.2.1 i hi).1 (Nat.not_lt.mpr hge)
      refine ⟨fun j hj hj' => (by cases hleaf j hj hj'), ?_⟩
      have hdiff := differsAt_keyDifference hkey (hids i (mem_ids_plug.mpr (.inl hi)))
        (Ne.symm hsame)
      obtain ⟨k', t', hplug, hins, hchoose⟩ := chooseLocation_guide h hfollows hi
        ⟨Int.ofNat_lt.mpr (hdiff.lt_left.trans_le hge), hwft.2⟩ hdiff i
      exact ⟨k', t', _, hplug, hins, hfinish (if_neg hsame) hchoose hins⟩

end Groonga.Pat
