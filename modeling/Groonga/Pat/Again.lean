import Groonga.Pat.Redone

/-!
# Recovering a file from after the operations

The recovery of a file that has seen all operations of its log does them again. That is harmless for
additions, and for deletions of a record with its own branch, as long as no node from before the log is
used again. It is not for a deletion below the branch of another record.
-/

namespace Groonga.Pat

open Lib Lib.Patricia Lib.Patricia.Trie

variable {s s' s₁ n r : GrnPat} {t t' t₀ : Trie ℕ} {own own' : ℕ → ℕ} {free free' : ℕ → List ℕ} {lost : Finset ℕ}
  {key : List UInt8} {k : List (Frame ℕ)} {f : Frame ℕ} {i j c o x slot : ℕ} {e : WalEntry}
  {log es es' : List WalEntry}

/-! ## The tree of a table -/

/-- The links and the checks determine the tree. -/
theorem Linked.unique {nodes : ℕ → Node} {w w' : ℕ → Word} {lo : ℤ} {r : ℕ} (h : Linked nodes lo r t)
    (hwf : WF w lo t) (h' : Linked nodes lo r t') (hwf' : WF w' lo t') : t = t' := by
  induction t generalizing lo r t' with
  | nil =>
    obtain rfl : r = 0 := h
    cases t' with
    | nil => rfl
    | leaf i => exact absurd h'.1.symm h'.2.1
    | node i c child => exact absurd h'.1.symm h'.2.1
  | leaf i =>
    obtain ⟨rfl, hne, hlo⟩ := h
    cases t' with
    | nil => exact absurd h' hne
    | leaf i' => rw [h'.1]
    | node i' c child =>
      obtain ⟨rfl, -, rfl, -⟩ := h'
      exact absurd hwf'.1 (not_lt.mpr hlo)
  | node i c child ih =>
    obtain ⟨rfl, hne, rfl, hchild⟩ := h
    cases t' with
    | nil => exact absurd h' hne
    | leaf i' =>
      obtain ⟨rfl, -, hlo⟩ := h'
      exact absurd hwf.1 (not_lt.mpr hlo)
    | node i' c' child' =>
      obtain ⟨rfl, -, rfl, hchild'⟩ := h'
      have heq : child = child' := funext fun d => ih d (hchild d) (hwf.2.2 d).2 (hchild' d) (hwf'.2.2 d).2
      rw [heq]

theorem Rooted.tree_eq {nodes : ℕ → Node} {w w' : ℕ → Word} (h : Rooted nodes w t own)
    (h' : Rooted nodes w' t' own') : t = t' := h.linked.unique h.wf h'.linked h'.wf

/-! ## Additions -/

/-- A record that is put at its place. -/
theorem Step.put (h : Inv s (plug k t₀) own free lost) (hst : Stores s s₁ lost i key) (hi : i ≠ 0)
    (hnew : i ∉ (plug k t₀).ids) (hins : Insertable s.words (word key) k t₀ c)
    (hs' : s' = grnPatEnableNode s₁ i key c (key.length * 16) (place k))
    (h' : Rooted s'.nodes s'.words t' own') (htarget : e.target = some i)
    (hredo : recoverEntry s.file e = some s'.file) (hlarge : s₁.isKeyLarge = s.isKeyLarge)
    (hagain : e.Again s.file log) (hfits : e.Fits lost s.file (plug k t₀) t')
    (hrec : s.currRec ≤ s₁.currRec)
    (hshape : s.KnownId lost i → (s₁.nodes i).key.shape = (s.nodes i).key.shape) :
    Step lost log s.file (plug k t₀) e s'.file t' := by
  obtain ⟨t'', own'', hrooted, hleaves, hinner, -⟩ :=
    rooted_enable h.rooted hst.nodes_ne hst.keyOf_self (fun j hj => hst.keyOf_ne j (h.known hj)
      fun hji => hnew (hji ▸ hj)) hi hnew hins hs'
  obtain rfl := hrooted.tree_eq h'
  subst hs'
  have hne : ∀ {j}, e.target ≠ some j → j ≠ i := fun he hji => he (hji ▸ htarget)
  have hids : ∀ j, j ≠ i → j ∉ (plug k t₀).ids → j ∉ t''.ids := by
    intro j hji hout hin
    rcases mem_ids.mp hin with hin | hin
    · exact hout (mem_ids.mpr (.inl ((hinner j hji).mp hin)))
    · rw [hleaves, Multiset.mem_cons] at hin
      exact hout (mem_ids.mpr (.inr (hin.resolve_left hji)))
  have hkey : ∀ j, ((grnPatEnableNode s₁ i key c (key.length * 16) (place k)).nodes j).key = (s₁.nodes j).key := by
    intro j
    rw [grnPatEnableNode, store_key]
    exact modify_field Node.key fun _ => rfl
  refine
    { redo := hredo
      large := hlarge
      again := hagain
      fits := hfits
      known := fun j hj => ⟨hj.1, hj.2.1.trans hrec, hj.2.2⟩
      check := fun j he => .inl ?_
      inner := fun j he hin => .inl ((hinner j (hne he)).mpr hin)
      gone := fun j he hout => hids j (hne he) hout
      lr := fun j hj0 hout he _ => funext fun d => ?_
      key := fun j hj he => ⟨?_, ?_⟩
      shape := fun j hj => ?_ }
  · exact (enable_check_of_ne (hne he)).trans (by rw [hst.nodes_ne j (hne he)]; rfl)
  · refine (enable_lr_of_ne (hne he) (place_ne_of_not_mem_plug hj0 fun hin =>
      hout (mem_ids.mpr (.inl hin)))).trans ?_
    rw [hst.nodes_ne j (hne he)]
    rfl
  · refine (hkey j).trans ?_
    rw [hst.nodes_ne j (hne he)]
    rfl
  · exact (congrFun enable_keyOf j).trans (hst.keyOf_ne j hj (hne he))
  · refine (congrArg StoredKey.shape (hkey j)).trans ?_
    by_cases hji : j = i
    · subst hji
      exact hshape hj
    · rw [hst.nodes_ne j hji]
      rfl

/-- Nothing is done. -/
theorem steps_nil (h : Rooted s.nodes s.words t own) (h' : Rooted s'.nodes s'.words t' own')
    (hfile : s'.file = s.file) : Steps lost log s.file t [] s'.file t' := by
  have hnodes : s'.file.nodes = s.file.nodes := congrArg GrnPat.nodes hfile
  have hnodes' : s'.nodes = s.nodes := hnodes
  rw [hnodes'] at h'
  exact ⟨hfile.symm, h.tree_eq h'⟩

theorem setCache_words : (s.setCache key i).words = s.words := by
  funext j
  rw [GrnPat.words, GrnPat.words, setCache_keyOf]

/-- One entry. -/
theorem Step.steps (h : Step lost log s t e s' t') : Steps lost log s t [e] s' t' := ⟨s', t', h, rfl, rfl⟩

/-- The key of a recycled node is in the place of the key before it. -/
theorem recycle_shape (hvalid : (s.nodes i).key.Valid s.isKeyLarge s.currKey)
    (hsize : (s.nodes i).key.storageSize = patKeyStorageSize s.isKeyLarge key.length) :
    ((recycle s i key).nodes i).key.shape = (s.nodes i).key.shape := by
  cases hnode : (s.nodes i).key with
  | immediate old =>
    rw [recycle_immediate hnode]
    show (Function.update s.nodes i _ i).key.shape = _
    rw [Function.update_self]
    rfl
  | stored offset length =>
    rw [hnode] at hvalid hsize
    have hpos := lt_of_not_embeddable hvalid.1
    have hlength : length = key.length := by
      have hsize : length = patKeyStorageSize s.isKeyLarge key.length := hsize
      unfold patKeyStorageSize at hsize
      split_ifs at hsize
      · omega
      · exact hsize
    rw [recycle_stored hnode, hlength]
    show (Function.update s.nodes i _ i).key.shape = _
    rw [Function.update_self]

/-- **An addition.** -/
theorem steps_addWal {b : Bool} (h : Inv s t own free lost) (h' : Inv s' t' own' free' lost)
    (hadd : grnPatAdd s key = some (s', i, b)) (hagain : ∀ e ∈ addWal s key, e.Again s log) :
    Steps lost log s.file t (addWal s key) s'.file t' := by
  have hredo := recoverAll_addWal hadd
  rw [grnPatAdd] at hadd
  unfold addWal at hagain hredo ⊢
  by_cases hkey : key = [] ∨ maxKeySize < key.length
  · rw [if_pos hkey] at hadd
    cases hadd
  rw [if_neg hkey] at hadd hagain hredo ⊢
  rw [not_or, not_lt] at hkey
  rw [grnPatAddInternal] at hadd
  dsimp only at hadd hagain hredo ⊢
  by_cases hcached : s.cacheSize ≠ 0 ∧ s.cache (grnPatCacheComputeId s.cacheSize key) ≠ 0 ∧
      s.keyOf (s.cache (grnPatCacheComputeId s.cacheSize key)) = key
  · rw [if_pos hcached] at hadd ⊢
    obtain ⟨rfl, -⟩ := Prod.mk.inj (Option.some.inj hadd)
    exact steps_nil h.rooted h'.rooted rfl
  rw [if_neg hcached] at hadd hagain hredo ⊢
  rcases grnPatAddInternalFind_spec h.rooted (fun j hj => h.keyOf_ne_nil hj) hkey.1 with
    ⟨a, ha, hka, hfind⟩ | ⟨hno, k, t₀, c, rfl, hins, hfind⟩
  · simp only [hfind, Option.bind_eq_bind, Option.bind_some] at hadd ⊢
    obtain ⟨rfl, -⟩ := Prod.mk.inj (Option.some.inj hadd)
    exact steps_nil h.rooted h'.rooted (setCache_file ..)
  simp only [hfind, Option.bind_eq_bind, Option.bind_some] at hadd hagain hredo ⊢
  by_cases hgarbage : s.garbages (patKeyStorageSize s.isKeyLarge key.length) ≠ 0
  · rw [if_pos hgarbage] at hadd hagain hredo ⊢
    obtain ⟨rfl, -⟩ := Prod.mk.inj (Option.some.inj hadd)
    rw [recoverAll_singleton] at hredo
    obtain ⟨l, hfree⟩ : ∃ l, free (patKeyStorageSize s.isKeyLarge key.length) =
        s.garbages (patKeyStorageSize s.isKeyLarge key.length) :: l := by
      have hchain := h.accounts.chain (patKeyStorageSize s.isKeyLarge key.length)
      cases hfree : free (patKeyStorageSize s.isKeyLarge key.length) with
      | nil =>
        rw [hfree] at hchain
        exact absurd hchain hgarbage
      | cons i l =>
        rw [hfree] at hchain
        exact ⟨l, by rw [hchain.1]⟩
    generalize s.garbages (patKeyStorageSize s.isKeyLarge key.length) = i at *
    have hmem : i ∈ free (patKeyStorageSize s.isKeyLarge key.length) := by
      rw [hfree]
      exact List.mem_cons_self ..
    have hknown := (h.accounts.total i).mp (.inr (.inr ⟨_, hmem⟩))
    have hnew := h.not_mem_ids_of_free hmem
    have hsize := h.accounts.size _ i hmem
    have hrooted := h'.rooted
    rw [setCache_nodes, setCache_words] at hrooted
    rw [setCache_file] at hredo ⊢
    refine (Step.put h (stores_recycle h.keys hknown hkey.1 hsize) hgarbage hnew hins
      (by rw [grnPatReuseNode_eq, patCheckPack_length]) hrooted rfl hredo ?_
      (hagain _ (List.mem_singleton_self _)) ⟨hknown, hnew⟩ recycle_counters.2.2.2.ge
      fun _ => recycle_shape (h.keys.valid i hknown) hsize).steps
    cases hnode : (s.nodes i).key with
    | immediate old => rw [recycle_immediate hnode]
    | stored offset length => rw [recycle_stored hnode]
  · rw [if_neg hgarbage] at hadd hagain hredo ⊢
    split_ifs at hadd with hmax
    obtain ⟨s₁, hnode, hadd⟩ := Option.bind_eq_some_iff.mp hadd
    obtain ⟨rfl, -⟩ := Prod.mk.inj (Option.some.inj hadd)
    rw [grnPatAddNode] at hnode
    obtain ⟨s₂, hset, hnode⟩ := Option.bind_eq_some_iff.mp hnode
    obtain rfl := Option.some.inj hnode
    rw [recoverAll_singleton] at hredo
    have hnew : s.currRec + 1 ∉ (plug k t₀).ids := fun hin =>
      Nat.not_succ_le_self _ (h.range hin).2
    have hrooted := h'.rooted
    rw [setCache_nodes, setCache_words] at hrooted
    rw [setCache_file] at hredo ⊢
    refine (Step.put h (@stores_patNodeSetKey s s₂ key lost (s₂.nEntries + 1) h.keys hkey.2 hset) (Nat.succ_ne_zero _)
      hnew hins (by rw [patCheckPack_length]) hrooted rfl hredo ?_
      trivial rfl (Nat.le_succ _) fun hknown => absurd hknown.2.1 (Nat.not_succ_le_self _)).steps
    unfold patNodeSetKey at hset
    split_ifs at hset with hembed
    · obtain rfl := Option.some.inj hset
      rfl
    · obtain ⟨⟨s₃, offset⟩, hput, rfl⟩ := Option.map_eq_some_iff.mp hset
      obtain ⟨-, -, rfl⟩ := keyPut_eq hkey.1 hkey.2 hput
      rfl

/-! ## Turns of pending deletions -/

/-- An entry about the header only. -/
theorem Step.quiet (hnodes : s'.nodes = s.nodes) (hkeys : s'.keys = s.keys) (hrec : s'.currRec = s.currRec)
    (hlarge : s'.isKeyLarge = s.isKeyLarge) (hredo : recoverEntry s e = some s') (hagain : e.Again s log)
    (hfits : e.Fits lost s t t) : Step lost log s t e s' t where
  redo := hredo
  large := hlarge
  again := hagain
  fits := hfits
  known j hj := ⟨hj.1, hrec ▸ hj.2.1, hj.2.2⟩
  check j _ := .inl (by rw [hnodes])
  inner j _ hin := .inl hin
  gone j _ hout := hout
  lr j _ _ _ _ := by rw [hnodes]
  key j _ _ := ⟨by rw [hnodes], keyOf_congr (by rw [hnodes]) hkeys⟩
  shape j _ := by rw [hnodes]

/-- A node is given back. -/
theorem Step.giveBack {next : ℕ} (hknown : s.KnownId lost i) (hout : i ∉ t.ids)
    (hagain : ∀ e ∈ log, e.deletedBelow ≠ some i) :
    Step lost log s t (.deleteInfoPhase3 i next slot) (recoverDeleteInfoPhase3 s i next slot) t := by
  have hredo : recoverEntry s (.deleteInfoPhase3 i next slot) = some (recoverDeleteInfoPhase3 s i next slot) := rfl
  rw [recoverDeleteInfoPhase3_eq] at hredo ⊢
  exact
    { redo := hredo
      large := rfl
      again := hagain
      fits := ⟨hknown, hout⟩
      known := fun j hj => hj
      check := fun j _ => .inl store_check
      inner := fun j _ hin => .inl hin
      gone := fun j _ hout => hout
      lr := fun j _ _ _ hfreed => funext fun d => store_lr_of_ne fun hp =>
        hfreed (congrArg some (congrArg Loc.node hp))
      key := fun j _ _ => ⟨store_key, keyOf_congr store_key rfl⟩
      shape := fun j _ => congrArg StoredKey.shape store_key }

/-- No slot leaves the first phase. -/
theorem turn2s_again (hring : Ring s) (hagain : ∀ e ∈ delinfoNewWal s, e.Again s log) :
    turn2sWal s (deletionGap s) = [] ∧ ∃ c, turn2s s (deletionGap s) = some { s with currDel2 := c } := by
  have hnone : ∀ e ∈ turn2sWal s (deletionGap s), e.Again s log := fun e he =>
    hagain e (List.mem_cons_of_mem _ (List.mem_append_left _ he))
  rcases Nat.le_one_iff_eq_zero_or_eq_one.mp hring.deletionGap_le with hgap | hgap
  · rw [hgap]
    exact ⟨rfl, s.currDel2, rfl⟩
  · rw [hgap] at hnone ⊢
    by_cases hstat : (s.delinfos s.currDel2).stat = .phase1
    · have hturn : turn2Wal s s.currDel2 = [_] := if_neg (not_not.mpr hstat)
      rw [turn2sWal, hturn] at hnone
      exact (hnone _ (List.mem_append_left _ (List.mem_singleton_self _))).elim
    · have hturn : turn2Wal s s.currDel2 = [] := if_pos hstat
      have hturn' : delinfoTurn2 s s.currDel2 = some s := if_pos hstat
      rw [turn2sWal, turn2s, hturn, hturn']
      exact ⟨rfl, _, rfl⟩

/-- **A new slot.** The tree is the same. -/
theorem steps_delinfoNewWal (h : Inv s t own free lost) (hagain : ∀ e ∈ delinfoNewWal s, e.Again s log)
    (hnew : delinfoNew s = some (s₁, slot)) :
    ∃ c d, Steps lost log s.file t (delinfoNewWal s) (s₁.withCursors s₁.currDel c d) t ∧
      Rooted s₁.nodes s₁.words t own ∧ (∀ j ∈ t.ids, s₁.nodes j = s.nodes j) := by
  obtain ⟨c, d, hrecover, -, -⟩ := recoverAll_delinfoNewWal h.ring hnew
  obtain ⟨hwal, c₂, hturns⟩ := turn2s_again h.ring hagain
  have hsteps : ∃ b, Steps lost log s.file t (delinfoNewWal s) b t ∧ b.keys = s.keys ∧
      (∀ j ∈ t.ids, b.nodes j = s.nodes j) ∧ linkAt b.nodes .root = linkAt s.nodes .root ∧
      ∀ j, (b.nodes j).key = (s.nodes j).key := by
    rw [delinfoNewWal, hwal, hturns] at hagain ⊢
    have hfirst : Step lost log s.file t (.deleteInfoPhase1 s.currDel)
        (recoverDeleteInfoPhase1 s.file s.currDel) t :=
      Step.quiet rfl rfl rfl rfl rfl trivial trivial
    dsimp only at hagain ⊢
    by_cases hround : (s.currDel + 1) % nDelinfos = s.currDel3
    · rw [if_pos hround, turn3Wal] at hagain ⊢
      by_cases hstat : (s.delinfos s.currDel3).stat = .phase2
      · rw [if_neg (not_not.mpr hstat)] at hagain ⊢
        have hpending : Pending s.delinfos (s.delinfos s.currDel3).d :=
          ⟨s.currDel3, by rw [hstat]; exact Stat.noConfusion, rfl⟩
        have hknown := (h.accounts.total _).mp (.inr (.inl hpending))
        have hout := h.slots.phase2 _ hstat
        have hd := hagain _ (List.mem_cons_of_mem _ (List.mem_singleton_self _))
        refine ⟨_, ⟨_, _, hfirst, _, _, Step.giveBack hknown hout fun e he => ?_, rfl, rfl⟩, ?_⟩
        · rcases List.mem_append.mp he with he | he
          · exact hd e he
          · rw [List.mem_singleton.mp he]
            intro h
            cases h
        · rw [recoverDeleteInfoPhase3_eq]
          refine ⟨rfl, fun j hj => ?_, store_lr_of_ne fun hp => ?_, fun j => store_key⟩
          · exact Function.update_of_ne (fun hjd : j = (s.delinfos s.currDel3).d => hout (hjd ▸ hj)) ..
          · exact Bool.false_ne_true (congrArg Loc.direction hp)
      · rw [if_pos hstat]
        exact ⟨_, hfirst.steps, rfl, fun _ _ => rfl, rfl, fun _ => rfl⟩
    · rw [if_neg hround]
      exact ⟨_, hfirst.steps, rfl, fun _ _ => rfl, rfl, fun _ => rfl⟩
  obtain ⟨b, hsteps, hkeys, hnodes, hroot, hkey⟩ := hsteps
  obtain rfl : b = s₁.withCursors s₁.currDel c d := Option.some.inj (hsteps.recoverAll.symm.trans hrecover)
  have hwords : s₁.words = s.words := funext fun j => congrArg word (keyOf_congr (hkey j) hkeys)
  refine ⟨c, d, hsteps, ?_, hnodes⟩
  rw [hwords]
  exact h.rooted.congr hroot (fun j hj => congrArg Node.check (hnodes j hj)) fun j hj =>
    congrArg Node.lr (hnodes j hj)

/-! ## Deletions -/

/-- An output whose check has to be reset has no branch: the branch would be above it, with a smaller
check. -/
theorem not_inner_of_reset {check0 : ℕ} (h : Rooted s.nodes s.words (plug (f :: k) (.leaf x)) own)
    (ho : o = (s.nodes f.id).lr (!f.dir)) (ho0 : o ≠ 0) (hcheck0 : ∀ g l, k = g :: l → check0 = g.check)
    (hreset : check0 < (s.nodes o).check ∧ (s.nodes o).check ≤ f.check) (hox : o ≠ f.id) :
    o ∉ (plug (f :: k) (.leaf x)).inner := by
  obtain ⟨⟨-, -, -, hsib, haround⟩, -⟩ := linked_plug.mp h.linked
  obtain ⟨⟨-, -, -, hsibwf, -, hsibfits, hctx⟩, -, -⟩ := wf_plug.mp h.wf
  rw [← ho] at hsib
  have hleaf : f.sib = .leaf o := by
    cases hs : f.sib with
    | nil =>
      rw [hs] at hsib
      exact absurd hsib ho0
    | leaf i =>
      rw [hs] at hsib
      rw [hsib.1]
    | node i c child =>
      rw [hs] at hsib hsibwf
      obtain ⟨rfl, -, hcheck, -⟩ := hsib
      have := hsibwf.1
      omega
  intro hin
  rw [mem_plug_inner, inner_leaf, mem_innerBeside_cons, hleaf, inner_leaf] at hin
  simp only [Multiset.notMem_zero, false_or] at hin
  have hin := hin.resolve_left hox
  have hfits := hsibfits o (by rw [hleaf]; exact mem_ids_leaf.mpr rfl)
  obtain ⟨g, hg, rfl⟩ := hctx.frame_of_mem hfits hin
  have hle := hctx.check_le_lastCheck hg
  rcases k with _ | ⟨g', k⟩
  · cases hg
  · have hlast : lastCheck (g' :: k) = g'.check := rfl
    rw [haround.check hg, hcheck0 g' k rfl] at hreset
    omega

/-- The other branches stay. -/
theorem mem_inner_of_remove {w' : ℕ → Word} {check0 : ℕ}
    (h : Rooted s.nodes s.words (plug (f :: k) (.leaf x)) own)
    (howned : ∃ j ∈ (plug (f :: k) (.leaf x)).inner, own j = x)
    (ho : o = (s.nodes f.id).lr (!f.dir)) (hcheck0 : ∀ g l, k = g :: l → check0 = g.check)
    (h' : Rooted ((keepOtherside s o (place k) check0 f.check).store (place k) o).nodes w' t' own')
    (hj : j ∈ (plug (f :: k) (.leaf x)).inner) (hne : j ≠ f.id) : j ∈ t'.inner := by
  have hin : j ∈ f.sib.inner ∨ j ∈ innerBeside k := by
    rw [mem_plug_inner, inner_leaf, mem_innerBeside_cons] at hj
    simp only [Multiset.notMem_zero, false_or] at hj
    exact hj.resolve_left hne
  have hplug : j ∈ (plug k f.sib).inner := mem_plug_inner.mpr hin
  rcases k with _ | ⟨g, k⟩
  · obtain ⟨⟨-, -, -, hsib, -⟩, -⟩ := linked_plug.mp h.linked
    obtain ⟨⟨-, -, -, hsibwf, -⟩, -, -⟩ := wf_plug.mp h.wf
    rw [← ho] at hsib
    cases hs : f.sib with
    | nil =>
      rw [hs] at hplug
      exact absurd hplug (Multiset.notMem_zero j)
    | leaf i =>
      rw [hs] at hplug
      exact absurd hplug (Multiset.notMem_zero j)
    | node i c child =>
      have hsib' := hsib
      rw [hs] at hsib' hsibwf
      obtain ⟨rfl, hi0, hcheck, -⟩ := hsib'
      have hlo := hsibwf.1
      -- a branch behind the first node becomes the first node as it is
      have hreset : resetCheck s o check0 f.check = s := if_neg fun hif => by omega
      have hkeep : keepOtherside s o .root check0 f.check = s := by
        rw [keepOtherside_eq hi0, hreset, if_neg fun hif => by omega]
      have hrooted := rooted_splice h howned ho mayReset_refl (fun hs' => by rw [hs] at hs'; cases hs')
        fun hne => absurd rfl hne
      have hplace : place ([] : List (Frame ℕ)) = .root := rfl
      rw [hplace, hkeep] at h'
      rw [← hrooted.tree_eq h']
      exact hplug
  · rw [hcheck0 g k rfl] at h'
    rw [← (rooted_remove_below h howned ho).tree_eq h']
    exact hplug

section Delete

variable {nGarbages nEntries phase1 phase2 : ℕ}

/-- **A record is deleted with its own branch.** -/
theorem Step.deleteOwn (h : Rooted s.nodes s.words (plug (f :: k) (.leaf f.id)) own)
    (hknown : ∀ j ∈ (plug (f :: k) (.leaf f.id)).ids, s.KnownId lost j)
    (ho : o = (s.nodes f.id).lr (!f.dir))
    (hredo : recoverEntry s (.deleteEntry f.id (place (f :: k)) f.check (place k) (checkAbove k) o nGarbages
      nEntries slot phase1 phase2) = some s')
    (h' : Rooted s'.nodes s'.words t' own') :
    Step lost log s (plug (f :: k) (.leaf f.id)) (.deleteEntry f.id (place (f :: k)) f.check (place k)
      (checkAbove k) o nGarbages nEntries slot phase1 phase2) s' t' := by
  have hcheck0 : ∀ g l, k = g :: l → checkAbove k = g.check := fun g l hk => checkAbove_cons hk
  have hin : f.id ∈ (plug (f :: k) (.leaf f.id)).inner :=
    mem_plug_inner.mpr (.inr (Multiset.mem_cons_self ..))
  have hlive : f.id ∈ (plug (f :: k) (.leaf f.id)).leaves :=
    mem_plug_leaves.mpr (.inl (Multiset.mem_singleton_self _))
  have howned : ∃ j ∈ (plug (f :: k) (.leaf f.id)).inner, own j = f.id := ⟨_, hin, h.own_self _ hin hlive⟩
  have hmem := h.otherside_mem ho
  obtain ⟨nodes, heq, hfields, hne, hother⟩ := @recoverDeleteEntry_own o (place (f :: k)) f.check (checkAbove k)
    nGarbages nEntries slot phase1 phase2 (place k) s
  have hs' := (Option.some.inj hredo).symm.trans heq
  -- the nodes do not depend on the slots
  obtain ⟨u, hu⟩ : ∃ u : GrnPat, u = ({ s with currDel := phase1, currDel2 := phase2 } : GrnPat).setDelinfo slot
      { s.delinfos slot with d := f.id, stat := .phase2 } := ⟨_, rfl⟩
  have hnodes : u.nodes = s.nodes := by rw [hu]; rfl
  have hwords : u.words = s.words := by rw [hu]; rfl
  have hkeep : s'.nodes = ((keepOtherside u o (place k) (checkAbove k) f.check).store (place k) o).nodes := by
    have hself : f.id = (place (f :: k)).node := rfl
    have hdel : recoverDeleteEntry s f.id (place (f :: k)) f.check (place k) (checkAbove k) o nGarbages nEntries slot
        phase1 phase2 = s' := Option.some.inj hredo
    rw [← hdel, recoverDeleteEntry, recoverDelInternal, if_pos hself, hu]
  have hu' : Rooted u.nodes u.words (plug (f :: k) (.leaf f.id)) own := by
    rw [hnodes, hwords]
    exact h
  have hou : o = (u.nodes f.id).lr (!f.dir) := by rw [hnodes, ho]
  rw [hkeep] at h'
  obtain ⟨t'', own'', hrooted, hrem⟩ := rooted_remove hu' howned hou hcheck0
  obtain rfl := hrooted.tree_eq h'
  have hleaves := h.leaves_nodup
  rw [hrem.leaves, Multiset.nodup_cons] at hleaves
  have hgone : ∀ j, j ∉ (plug (f :: k) (.leaf f.id)).ids → j ∉ t''.ids := by
    intro j hout hj
    refine hout (mem_ids.mpr ?_)
    by_cases hl : j ∈ t''.leaves
    · right
      rw [hrem.leaves]
      exact Multiset.mem_cons_of_mem hl
    · exact .inl ((hrem.inner j hl).mp ((mem_ids.mp hj).resolve_right hl)).1
  have hdeleted : f.id ∉ t''.ids := by
    intro hj
    exact ((hrem.inner _ hleaves.1).mp ((mem_ids.mp hj).resolve_right hleaves.1)).2 rfl
  have hfirst : place k = .root → o ≠ 0 → o ∈ t''.inner := by
    intro hroot ho0
    have hlink := h'.linked
    have hlr : linkAt s'.nodes .root = o := by
      rw [hs']
      exact ((hne 0 (.inl (Ne.symm ho0))).2 true).trans (if_pos hroot)
    rw [← hkeep, hlr] at hlink
    cases t'' with
    | nil => exact absurd hlink ho0
    | leaf i => exact absurd hlink.2.2 (by omega)
    | node i c child => exact mem_inner_node.mpr (.inl hlink.1)
  have hkey : ∀ j, (s'.nodes j).key = (s.nodes j).key := fun j => by
    rw [hs']
    exact (hfields j).1
  have hkeys : s'.keys = s.keys := by rw [hs']; rfl
  refine
    { redo := hredo
      large := by rw [hs']; rfl
      again := .inl rfl
      fits := ⟨hknown _ (mem_ids.mpr (.inl hin)), mem_ids.mpr (.inl hin), hdeleted, fun _ ho0 =>
        ⟨hmem.resolve_left ho0, hknown _ (hmem.resolve_left ho0), fun hroot => hfirst hroot ho0⟩⟩
      known := fun j hj => by rw [hs']; exact hj
      check := fun j _ => ?_
      inner := fun j _ hj => ?_
      gone := fun j _ hout => hgone j hout
      lr := fun j hj0 hout _ _ => ?_
      key := fun j _ _ => ⟨hkey j, keyOf_congr (hkey j) hkeys⟩
      shape := fun j _ => congrArg StoredKey.shape (hkey j) }
  · rw [hs']
    by_cases hj : j ≠ o ∨ o = 0
    · exact .inl (hne j hj).1
    push Not at hj
    obtain ⟨rfl, ho0⟩ := hj
    show (nodes j).check = _ ∨ (nodes j).check = 0 ∧ _
    rw [(hother ho0).1]
    unfold outputCheck
    split_ifs with hreset
    · have hox : j ≠ f.id := fun hjf => h.lr_ne (by rw [← ho, hjf])
      exact .inr ⟨rfl, hmem.resolve_left ho0, not_inner_of_reset h ho ho0 hcheck0 hreset hox⟩
    · exact .inl rfl
  · by_cases hjf : j = f.id
    · exact .inr (hjf ▸ hdeleted)
    · exact .inl (mem_inner_of_remove hu' howned hou hcheck0 h' hj hjf)
  · rw [hs']
    have hj : j ≠ o ∨ o = 0 := by
      by_cases ho0 : o = 0
      · exact .inr ho0
      · exact .inl fun hjo => hout (hjo ▸ hmem.resolve_left ho0)
    funext d
    refine ((hne j hj).2 d).trans (if_neg ?_)
    have hplug : plug (f :: k) (.leaf f.id) = plug k (f.fill (.leaf f.id)) := plug_cons ..
    rw [hplug] at hout
    exact place_ne_of_not_mem_plug hj0 fun hin => hout (mem_ids.mpr (.inl hin))

/-- **An output is deleted that has only a self-loop.** -/
theorem Step.deleteAlone (h : Rooted s.nodes s.words (plug (f :: k) (.leaf x)) own)
    (hknown : ∀ j ∈ (plug (f :: k) (.leaf x)).ids, s.KnownId lost j) (hne : x ≠ f.id)
    (hloop : SelfLoop s.nodes x)
    (hredo : recoverEntry s (.deleteEntry x (place (f :: k)) c (place k) i o nGarbages nEntries slot phase1
      phase2) = some s')
    (h' : Rooted s'.nodes s'.words t' own') :
    Step lost log s (plug (f :: k) (.leaf x)) (.deleteEntry x (place (f :: k)) c (place k) i o nGarbages nEntries
      slot phase1 phase2) s' t' := by
  have hlive : x ∈ (plug (f :: k) (.leaf x)).leaves :=
    mem_plug_leaves.mpr (.inl (Multiset.mem_singleton_self _))
  have hids : x ∈ (plug (f :: k) (.leaf x)).ids := mem_ids.mpr (.inr hlive)
  have hfree := h.unowned_of_selfLoop hne hloop
  have hnot := h.not_inner_of_unowned hlive hfree
  have hs' := (Option.some.inj hredo).symm.trans (recoverDeleteEntry_alone s hne hloop)
  subst hs'
  have hinner : (plug (f :: k) .nil).inner = (plug (f :: k) (.leaf x)).inner := by
    rw [inner_plug, inner_plug]
    rfl
  have hleaves : (plug (f :: k) (.leaf x)).leaves = x ::ₘ (plug (f :: k) .nil).leaves := by
    rw [leaves_plug, leaves_plug, leaves_leaf, leaves_nil, zero_add, Multiset.singleton_add]
  obtain rfl : plug (f :: k) .nil = t' := Rooted.tree_eq
    (h.pruneLeaf hfree (fun j => store_check) (fun j d hp => store_lr_of_ne hp) store_lr_self) h'
  have hnodup := h.leaves_nodup
  rw [hleaves, Multiset.nodup_cons] at hnodup
  have hdeleted : x ∉ (plug (f :: k) .nil).ids := fun hx => (mem_ids.mp hx).elim (fun hx => hnot (hinner ▸ hx)) hnodup.1
  exact
    { redo := hredo
      large := rfl
      again := .inr hloop
      fits := ⟨hknown _ hids, hids, hdeleted, fun heq => absurd heq hne⟩
      known := fun j hj => hj
      check := fun j _ => .inl store_check
      inner := fun j _ hj => .inl (hinner ▸ hj)
      gone := fun j _ hout hj => hout (mem_ids.mpr ((mem_ids.mp hj).imp (fun hj => hinner ▸ hj) fun hj => by
        rw [hleaves]
        exact Multiset.mem_cons_of_mem hj))
      lr := fun j hj0 hout _ _ => funext fun d => store_lr_of_ne
        (place_ne_of_not_mem_plug hj0 fun hin => hout (mem_ids.mpr (.inl hin)))
      key := fun j _ _ => ⟨store_key, keyOf_congr store_key rfl⟩
      shape := fun j _ => congrArg StoredKey.shape store_key }

end Delete

end Groonga.Pat
