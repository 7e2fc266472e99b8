import Groonga.Pat.Find
import Groonga.Pat.Keys
import Mathlib

/-!
# Addition

An addition stores the key of a new or a recycled node and links the node at the place
that the search has found. It keeps the invariant, and the new record is the only change
to the live ones.
-/

namespace Groonga.Pat

open Lib.Patricia Lib.Patricia.Trie

variable {s s₁ s' : GrnPat} {t T : Trie ℕ} {own : ℕ → ℕ} {free : ℕ → List ℕ} {lost : Finset ℕ}
  {k : List (Frame ℕ)} {i j c : ℕ} {key : List UInt8}

/-! ## Linking a node -/

section Enable

variable {m : ℕ} {p : Loc} {d : Bool}

theorem enable_check_of_ne (hji : j ≠ i) :
    ((grnPatEnableNode s i key c m p).nodes j).check = (s.nodes j).check := by
  rw [grnPatEnableNode, store_check, modify_of_ne hji]

theorem enable_check_self : ((grnPatEnableNode s i key c m p).nodes i).check = c := by
  rw [grnPatEnableNode, store_check, modify_self]

theorem enable_deleting_of_ne (hji : j ≠ i) :
    ((grnPatEnableNode s i key c m p).nodes j).deleting = (s.nodes j).deleting := by
  rw [grnPatEnableNode, store_deleting, modify_of_ne hji]

theorem enable_deleting_self : ((grnPatEnableNode s i key c m p).nodes i).deleting = false := by
  rw [grnPatEnableNode, store_deleting, modify_self]

theorem enable_lr_of_ne (hji : j ≠ i) (hp : p ≠ ⟨j, d⟩) :
    ((grnPatEnableNode s i key c m p).nodes j).lr d = (s.nodes j).lr d := by
  rw [grnPatEnableNode, store_lr_of_ne hp, modify_of_ne hji]

theorem enable_lr_self (hp : p.node ≠ i) :
    ((grnPatEnableNode s i key c m p).nodes i).lr d =
      if d = direction key c m then i else linkAt s.nodes p := by
  rw [grnPatEnableNode, store_lr_of_ne fun h => hp (congrArg Loc.node h), modify_self]
  rfl

theorem enable_link : linkAt (grnPatEnableNode s i key c m p).nodes p = i := store_lr_self

theorem enable_keyOf : (grnPatEnableNode s i key c m p).keyOf = s.keyOf := by
  funext j
  refine keyOf_congr ?_ rfl
  rw [grnPatEnableNode, store_key]
  exact modify_field Node.key fun _ => rfl

end Enable

/-- **The tree after a node is linked.** -/
theorem rooted_enable (h : Rooted s.nodes s.words (plug k t) own) (hne : ∀ j, j ≠ i → s₁.nodes j = s.nodes j)
    (hreads : s₁.keyOf i = key) (hkeeps : ∀ j ∈ (plug k t).ids, s₁.keyOf j = s.keyOf j) (hi : i ≠ 0)
    (hnew : i ∉ (plug k t).ids) (hins : Insertable s.words (word key) k t c)
    (hs' : s' = grnPatEnableNode s₁ i key c (key.length * 16) (place k)) :
    ∃ t' own', Rooted s'.nodes s'.words t' own' ∧ t'.leaves = i ::ₘ (plug k t).leaves ∧
      (∀ j, j ≠ i → (j ∈ t'.inner ↔ j ∈ (plug k t).inner)) ∧ ∀ j, j ≠ i → own' j = own j := by
  have hwi : s'.words i = word key := by
    rw [hs', GrnPat.words, enable_keyOf, hreads]
  have hw : ∀ j ∈ (plug k t).ids, s'.words j = s.words j := by
    intro j hj
    rw [hs', GrnPat.words, enable_keyOf, hkeeps j hj]
    rfl
  have hfits : Fits s'.words k (s'.words i) := by
    rw [hwi]
    refine hins.fits.congr fun j hj => hw j ?_
    exact mem_ids_plug.mpr (.inr (.inl hj))
  have hcheck : ∀ j, j ≠ i → (s'.nodes j).check = (s.nodes j).check := by
    intro j hji
    rw [hs', enable_check_of_ne hji, hne j hji]
  have hlr : ∀ j, j ≠ i → ∀ d, place k ≠ ⟨j, d⟩ → (s'.nodes j).lr d = (s.nodes j).lr d := by
    intro j hji d hp
    rw [hs', enable_lr_of_ne hji hp, hne j hji]
  have hlink : linkAt s'.nodes (place k) = i := by rw [hs']; exact enable_link
  have hnode : (s'.nodes i).check = c := by rw [hs']; exact enable_check_self
  have hpi : (place k).node ≠ i := by
    intro hp
    rcases @node_place_mem k i (place k).direction (by rw [← hp]) with h0 | hin
    · exact hi h0
    · exact hnew (mem_ids_plug.mpr (.inr (.inl hin)))
  have hself : (s'.nodes i).lr ((s'.words i).bit c) = i := by
    rw [hwi, hs', enable_lr_self hpi]
    exact if_pos rfl
  have hnext : (s'.nodes i).lr (!(s'.words i).bit c) = linkAt s.nodes (place k) := by
    have hplace : linkAt s₁.nodes (place k) = linkAt s.nodes (place k) := by
      rw [linkAt, linkAt, hne _ hpi]
    rw [hwi, hs', enable_lr_self hpi, ← hplace]
    exact if_neg (Bool.not_ne_self _)
  have hlen : c < (s'.words i).len := by rw [hwi]; exact hins.lt
  rcases hins.side with ⟨hc, hwft, hdiff⟩ | ⟨rfl, hc⟩
  · refine ⟨_, _, h.branch hi hnew hw hc hlen hfits (hwft.congr fun j hj => hw j ?_)
      (fun j hj => ?_) hcheck hlr hlink hnode hself hnext, ?_, fun j hji => ?_, fun j hji => ?_⟩
    · exact mem_ids_plug.mpr (.inl hj)
    · rw [hwi, hw j (mem_ids_plug.mpr (.inl hj))]
      exact hdiff j hj
    · rw [leaves_plug, leaves_plug, leavesBeside, leaves_leaf, Multiset.singleton_add]
    · rw [mem_plug_inner, mem_plug_inner, mem_innerBeside_cons, inner_leaf]
      simp only [Multiset.notMem_zero, false_or, hji]
    · exact Function.update_of_ne hji ..
  · have hnil : linkAt s.nodes (place k) = 0 := (linked_plug.mp h.linked).2
    refine ⟨_, _, h.putLeaf hi hnew hw hc hlen hfits hcheck hlr hlink hnode hself
      (hnext.trans hnil), ?_, fun j _ => ?_, fun j _ => rfl⟩
    · rw [leaves_plug, leaves_plug, leaves_leaf, leaves_nil, zero_add, Multiset.singleton_add]
    · rw [mem_plug_inner, mem_plug_inner, inner_leaf, inner_nil]

/-! ## The rest of the invariant -/

theorem Slots.add {nodes nodes' : ℕ → Node} {delinfos : ℕ → Delinfo} {t t' : Trie ℕ}
    {own own' : ℕ → ℕ} (h : Slots nodes delinfos t own) (howned : Owned own t)
    (hlive : i ∉ t.leaves) (hpending : ¬ Pending delinfos i) (hleaves : t'.leaves = i ::ₘ t.leaves)
    (hinner : ∀ j, j ≠ i → (j ∈ t'.inner ↔ j ∈ t.inner)) (hown : ∀ j, j ≠ i → own' j = own j)
    (hself : (nodes' i).deleting = false)
    (hdeleting : ∀ j, j ≠ i → (nodes' j).deleting = (nodes j).deleting) :
    Slots nodes' delinfos t' own' := by
  have hd : ∀ n, (delinfos n).stat ≠ .empty → (delinfos n).d ≠ i := fun n hn hni =>
    hpending ⟨n, hn, hni⟩
  have hphase1 : ∀ n, (delinfos n).stat = .phase1 → (delinfos n).d ≠ i := fun n hn =>
    hd n (by rw [hn]; exact Stat.noConfusion)
  have hids : ∀ j, j ≠ i → (j ∈ t'.ids ↔ j ∈ t.ids) := by
    intro j hji
    simp only [mem_ids, hinner j hji, hleaves, Multiset.mem_cons, hji, false_or]
  refine ⟨fun n hn => ?_, fun j hj hdead => ?_, fun n hn => ?_, h.d_inj, fun j hj => ?_⟩
  · obtain ⟨h1, h2, h3⟩ := h.phase1 n hn
    have hne := hphase1 n hn
    refine ⟨(hinner _ hne).mpr h1, ?_, (hown _ hne).trans h3⟩
    rw [hleaves, Multiset.mem_cons, not_or]
    exact ⟨hne, h2⟩
  · rw [hleaves, Multiset.mem_cons, not_or] at hdead
    exact h.dead j ((hinner j hdead.1).mp hj) hdead.2
  · have hne := hd n (by rw [hn]; exact Stat.noConfusion)
    rw [hids _ hne]
    exact h.phase2 n hn
  · by_cases hji : j = i
    · subst hji
      rw [hself]
      refine iff_of_false Bool.false_ne_true ?_
      rintro ⟨n, hn, hld | hdj⟩
      · -- the node that takes over is live
        obtain ⟨h1, -, h3⟩ := h.phase1 n hn
        exact hlive (hld ▸ h3 ▸ howned.mem_leaves h1)
      · exact hphase1 n hn hdj
    · rw [hdeleting j hji]
      exact h.deleting j ((hids j hji).mp hj)

/-- **The invariant after a node is linked.** -/
theorem Inv.enable {free' : ℕ → List ℕ} (h : Inv s (plug k t) own free lost) (hst : Stores s s₁ lost i key)
    (hins : Insertable s.words (word key) k t c) (hi : i ≠ 0) (hlive : i ∉ (plug k t).leaves)
    (hpending : ¬ Pending s.delinfos i)
    (hrec : ∀ j, s₁.KnownId lost j ↔ j = i ∨ s.KnownId lost j)
    (hle : s.currRec ≤ s₁.currRec) (hmax : s₁.currRec ≤ grnIdMax)
    (hfree : ∀ n j, j ∈ free' n ↔ j ∈ free n ∧ j ≠ i) (hnodup : ∀ n, (free' n).Nodup)
    (hchain : ∀ n, Chain s₁.nodes (s₁.garbages n) (free' n))
    (hentries : s₁.nEntries = s.nEntries + 1)
    (hcount : s₁.nEntries + s₁.nGarbages + lost.card = s₁.currRec)
    (hs' : s' = grnPatEnableNode s₁ i key c (key.length * 16) (place k)) :
    ∃ t' own', Inv s' t' own' free' lost ∧ t'.leaves = i ::ₘ (plug k t).leaves := by
  have hnew : i ∉ (plug k t).ids := fun hids =>
    (h.live_or_pending hids).elim hlive hpending
  obtain ⟨t', own', hrooted, hleaves, hinner, hown⟩ :=
    rooted_enable h.rooted hst.nodes_ne hst.keyOf_self (fun j hj => hst.keyOf_ne j (h.known hj)
      fun hji => hnew (hji ▸ hj)) hi hnew hins hs'
  have hkeyOf : s'.keyOf = s₁.keyOf := by rw [hs', enable_keyOf]
  have hdelinfos : s'.delinfos = s.delinfos := by rw [hs', ← hst.delinfos]; rfl
  have hcurrRec : s'.currRec = s₁.currRec := by rw [hs']; rfl
  have hknown : ∀ j, s'.KnownId lost j ↔ s₁.KnownId lost j := fun j => by
    rw [GrnPat.KnownId, hcurrRec, GrnPat.KnownId]
  have hkey : ∀ j, (s'.nodes j).key = (s₁.nodes j).key := by
    intro j
    rw [hs', grnPatEnableNode, store_key]
    exact modify_field Node.key fun _ => rfl
  have hkeep : ∀ j ∈ (plug k t).leaves, s'.keyOf j = s.keyOf j := by
    intro j hj
    rw [hkeyOf, hst.keyOf_ne j (h.known (mem_ids.mpr (.inr hj))) fun hji => hlive (hji ▸ hj)]
  -- free nodes are neither in the tree nor the new one
  have hlr : ∀ n, ∀ j ∈ free' n, (s'.nodes j).lr false = (s₁.nodes j).lr false := by
    intro n j hj
    obtain ⟨hj, hji⟩ := (hfree n j).mp hj
    have hj0 : j ≠ 0 := Nat.one_le_iff_ne_zero.mp ((h.accounts.total j).mp (.inr (.inr ⟨n, hj⟩))).1
    rw [hs']
    refine enable_lr_of_ne hji (place_ne_of_not_mem_plug (t := t) hj0 fun hin => ?_)
    exact h.not_mem_ids_of_free hj (mem_ids.mpr (.inl hin))
  refine ⟨t', own', ⟨hrooted, ?_, ?_, ?_, ?_, ?_⟩, hleaves⟩
  · refine h.ring.congr ?_ hdelinfos
    rw [hs', ← hst.ring.1, ← hst.ring.2.1, ← hst.ring.2.2]
    exact ⟨rfl, rfl, rfl⟩
  · rw [hdelinfos]
    refine h.slots.add h.rooted.owned hlive hpending hleaves hinner hown ?_ fun j hji => ?_
    · rw [hs', enable_deleting_self]
    · rw [hs', enable_deleting_of_ne hji, hst.nodes_ne j hji]
  · have hlarge : s'.isKeyLarge = s₁.isKeyLarge := by rw [hs']; rfl
    have hcurrKey : s'.currKey = s₁.currKey := by rw [hs']; rfl
    constructor
    · intro j hj
      rw [hknown] at hj
      rw [hlarge, hcurrKey, hkey]
      exact hst.keys.valid j hj
    · intro a b ha hb
      rw [hknown] at ha hb
      rw [hkey, hkey]
      exact hst.keys.apart a b ha hb
  · have hnEntries : s'.nEntries = s₁.nEntries := by rw [hs']; rfl
    have hnGarbages : s'.nGarbages = s₁.nGarbages := by rw [hs']; rfl
    have hgarbages : s'.garbages = s₁.garbages := by rw [hs']; rfl
    refine
      { total := fun j => ?_
        lost_le := fun j hj => ?_
        currRec_le := by rw [hcurrRec]; exact hmax
        live_not_pending := fun j hj => ?_
        live_not_free := fun j hj n hjn => ?_
        pending_not_free := fun j hj n hjn => ?_
        free_nodup := hnodup
        free_disjoint := fun a b j ha hb => ?_
        chain := fun n => ?_
        size := fun n j hj => ?_
        entries := ?_
        count := ?_ }
    · rw [hdelinfos, hknown, hrec, hleaves, Multiset.mem_cons, ← h.accounts.total]
      simp only [hfree]
      by_cases hji : j = i
      · simp only [hji, true_or]
      · simp only [hji, false_or, ne_eq, not_false_eq_true, and_true]
    · rw [hcurrRec]
      exact ⟨(h.accounts.lost_le j hj).1, (h.accounts.lost_le j hj).2.trans hle⟩
    · rw [hleaves, Multiset.mem_cons] at hj
      rw [hdelinfos]
      rcases hj with rfl | hj
      · exact hpending
      · exact h.accounts.live_not_pending j hj
    · rw [hleaves, Multiset.mem_cons] at hj
      obtain ⟨hjn, hji⟩ := (hfree n j).mp hjn
      exact h.accounts.live_not_free j (hj.resolve_left hji) n hjn
    · rw [hdelinfos] at hj
      exact h.accounts.pending_not_free j hj n ((hfree n j).mp hjn).1
    · exact h.accounts.free_disjoint a b j ((hfree a j).mp ha).1 ((hfree b j).mp hb).1
    · rw [hgarbages]
      exact (hchain n).congr (hlr n)
    · obtain ⟨hj, hji⟩ := (hfree n j).mp hj
      rw [hkey, hst.nodes_ne j hji]
      exact h.accounts.size n j hj
    · rw [hnEntries, hentries, hleaves, Multiset.card_cons, h.accounts.entries]
    · rw [hnEntries, hnGarbages, hcurrRec, hcount]
  · intro hsize a ha
    have hcache : s'.cache = s.cache := by rw [hs', ← hst.cache.2]; rfl
    have hcacheSize : s'.cacheSize = s.cacheSize := by rw [hs', ← hst.cache.1]; rfl
    rw [hcacheSize] at hsize ⊢
    rw [hcache] at ha ⊢
    obtain ⟨hl, hid⟩ := h.cache hsize a ha
    rw [hleaves, hkeep _ hl]
    exact ⟨Multiset.mem_cons_of_mem hl, hid⟩

/-! ## The operation -/

/-- The node and the state of an addition that has found the place of its key. -/
def addAt (s : GrnPat) (key : List UInt8) (c : ℕ) (p : Loc) : Option (GrnPat × ℕ × Bool) :=
  let garbage := s.garbages (patKeyStorageSize s.isKeyLarge key.length)
  if garbage ≠ 0 then
    some ((grnPatEnableNode (recycle s garbage key) garbage key c (key.length * 16) p).setCache
      key garbage, garbage, true)
  else if grnIdMax < s.currRec + 1 then none
  else
    (patNodeSetKey s (s.currRec + 1) key).map fun s₁ =>
      ((grnPatEnableNode { s₁ with currRec := s.currRec + 1, nEntries := s₁.nEntries + 1 }
        (s.currRec + 1) key c (key.length * 16) p).setCache key (s.currRec + 1), s.currRec + 1, true)

/-- **The two outcomes of the search.** -/
theorem grnPatAdd_eq (h : Inv s t own free lost) (hkey : key ≠ []) (hlen : key.length ≤ maxKeySize) :
    (∃ i ∈ t.leaves, s.keyOf i = key ∧ (grnPatAdd s key = some (s, i, false) ∨
      grnPatAdd s key = some (s.setCache key i, i, false))) ∨
    ((∀ j ∈ t.leaves, s.keyOf j ≠ key) ∧ ∃ k t₀ c, plug k t₀ = t ∧
      Insertable s.words (word key) k t₀ c ∧ grnPatAdd s key = addAt s key c (place k)) := by
  have hadd : grnPatAdd s key = grnPatAddInternal s key :=
    if_neg (not_or.mpr ⟨hkey, Nat.not_lt.mpr hlen⟩)
  rw [hadd]
  unfold grnPatAddInternal
  by_cases hhit : s.cacheSize ≠ 0 ∧ s.cache (grnPatCacheComputeId s.cacheSize key) ≠ 0 ∧
      s.keyOf (s.cache (grnPatCacheComputeId s.cacheSize key)) = key
  · -- the cache knows the key
    rw [if_pos hhit]
    exact .inl ⟨_, (h.cache hhit.1 _ hhit.2.1).1, hhit.2.2, .inl rfl⟩
  · rw [if_neg hhit]
    rcases grnPatAddInternalFind_spec h.rooted (fun j hj => h.keyOf_ne_nil hj) hkey with
      ⟨i, hi, hki, hfind⟩ | ⟨hno, k, t₀, c, hplug, hins, hfind⟩
    · rw [hfind]
      exact .inl ⟨i, hi, hki, .inr rfl⟩
    · rw [hfind]
      refine .inr ⟨hno, k, t₀, c, hplug, hins, ?_⟩
      simp only [Option.bind_eq_bind, Option.bind_some, addAt, patCheckPack_length,
        grnPatReuseNode_eq, grnPatAddNode]
      split_ifs
      · rfl
      · rfl
      · cases patNodeSetKey s (s.currRec + 1) key <;> rfl

/-- What an addition does to the live records: nothing if the key is there, one more
record otherwise. -/
inductive Added (s : GrnPat) (t : Trie ℕ) (key : List UInt8) (s' : GrnPat) (t' : Trie ℕ) (i : ℕ) :
    Bool → Prop
  | there (hlive : i ∈ t.leaves) (hkey : s.keyOf i = key) (hleaves : t'.leaves = t.leaves)
      (hkeep : ∀ j ∈ t.leaves, s'.keyOf j = s.keyOf j) : Added s t key s' t' i false
  | new (hno : ∀ j ∈ t.leaves, s.keyOf j ≠ key) (hpending : ¬ Pending s.delinfos i)
      (hlive : i ∉ t.leaves) (hi : i ≠ 0) (hkey : s'.keyOf i = key)
      (hleaves : t'.leaves = i ::ₘ t.leaves)
      (hkeep : ∀ j ∈ t.leaves, s'.keyOf j = s.keyOf j) : Added s t key s' t' i true

/-- The free nodes after the first one of a list is taken. -/
theorem mem_free_tail (hnodup : ∀ n, (free n).Nodup) (hdisjoint : ∀ m n i, i ∈ free m → i ∈ free n → m = n)
    {n : ℕ} {l : List ℕ} (hl : free n = i :: l) (m j : ℕ) :
    j ∈ Function.update free n l m ↔ j ∈ free m ∧ j ≠ i := by
  have hnodup := hnodup n
  rw [hl, List.nodup_cons] at hnodup
  have hi : i ∈ free n := by rw [hl]; exact List.mem_cons_self ..
  by_cases hmn : m = n
  · subst hmn
    rw [Function.update_self, hl, List.mem_cons]
    constructor
    · intro hj
      exact ⟨.inr hj, fun hji => hnodup.1 (hji ▸ hj)⟩
    · rintro ⟨rfl | hj, hji⟩
      · exact absurd rfl hji
      · exact hj
  · rw [Function.update_of_ne hmn]
    refine ⟨fun hj => ⟨hj, ?_⟩, And.left⟩
    rintro rfl
    exact hmn (hdisjoint m n j hj hi)

/-- There is garbage while there is an id that is not live. -/
theorem one_le_nGarbages (h : Inv s t own free lost) (hi : s.KnownId lost i)
    (hlive : i ∉ t.leaves) : 1 ≤ s.nGarbages := by
  have hknown : ∀ j ∈ i ::ₘ t.leaves, s.KnownId lost j := by
    intro j hj
    rcases Multiset.mem_cons.mp hj with rfl | hj
    · exact hi
    · exact h.known (mem_ids.mpr (.inr hj))
  have hsub : i ::ₘ t.leaves ≤ (Finset.Icc 1 s.currRec \ lost).val := by
    refine (Multiset.le_iff_subset (Multiset.nodup_cons.mpr ⟨hlive, h.rooted.leaves_nodup⟩)).mpr ?_
    intro j hj
    rw [Finset.mem_val, Finset.mem_sdiff, Finset.mem_Icc]
    exact ⟨⟨(hknown j hj).1, (hknown j hj).2.1⟩, (hknown j hj).2.2⟩
  have hlost : lost ⊆ Finset.Icc 1 s.currRec := fun j hj =>
    Finset.mem_Icc.mpr (h.accounts.lost_le j hj)
  have hcard := Multiset.card_le_card hsub
  rw [Multiset.card_cons, Finset.card_val, Finset.card_sdiff_of_subset hlost, Nat.card_Icc] at hcard
  have hentries := h.accounts.entries
  have hcount := h.accounts.count
  omega

/-- The new record is the only change to the live ones. -/
theorem added_enable {free' : ℕ → List ℕ} (h : Inv s (plug k t) own free lost)
    (hno : ∀ j ∈ (plug k t).leaves, s.keyOf j ≠ key) (hst : Stores s s₁ lost i key)
    (hins : Insertable s.words (word key) k t c) (hi : i ≠ 0) (hlive : i ∉ (plug k t).leaves)
    (hpending : ¬ Pending s.delinfos i)
    (hrec : ∀ j, s₁.KnownId lost j ↔ j = i ∨ s.KnownId lost j)
    (hle : s.currRec ≤ s₁.currRec) (hmax : s₁.currRec ≤ grnIdMax)
    (hfree : ∀ n j, j ∈ free' n ↔ j ∈ free n ∧ j ≠ i) (hnodup : ∀ n, (free' n).Nodup)
    (hchain : ∀ n, Chain s₁.nodes (s₁.garbages n) (free' n))
    (hentries : s₁.nEntries = s.nEntries + 1)
    (hcount : s₁.nEntries + s₁.nGarbages + lost.card = s₁.currRec)
    (hs' : s' = grnPatEnableNode s₁ i key c (key.length * 16) (place k)) :
    ∃ t' own' free', Inv (s'.setCache key i) t' own' free' lost ∧
      Added s (plug k t) key (s'.setCache key i) t' i true := by
  obtain ⟨t', own', hinv, hleaves⟩ :=
    h.enable hst hins hi hlive hpending hrec hle hmax hfree hnodup hchain hentries hcount hs'
  have hkeyOf : s'.keyOf = s₁.keyOf := by rw [hs', enable_keyOf]
  have hself : s'.keyOf i = key := by rw [hkeyOf, hst.keyOf_self]
  have hmem : i ∈ t'.leaves := by rw [hleaves]; exact Multiset.mem_cons_self ..
  refine ⟨t', own', free', hinv.setCache (.inr ⟨hmem, hself⟩), .new hno hpending hlive hi ?_ hleaves
    fun j hj => ?_⟩
  · rw [setCache_keyOf, hself]
  · rw [setCache_keyOf, hkeyOf,
      hst.keyOf_ne j (h.known (mem_ids.mpr (.inr hj))) fun hji => hlive (hji ▸ hj)]

/-- A new record in a free node. -/
theorem added_recycle (h : Inv s (plug k t) own free lost) (hno : ∀ j ∈ (plug k t).leaves, s.keyOf j ≠ key)
    (hkey : key ≠ []) (hins : Insertable s.words (word key) k t c)
    (hi : s.garbages (patKeyStorageSize s.isKeyLarge key.length) = i) (hi0 : i ≠ 0)
    (hs' : s' = grnPatEnableNode (recycle s i key) i key c (key.length * 16) (place k)) :
    ∃ t' own' free', Inv (s'.setCache key i) t' own' free' lost ∧
      Added s (plug k t) key (s'.setCache key i) t' i true := by
  have hchain := h.accounts.chain (patKeyStorageSize s.isKeyLarge key.length)
  cases hfree : free (patKeyStorageSize s.isKeyLarge key.length) with
  | nil =>
    rw [hfree, hi] at hchain
    exact absurd hchain hi0
  | cons g l =>
    rw [hfree, hi] at hchain
    obtain ⟨rfl, -, hl⟩ := hchain
    have hmem : i ∈ free (patKeyStorageSize s.isKeyLarge key.length) := by
      rw [hfree]
      exact List.mem_cons_self ..
    have hknown := (h.accounts.total i).mp (.inr (.inr ⟨_, hmem⟩))
    have hlive : i ∉ (plug k t).leaves := fun hl => h.accounts.live_not_free i hl _ hmem
    have hpending : ¬ Pending s.delinfos i := fun hp => h.accounts.pending_not_free i hp _ hmem
    have hst := stores_recycle h.keys hknown hkey (h.accounts.size _ i hmem)
    obtain ⟨hgarbages, hnGarbages, hnEntries, hcurrRec⟩ := @recycle_counters s i key
    have hcount := h.accounts.count
    have hone := one_le_nGarbages h hknown hlive
    have hrest := mem_free_tail h.accounts.free_nodup h.accounts.free_disjoint hfree
    refine added_enable h hno hst hins hi0 hlive hpending (fun j => ?_) hcurrRec.ge
      (hcurrRec.le.trans h.accounts.currRec_le) hrest (fun n => ?_) (fun n => ?_) hnEntries ?_ hs'
    · rw [GrnPat.KnownId, hcurrRec]
      refine ⟨.inr, ?_⟩
      rintro (rfl | hj)
      · exact hknown
      · exact hj
    · by_cases hn : n = patKeyStorageSize s.isKeyLarge key.length
      · rw [hn, Function.update_self]
        have := h.accounts.free_nodup (patKeyStorageSize s.isKeyLarge key.length)
        rw [hfree] at this
        exact this.of_cons
      · rw [Function.update_of_ne hn]
        exact h.accounts.free_nodup n
    · have hlr : ∀ j ∈ Function.update free (patKeyStorageSize s.isKeyLarge key.length) l n,
          ((recycle s i key).nodes j).lr false = (s.nodes j).lr false := fun j hj => by
        rw [hst.nodes_ne j ((hrest n j).mp hj).2]
      refine Chain.congr ?_ hlr
      rw [hgarbages, garbagesAfter]
      by_cases hn : n = patKeyStorageSize s.isKeyLarge key.length
      · rw [hn, Function.update_self, Function.update_self]
        exact hl
      · rw [Function.update_of_ne hn, Function.update_of_ne hn]
        exact h.accounts.chain n
    · omega

/-- A new record in a new node. -/
theorem added_new (h : Inv s (plug k t) own free lost) (hno : ∀ j ∈ (plug k t).leaves, s.keyOf j ≠ key)
    (hlen : key.length ≤ maxKeySize) (hmax : s.currRec + 1 ≤ grnIdMax)
    (hins : Insertable s.words (word key) k t c)
    (hset : patNodeSetKey s (s.currRec + 1) key = some s₁)
    (hs' : s' = grnPatEnableNode { s₁ with currRec := s.currRec + 1, nEntries := s₁.nEntries + 1 }
      (s.currRec + 1) key c (key.length * 16) (place k)) :
    ∃ t' own' free', Inv (s'.setCache key (s.currRec + 1)) t' own' free' lost ∧
      Added s (plug k t) key (s'.setCache key (s.currRec + 1)) t' (s.currRec + 1) true := by
  have hst := @stores_patNodeSetKey s s₁ key lost (s₁.nEntries + 1) h.keys hlen hset
  obtain ⟨hgarbages, hnGarbages, hnEntries⟩ := patNodeSetKey_counters hlen hset
  -- an id behind `currRec` is nowhere
  have hnot : ¬ (s.currRec + 1 ∈ (plug k t).leaves ∨ Pending s.delinfos (s.currRec + 1) ∨
      ∃ n, s.currRec + 1 ∈ free n) := by
    rw [h.accounts.total]
    exact fun hknown => absurd hknown.2.1 (Nat.not_succ_le_self _)
  rw [not_or, not_or, not_exists] at hnot
  obtain ⟨hlive, hpending, hnofree⟩ := hnot
  have hne : ∀ n, ∀ j ∈ free n, j ≠ s.currRec + 1 := fun n j hj hji => hnofree n (hji ▸ hj)
  have hcount := h.accounts.count
  have hlost : s.currRec + 1 ∉ lost := fun hin =>
    absurd (h.accounts.lost_le _ hin).2 (Nat.not_succ_le_self _)
  refine added_enable h hno hst hins (Nat.succ_ne_zero _) hlive hpending (fun j => ?_)
    (Nat.le_succ _) hmax (fun n j => ⟨fun hj => ⟨hj, hne n j hj⟩, And.left⟩)
    h.accounts.free_nodup (fun n => ?_) ?_ ?_ hs'
  · simp only [GrnPat.KnownId]
    constructor
    · rintro ⟨h1, h2, h3⟩
      rcases Nat.le_succ_iff.mp h2 with h2 | rfl
      · exact .inr ⟨h1, h2, h3⟩
      · exact .inl rfl
    · rintro (rfl | ⟨h1, h2, h3⟩)
      · exact ⟨Nat.succ_pos _, le_rfl, hlost⟩
      · exact ⟨h1, h2.trans (Nat.le_succ _), h3⟩
  · have hchain := (h.accounts.chain n).congr fun j hj =>
      congrFun (congrArg Node.lr (hst.nodes_ne j (hne n j hj))) false
    rw [← hgarbages] at hchain
    exact hchain
  · exact congrArg (· + 1) hnEntries
  · simp only [hnEntries, hnGarbages]
    omega

/-- **Addition keeps the invariant.** -/
theorem grnPatAdd_spec {b : Bool} (h : Inv s t own free lost) (hadd : grnPatAdd s key = some (s', i, b)) :
    ∃ t' own' free', Inv s' t' own' free' lost ∧ Added s t key s' t' i b := by
  have hkey : key ≠ [] := by
    rintro rfl
    cases hadd
  have hlen : key.length ≤ maxKeySize := by
    by_contra hlen
    have : grnPatAdd s key = none := if_pos (.inr (Nat.not_le.mp hlen))
    rw [this] at hadd
    cases hadd
  rcases grnPatAdd_eq h hkey hlen with ⟨a, ha, hka, heq | heq⟩ | ⟨hno, k, t₀, c, rfl, hins, heq⟩
  · rw [heq] at hadd
    cases hadd
    exact ⟨t, own, free, h, .there ha hka rfl fun _ _ => rfl⟩
  · rw [heq] at hadd
    cases hadd
    exact ⟨t, own, free, h.setCache (.inr ⟨ha, hka⟩),
      .there ha hka rfl fun _ _ => by rw [setCache_keyOf]⟩
  · rw [heq] at hadd
    simp only [addAt] at hadd
    split_ifs at hadd with hgarbage hmax
    · cases hadd
      exact added_recycle h hno hkey hins rfl hgarbage rfl
    · obtain ⟨s₁, hset, hs₁⟩ := Option.map_eq_some_iff.mp hadd
      cases hs₁
      exact added_new h hno hlen (Nat.not_lt.mp hmax) hins hset rfl

/-- There is room for one more key. -/
def HasRoom (s : GrnPat) (key : List UInt8) : Prop :=
  s.currRec < grnIdMax ∧ (keyPut s key).isSome

/-- **An addition fails only for want of room.** -/
theorem grnPatAdd_isSome (h : Inv s t own free lost) (hkey : key ≠ []) (hlen : key.length ≤ maxKeySize)
    (hroom : HasRoom s key) : (grnPatAdd s key).isSome := by
  rcases grnPatAdd_eq h hkey hlen with ⟨a, ha, hka, heq | heq⟩ | ⟨hno, k, t₀, c, rfl, hins, heq⟩
  · rw [heq]
    rfl
  · rw [heq]
    rfl
  · rw [heq]
    simp only [addAt]
    split_ifs with hgarbage hid
    · rfl
    · exact absurd hid (Nat.not_lt.mpr hroom.1)
    · rw [Option.isSome_map, patNodeSetKey, if_neg hkey]
      split_ifs
      · rfl
      · rw [Option.isSome_map]
        exact hroom.2

end Groonga.Pat
