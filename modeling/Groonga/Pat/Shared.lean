import Groonga.Pat.Sis
import Mathlib

/-!
# The bytes of shared suffixes

The record of a suffix has no bytes of its own: it has the offset of its key plus the bytes before the
suffix. This offset is a number of 32 bits, also in a table with large keys, whose key area may be larger.
A key does not cross the end of a segment, so the offsets of all suffixes are right when that of the key
is below `2 ^ 32`; behind it each offset loses its upper bits.

An addition is followed here in any table with suffix sharing whose links are a tree, and whose free
nodes have bytes of their own. The keys in the tree may share theirs.
-/

namespace Groonga.Pat

open Lib.Patricia Lib.Patricia.Trie

/-! ## The records of an addition -/

/-- The records that the loop over the suffixes adds, with their keys. -/
def sisAdded : ℕ → GrnPat → List UInt8 → ℕ → List (ℕ × List UInt8)
  | 0, _, _, _ => []
  | fuel + 1, s, sis, sharedKeyOffset =>
    let len := grnStrCharlenUtf8 sis
    let sharedKeyOffset := (sharedKeyOffset + len) % 2 ^ 32
    match sis.drop len with
    | [] => []
    | c :: rest =>
      let sis := c :: rest
      if len = 0 ∨ c < 0x80 then []
      else
        let shared := 0 < sharedKeyOffset ∧ 0 < patKeyStorageSize s.isKeyLarge sis.length
        match if shared then grnPatAddInternalShared s sis sharedKeyOffset
          else grnPatAddInternal s sis with
        | none => []
        | some (s, r, true) =>
          (r, sis) :: sisAdded fuel s sis (if shared then sharedKeyOffset else (s.nodes r).key.offset % 2 ^ 32)
        | some (_, _, false) => []

/-- The records that `grn_pat_add` adds, with their keys. -/
def addedWithSis (s : GrnPat) (key : List UInt8) : List (ℕ × List UInt8) :=
  match grnPatAdd s key with
  | some (s, id, true) =>
    (id, key) ::
      if 0x80 ≤ key.headD 0 then sisAdded key.length s key ((s.nodes id).key.offset % 2 ^ 32) else []
  | _ => []

/-- **The records address the right bytes**: each one reads back its key, and a key in the key area is
where the key at `base` has these bytes. -/
structure Addresses (s : GrnPat) (base : ℕ) (key : List UInt8) (records : List (ℕ × List UInt8)) : Prop where
  reads : ∀ r ∈ records, s.keyOf r.1 = r.2
  suffix : ∀ r ∈ records, r.2 <:+ key
  place : ∀ r ∈ records, ∀ offset length, (s.nodes r.1).key = .stored offset length →
    offset + r.2.length = base + key.length

/-- The offset that a new key gets, if it is not in its node. -/
def keyPlace (s : GrnPat) (key : List UInt8) : ℕ :=
  let garbage := s.garbages (patKeyStorageSize s.isKeyLarge key.length)
  if garbage ≠ 0 then (s.nodes garbage).key.offset else ((keyPut s key).map Prod.snd).getD 0

/-- The suffix behind the first character. -/
def nextSuffix (key : List UInt8) : List UInt8 := key.drop (grnStrCharlenUtf8 key)

/-- **An offset is truncated**: the key is behind `2 ^ 32` bytes, and its first suffix becomes a record
that shares its bytes. -/
structure Truncates (s : GrnPat) (key : List UInt8) : Prop where
  large : s.isKeyLarge = true
  beyond : 2 ^ 32 ≤ keyPlace s key
  multibyte : 0x80 ≤ key.headD 0 ∧ grnStrCharlenUtf8 key ≠ 0
  suffix : 0x80 ≤ (nextSuffix key).headD 0
  stored : 0 < patKeyStorageSize s.isKeyLarge (nextSuffix key).length
  new : grnPatGet s (nextSuffix key) = some 0

/-! ## The invariant -/

variable {s s₁ s' : GrnPat} {t : Trie ℕ} {own : ℕ → ℕ} {free free' : ℕ → List ℕ} {k : List (Frame ℕ)}
  {i j c n : ℕ} {key : List UInt8}

/-- The node is in the tree or free. -/
def InUse (t : Trie ℕ) (free : ℕ → List ℕ) (i : ℕ) : Prop := i ∈ t.ids ∨ ∃ n, i ∈ free n

/-- **A table whose keys may share bytes**: the links are a tree, and the bytes of a free node are its own. -/
structure Shares (s : GrnPat) (t : Trie ℕ) (own : ℕ → ℕ) (free : ℕ → List ℕ) : Prop where
  rooted : Rooted s.nodes s.words t own
  cache : CacheOk s t
  range : ∀ i, InUse t free i → 1 ≤ i ∧ i ≤ s.currRec
  valid : ∀ i, InUse t free i → (s.nodes i).key.Valid s.isKeyLarge s.currKey
  chain : ∀ n, Chain s.nodes (s.garbages n) (free n)
  size : ∀ n, ∀ i ∈ free n, (s.nodes i).key.storageSize = n
  free_nodup : ∀ n, (free n).Nodup
  free_disjoint : ∀ m n i, i ∈ free m → i ∈ free n → m = n
  not_free : ∀ i ∈ t.ids, ∀ n, i ∉ free n
  apart : ∀ n, ∀ i ∈ free n, ∀ j, InUse t free j → j ≠ i → (s.nodes j).key.Apart (s.nodes i).key
  area : s.isKeyLarge = false → s.currKey ≤ 2 ^ 32

/-- **A key was stored for a node that is not in the tree.** The lists of free nodes are without it. -/
structure Puts (s s₁ : GrnPat) (t : Trie ℕ) (free free' : ℕ → List ℕ) (i : ℕ) (key : List UInt8) : Prop where
  fresh : 1 ≤ i ∧ i ∉ t.ids
  range : s.currRec ≤ s₁.currRec ∧ i ≤ s₁.currRec
  nodes_ne : ∀ j, j ≠ i → s₁.nodes j = s.nodes j
  reads : s₁.keyOf i = key
  keeps : ∀ j ∈ t.ids, s₁.keyOf j = s.keyOf j
  isKeyLarge : s₁.isKeyLarge = s.isKeyLarge
  currKey : s.currKey ≤ s₁.currKey
  valid : (s₁.nodes i).key.Valid s.isKeyLarge s₁.currKey
  area : s.isKeyLarge = false → s₁.currKey ≤ 2 ^ 32
  free : ∀ n j, j ∈ free' n ↔ j ∈ free n ∧ j ≠ i
  nodup : ∀ n, (free' n).Nodup
  chain : ∀ n, Chain s₁.nodes (s₁.garbages n) (free' n)
  apart : ∀ n, ∀ j ∈ free' n, (s₁.nodes i).key.Apart (s.nodes j).key
  cache : s₁.cacheSize = s.cacheSize ∧ s₁.cache = s.cache

theorem Shares.keyOf_ne_nil (h : Shares s t own free) (hj : InUse t free j) : s.keyOf j ≠ [] := by
  have hvalid := h.valid j hj
  rw [GrnPat.keyOf]
  cases hkey : (s.nodes j).key with
  | immediate key =>
    rw [hkey] at hvalid
    rw [nodeKey_immediate hkey]
    exact hvalid.1
  | stored offset length =>
    rw [hkey] at hvalid
    have hlt := lt_of_not_embeddable hvalid.1
    rw [nodeKey_stored hkey]
    refine List.ne_nil_of_length_pos ?_
    rw [bytesAt, List.length_map, List.length_range]
    exact Nat.lt_trans (Nat.succ_pos 3) hlt

theorem enable_key {m : ℕ} {p : Loc} : ((grnPatEnableNode s i key c m p).nodes j).key = (s.nodes j).key := by
  rw [grnPatEnableNode, store_key]
  exact modify_field Node.key fun _ => rfl

theorem inUse_leaf (hj : j ∈ t.leaves) : InUse t free j := .inl (mem_ids.mpr (.inr hj))

theorem Shares.setCache (h : Shares s t own free) (hi : i ∈ t.leaves ∧ s.keyOf i = key) :
    Shares (s.setCache key i) t own free := by
  obtain ⟨hlive, hkey⟩ := hi
  unfold GrnPat.setCache
  split_ifs with hsize
  · exact h
  · refine ⟨h.rooted, fun _ a ha => ?_, h.range, h.valid, h.chain, h.size, h.free_nodup, h.free_disjoint, h.not_free,
      h.apart, h.area⟩
    simp only at ha ⊢
    by_cases hak : a = grnPatCacheComputeId s.cacheSize key
    · rw [hak, Function.update_self] at ha ⊢
      exact ⟨hlive, congrArg (grnPatCacheComputeId s.cacheSize) hkey⟩
    · rw [Function.update_of_ne hak] at ha ⊢
      exact h.cache hsize a ha

/-- **A node whose key was stored is linked.** -/
theorem Shares.link (h : Shares s (plug k t) own free) (hp : Puts s s₁ (plug k t) free free' i key)
    (hins : Insertable s.words (word key) k t c)
    (hs' : s' = grnPatEnableNode s₁ i key c (key.length * 16) (place k)) :
    ∃ t' own', Shares (s'.setCache key i) t' own' free' ∧ t'.leaves = i ::ₘ (plug k t).leaves := by
  have hi : i ≠ 0 := Nat.ne_of_gt hp.fresh.1
  obtain ⟨t', own', hrooted, hleaves, hinner, -⟩ :=
    rooted_enable h.rooted hp.nodes_ne hp.reads hp.keeps hi hp.fresh.2 hins hs'
  have hids : ∀ j, InUse t' free' j → j = i ∨ (j ≠ i ∧ InUse (plug k t) free j) := by
    intro j hj
    by_cases hji : j = i
    · exact .inl hji
    · refine .inr ⟨hji, ?_⟩
      rcases hj with hj | ⟨n, hj⟩
      · refine .inl ?_
        rcases mem_ids.mp hj with hj | hj
        · exact mem_ids.mpr (.inl ((hinner j hji).mp hj))
        · rw [hleaves, Multiset.mem_cons] at hj
          exact mem_ids.mpr (.inr (hj.resolve_left hji))
      · exact .inr ⟨n, ((hp.free n j).mp hj).1⟩
  have hkey : ∀ j, (s'.nodes j).key = (s₁.nodes j).key := fun j => by rw [hs', enable_key]
  have hkeyNe : ∀ j, j ≠ i → (s'.nodes j).key = (s.nodes j).key := fun j hji => by
    rw [hkey, hp.nodes_ne j hji]
  have hkeyOf : s'.keyOf = s₁.keyOf := by rw [hs', enable_keyOf]
  have hrec : s'.currRec = s₁.currRec := by rw [hs']; rfl
  have hcurrKey : s'.currKey = s₁.currKey := by rw [hs']; rfl
  have hlarge : s'.isKeyLarge = s.isKeyLarge := by rw [← hp.isKeyLarge, hs']; rfl
  have hlr : ∀ n, ∀ j ∈ free' n, (s'.nodes j).lr false = (s₁.nodes j).lr false := by
    intro n j hj
    obtain ⟨hj, hji⟩ := (hp.free n j).mp hj
    have hj0 : j ≠ 0 := Nat.ne_of_gt (h.range j (.inr ⟨n, hj⟩)).1
    rw [hs']
    refine enable_lr_of_ne hji (place_ne_of_not_mem_plug (t := t) hj0 fun hin => ?_)
    exact h.not_free j (mem_ids.mpr (.inl hin)) n hj
  have hcache : CacheOk s' t' := by
    intro hsize a ha
    have hcacheSize : s'.cacheSize = s.cacheSize := by rw [← hp.cache.1, hs']; rfl
    have hcacheEq : s'.cache = s.cache := by rw [← hp.cache.2, hs']; rfl
    rw [hcacheSize] at hsize ⊢
    rw [hcacheEq] at ha ⊢
    obtain ⟨hl, hid⟩ := h.cache hsize a ha
    rw [hleaves, hkeyOf, hp.keeps _ (mem_ids.mpr (.inr hl))]
    exact ⟨Multiset.mem_cons_of_mem hl, hid⟩
  have hshares : Shares s' t' own' free' := by
    refine ⟨hrooted, hcache, fun j hj => ?_, fun j hj => ?_, fun n => ?_, fun n j hj => ?_, hp.nodup,
      fun m n j hm hn => h.free_disjoint m n j ((hp.free m j).mp hm).1 ((hp.free n j).mp hn).1,
      fun j hj n hn => ?_, fun n a ha b hb hba => ?_, fun hsmall => ?_⟩
    · rw [hrec]
      rcases hids j hj with rfl | ⟨-, hj⟩
      · exact ⟨hp.fresh.1, hp.range.2⟩
      · exact ⟨(h.range j hj).1, (h.range j hj).2.trans hp.range.1⟩
    · rw [hlarge, hcurrKey]
      rcases hids j hj with rfl | ⟨hji, hj⟩
      · rw [hkey]
        exact hp.valid
      · rw [hkeyNe j hji]
        exact (h.valid j hj).mono hp.currKey
    · have hgarbages : s'.garbages = s₁.garbages := by rw [hs']; rfl
      rw [hgarbages]
      exact (hp.chain n).congr (hlr n)
    · obtain ⟨hj, hji⟩ := (hp.free n j).mp hj
      rw [hkeyNe j hji]
      exact h.size n j hj
    · obtain ⟨hn, hji⟩ := (hp.free n j).mp hn
      rcases hids j (.inl hj) with hji' | ⟨-, hids | ⟨m, hm⟩⟩
      · exact hji hji'
      · exact h.not_free j hids n hn
      · -- a node of the tree that was free is the new one
        rcases mem_ids.mp hj with hj | hj
        · exact h.not_free j (mem_ids.mpr (.inl ((hinner j hji).mp hj))) n hn
        · rw [hleaves, Multiset.mem_cons] at hj
          exact h.not_free j (mem_ids.mpr (.inr (hj.resolve_left hji))) n hn
    · obtain ⟨ha', hai⟩ := (hp.free n a).mp ha
      rw [hkeyNe a hai]
      rcases hids b hb with rfl | ⟨hbi, hb⟩
      · rw [hkey]
        exact hp.apart n a ha
      · rw [hkeyNe b hbi]
        exact h.apart n a ha' b hb hba
    · rw [hcurrKey]
      exact hp.area (hlarge ▸ hsmall)
  refine ⟨t', own', ?_, hleaves⟩
  have hmem : i ∈ t'.leaves := by
    rw [hleaves]
    exact Multiset.mem_cons_self _ _
  have hself : s'.keyOf i = key := by rw [hkeyOf, hp.reads]
  exact hshares.setCache ⟨hmem, hself⟩

/-! ## Storing a key -/

/-- The first node of a list of free nodes. -/
theorem Shares.pop (h : Shares s t own free) (hi : s.garbages n = i) (hi0 : i ≠ 0) :
    ∃ l, free n = i :: l ∧ Chain s.nodes ((s.nodes i).lr false) l := by
  have hchain := h.chain n
  rw [hi] at hchain
  cases hfree : free n with
  | nil =>
    rw [hfree] at hchain
    exact absurd hchain hi0
  | cons g l =>
    rw [hfree] at hchain
    obtain ⟨rfl, -, hl⟩ := hchain
    exact ⟨l, rfl, hl⟩

/-- A key in a free node. -/
theorem Shares.puts_free (h : Shares s t own free) (hi : s.garbages n = i) (hi0 : i ≠ 0) {node : Node}
    {keys' : ℕ → UInt8} {nGarbages' nEntries' : ℕ}
    (hs₁ : s₁ = { s with
      nodes := Function.update s.nodes i node, keys := keys'
      garbages := Function.update s.garbages n ((s.nodes i).lr false), nGarbages := nGarbages'
      nEntries := nEntries' })
    (hreads : ∀ s₂ : GrnPat, s₂.keys = keys' → s₂.nodeKey node = key) (hkeeps : ∀ j ∈ t.ids, j ≠ i → s₁.nodes j = s.nodes j → s₁.keyOf j = s.keyOf j)
    (hvalid : node.key.Valid s.isKeyLarge s.currKey)
    (hapart : ∀ m, ∀ j ∈ free m, j ≠ i → node.key.Apart (s.nodes j).key) : ∃ free', Puts s s₁ t free free' i key := by
  obtain ⟨l, hfree, hl⟩ := h.pop hi hi0
  have hmem : i ∈ free n := by
    rw [hfree]
    exact List.mem_cons_self
  have hrest := mem_free_tail h.free_nodup h.free_disjoint hfree
  have hnew : i ∉ t.ids := fun hids => h.not_free i hids n hmem
  have hne : ∀ j, j ≠ i → s₁.nodes j = s.nodes j := fun j hji => by
    rw [hs₁]
    exact Function.update_of_ne hji _ _
  have hself : s₁.nodes i = node := by
    rw [hs₁]
    exact Function.update_self _ _ _
  refine ⟨Function.update free n l, ⟨(h.range i (.inr ⟨n, hmem⟩)).1, hnew⟩, ?_, hne, ?_, fun j hj => ?_, ?_, ?_,
    ?_, fun hsmall => ?_, hrest, fun m => ?_, fun m => ?_, fun m j hj => ?_, ?_⟩
  · rw [hs₁]
    exact ⟨Nat.le_refl _, (h.range i (.inr ⟨n, hmem⟩)).2⟩
  · rw [GrnPat.keyOf, hself]
    exact hreads s₁ (by rw [hs₁])
  · have hji : j ≠ i := fun hji => hnew (hji ▸ hj)
    exact hkeeps j hj hji (hne j hji)
  · rw [hs₁]
  · rw [hs₁]
  · rw [hself, hs₁]
    exact hvalid
  · rw [hs₁]
    exact h.area hsmall
  · by_cases hm : m = n
    · rw [hm, Function.update_self]
      have hnodup := h.free_nodup n
      rw [hfree] at hnodup
      exact hnodup.of_cons
    · rw [Function.update_of_ne hm]
      exact h.free_nodup m
  · have hgarbages : s₁.garbages = Function.update s.garbages n ((s.nodes i).lr false) := by rw [hs₁]
    refine Chain.congr ?_ fun j hj => by rw [hne j ((hrest m j).mp hj).2]
    rw [hgarbages]
    by_cases hm : m = n
    · rw [hm, Function.update_self, Function.update_self]
      exact hl
    · rw [Function.update_of_ne hm, Function.update_of_ne hm]
      exact h.chain m
  · obtain ⟨hj, hji⟩ := (hrest m j).mp hj
    rw [hself]
    exact hapart m j hj hji
  · rw [hs₁]
    exact ⟨rfl, rfl⟩

/-- A key in a new node. -/
theorem Shares.puts_new (h : Shares s t own free) {node : Node} {keys' : ℕ → UInt8} {currKey' nEntries' : ℕ}
    (hs₁ : s₁ = { s with
      nodes := Function.update s.nodes (s.currRec + 1) node, keys := keys', currKey := currKey'
      currRec := s.currRec + 1, nEntries := nEntries' })
    (hreads : ∀ s₂ : GrnPat, s₂.keys = keys' → s₂.nodeKey node = key)
    (hkeeps : ∀ j ∈ t.ids, s₁.nodes j = s.nodes j → s₁.keyOf j = s.keyOf j) (hcurrKey : s.currKey ≤ currKey')
    (hvalid : node.key.Valid s.isKeyLarge currKey') (harea : s.isKeyLarge = false → currKey' ≤ 2 ^ 32)
    (hapart : ∀ m, ∀ j ∈ free m, node.key.Apart (s.nodes j).key) : Puts s s₁ t free free (s.currRec + 1) key := by
  have hout : ∀ j, InUse t free j → j ≠ s.currRec + 1 := fun j hj hji =>
    Nat.not_succ_le_self _ (hji ▸ (h.range j hj).2)
  have hne : ∀ j, j ≠ s.currRec + 1 → s₁.nodes j = s.nodes j := fun j hji => by
    rw [hs₁]
    exact Function.update_of_ne hji _ _
  have hself : s₁.nodes (s.currRec + 1) = node := by
    rw [hs₁]
    exact Function.update_self _ _ _
  refine ⟨⟨Nat.succ_pos _, fun hids => hout _ (.inl hids) rfl⟩, ?_, hne, ?_,
    fun j hj => hkeeps j hj (hne j (hout j (.inl hj))), ?_, ?_, ?_, fun hsmall => ?_,
    fun m j => ⟨fun hj => ⟨hj, hout j (.inr ⟨m, hj⟩)⟩, And.left⟩, h.free_nodup, fun m => ?_, fun m j hj => ?_, ?_⟩
  · rw [hs₁]
    exact ⟨Nat.le_succ _, Nat.le_refl _⟩
  · rw [GrnPat.keyOf, hself]
    exact hreads s₁ (by rw [hs₁])
  · rw [hs₁]
  · rw [hs₁]
    exact hcurrKey
  · rw [hself, hs₁]
    exact hvalid
  · rw [hs₁]
    exact harea hsmall
  · have hgarbages : s₁.garbages = s.garbages := by rw [hs₁]
    rw [hgarbages]
    exact (h.chain m).congr fun j hj => by rw [hne j (hout j (.inr ⟨m, hj⟩))]
  · rw [hself]
    exact hapart m j hj
  · rw [hs₁]
    exact ⟨rfl, rfl⟩

/-- A key is kept when another one is written beside it. -/
theorem keyOf_writeKey {offset : ℕ} (hnode : s₁.nodes j = s.nodes j) (hkeys : s₁.keys = writeKey s.keys offset key)
    (hapart : (s.nodes j).key.Apart (.stored offset key.length)) : s₁.keyOf j = s.keyOf j := by
  rw [GrnPat.keyOf, GrnPat.keyOf, hnode]
  cases hkey : (s.nodes j).key with
  | immediate key' => rw [nodeKey_immediate hkey, nodeKey_immediate hkey]
  | stored o l =>
    rw [hkey] at hapart
    rw [nodeKey_stored hkey, nodeKey_stored hkey, hkeys]
    exact bytesAt_writeKey_of_apart (Or.symm hapart)

/-- **A key takes the place of a free node** of its size. -/
theorem Shares.puts_recycle (h : Shares s t own free) (hkey : key ≠ [])
    (hi : s.garbages (patKeyStorageSize s.isKeyLarge key.length) = i) (hi0 : i ≠ 0) :
    ∃ free', Puts s (recycle s i key) t free free' i key := by
  obtain ⟨l, hfree, -⟩ := h.pop hi hi0
  have hmem : i ∈ free (patKeyStorageSize s.isKeyLarge key.length) := by
    rw [hfree]
    exact List.mem_cons_self
  have hlen : key.length ≠ 0 := fun h => hkey (List.length_eq_zero_iff.mp h)
  have hvalid := h.valid i (.inr ⟨_, hmem⟩)
  have hsize := h.size _ i hmem
  cases hnode : (s.nodes i).key with
  | immediate old =>
    rw [hnode] at hsize
    refine h.puts_free hi hi0 (recycle_immediate hnode) (fun _ _ => nodeKey_immediate rfl)
      (fun j _ hji heq => keyOf_congr (congrArg Node.key heq) ?_)
      ⟨hkey, (patKeyStorageSize_eq_zero hlen).mp hsize.symm⟩ fun m j _ _ => (StoredKey.apart_immediate _).symm
    rw [recycle_immediate hnode]
  | stored offset length =>
    rw [hnode] at hsize hvalid
    have hlength : length = key.length := by
      have hsize' : length = patKeyStorageSize s.isKeyLarge key.length := hsize
      have hlt := lt_of_not_embeddable hvalid.1
      rw [patKeyStorageSize] at hsize'
      split_ifs at hsize' with hembed
      · omega
      · exact hsize'
    subst hlength
    have hapart : ∀ j, InUse t free j → j ≠ i → (s.nodes j).key.Apart (.stored offset key.length) := by
      intro j hj hji
      rw [← hnode]
      exact h.apart _ i hmem j hj hji
    refine h.puts_free hi hi0 (recycle_stored hnode) (fun s₂ hkeys => ?_) (fun j hj hji heq => ?_) hvalid
      fun m j hj hji => (hapart j (.inr ⟨m, hj⟩) hji).symm
    · rw [nodeKey_stored rfl, hkeys]
      exact bytesAt_writeKey_self _ _
    · exact keyOf_writeKey heq (by rw [recycle_stored hnode]) (hapart j (.inl hj) hji)

/-- In a table without large keys the key area ends at `2 ^ 32`. -/
theorem keyPut_le {offset : ℕ} (hkey : key ≠ []) (hlen : key.length ≤ maxKeySize) (hsmall : s.isKeyLarge = false)
    (hput : keyPut s key = some (s', offset)) : offset + key.length ≤ 2 ^ 32 := by
  obtain ⟨-, hsegment, -⟩ := keyPut_eq hkey hlen hput
  have hpos : 0 < key.length := List.length_pos_iff.mpr hkey
  have hlt : offset / keySegmentSize < 0x400 := by
    rw [keyPut, hsmall] at hput
    simp only at hput
    split_ifs at hput with _ hcross hmany hmany <;>
      obtain ⟨-, rfl⟩ := Prod.mk.inj (Option.some.inj hput) <;> exact not_le.mp hmany
  have hend : (offset + key.length - 1) / keySegmentSize < 0x400 := by
    rw [hsegment]
    exact hlt
  rw [Nat.div_lt_iff_lt_mul (by decide)] at hend
  rw [keySegmentSize] at hend
  omega

/-- **A key gets a new node.** -/
theorem Shares.puts_patNodeSetKey (h : Shares s t own free) (hlen : key.length ≤ maxKeySize) (nEntries' : ℕ)
    (hset : patNodeSetKey s (s.currRec + 1) key = some s₁) :
    Puts s { s₁ with currRec := s.currRec + 1, nEntries := nEntries' } t free free (s.currRec + 1) key := by
  unfold patNodeSetKey at hset
  split_ifs at hset with hnil hembed
  · obtain rfl := Option.some.inj hset
    exact h.puts_new rfl (fun _ _ => nodeKey_immediate rfl) (fun j _ heq => keyOf_congr (congrArg Node.key heq) rfl)
      (Nat.le_refl _) ⟨hnil, hembed⟩ h.area fun m j _ => (StoredKey.apart_immediate _).symm
  · obtain ⟨⟨s₂, offset⟩, hput, rfl⟩ := Option.map_eq_some_iff.mp hset
    obtain ⟨hle, hsegment, heq⟩ := keyPut_eq hnil hlen hput
    have hbehind : ∀ j, InUse t free j → (s.nodes j).key.Apart (.stored offset key.length) := by
      intro j hj
      have hvalid := h.valid j hj
      cases hkey : (s.nodes j).key with
      | immediate old => trivial
      | stored o l =>
        rw [hkey] at hvalid
        exact .inl (hvalid.2.1.trans hle)
    subst heq
    refine h.puts_new rfl (fun s₂ hkeys => ?_) (fun j hj heq => keyOf_writeKey heq rfl (hbehind j (.inl hj)))
      (hle.trans (Nat.le_add_right _ _)) ⟨Bool.eq_false_iff.mpr hembed, Nat.le_refl _, hsegment⟩
      (fun hsmall => keyPut_le hnil hlen hsmall hput) fun m j hj => (hbehind j (.inr ⟨m, hj⟩)).symm
    rw [nodeKey_stored rfl, hkeys]
    exact bytesAt_writeKey_self _ _

/-! ## Sharing the bytes of a key -/

theorem bytesAt_drop (keys : ℕ → UInt8) (offset length d : ℕ) :
    (bytesAt keys offset length).drop d = bytesAt keys (offset + d) (length - d) := by
  refine List.ext_getElem (by simp [bytesAt]) fun n h₁ h₂ => ?_
  simp only [bytesAt, List.getElem_drop, List.getElem_map, List.getElem_range, Nat.add_assoc]

/-- The bytes of a key that is too long for its node are the last ones of a key in the tree. -/
def Within (s : GrnPat) (t : Trie ℕ) (key : List UInt8) (offset : ℕ) : Prop :=
  patKeyIsEmbeddable s.isKeyLarge key.length = false ∧ bytesAt s.keys offset key.length = key ∧
    ∃ l ∈ t.ids, ∃ o m, (s.nodes l).key = .stored o m ∧ o ≤ offset ∧ offset + key.length = o + m

/-- A suffix is within its key. -/
theorem within_drop {sis : List UInt8} {offset d : ℕ} (hl : i ∈ t.ids) (hkeyOf : s.keyOf i = sis)
    (hkey : (s.nodes i).key = .stored offset sis.length) (hd : d ≤ sis.length)
    (hlong : patKeyIsEmbeddable s.isKeyLarge (sis.drop d).length = false) : Within s t (sis.drop d) (offset + d) := by
  refine ⟨hlong, ?_, i, hl, offset, sis.length, hkey, Nat.le_add_right _ _, ?_⟩
  · have hbytes : bytesAt s.keys offset sis.length = sis := by
      rw [← nodeKey_stored hkey]
      exact hkeyOf
    rw [List.length_drop, ← bytesAt_drop, hbytes]
  · rw [List.length_drop]
    omega

/-- The shared bytes are in one segment, and are not those of a free node. -/
theorem Shares.within (h : Shares s t own free) {offset : ℕ} (hw : Within s t key offset) (hkey : key ≠ []) :
    (StoredKey.stored offset key.length).Valid s.isKeyLarge s.currKey ∧
      ∀ m, ∀ j ∈ free m, (StoredKey.stored offset key.length).Apart (s.nodes j).key := by
  obtain ⟨hlong, -, l, hl, o, m, hstored, hle, hend⟩ := hw
  have hpos : 0 < key.length := List.length_pos_iff.mpr hkey
  have hvalid := h.valid l (.inl hl)
  rw [hstored] at hvalid
  obtain ⟨-, hbelow, hsegment⟩ := hvalid
  refine ⟨⟨hlong, by omega, ?_⟩, fun n j hj => ?_⟩
  · have hlow : o / keySegmentSize ≤ offset / keySegmentSize := Nat.div_le_div_right hle
    have hhigh : offset / keySegmentSize ≤ (offset + key.length - 1) / keySegmentSize :=
      Nat.div_le_div_right (by omega)
    rw [hend, hsegment] at hhigh ⊢
    exact Nat.le_antisymm hlow hhigh
  · have hne : l ≠ j := by
      rintro rfl
      exact h.not_free l hl n hj
    have hapart := h.apart n j hj l (.inl hl) hne
    rw [hstored] at hapart
    cases hkeyj : (s.nodes j).key with
    | immediate old => trivial
    | stored o' l' =>
      rw [hkeyj] at hapart
      rcases hapart with hbefore | hbehind
      · exact .inl (by omega)
      · exact .inr (by omega)

/-- A free node shares its bytes. -/
theorem Shares.puts_reuseShared (h : Shares s t own free) {offset : ℕ} (hkey : key ≠ [])
    (hw : Within s t key offset) (hi : s.garbages 0 = i) (hi0 : i ≠ 0) : ∃ free',
    Puts s (patNodeSetSharedKey { s with
      garbages := Function.update s.garbages 0 ((s.nodes i).lr false)
      nGarbages := s.nGarbages - 1
      nEntries := s.nEntries + 1 } i key.length offset) t free free' i key := by
  obtain ⟨hvalid, hapart⟩ := h.within hw hkey
  refine h.puts_free hi hi0 rfl (fun s₂ hkeys => ?_)
    (fun j _ _ heq => keyOf_congr (congrArg Node.key heq) rfl) hvalid fun m j hj _ => hapart m j hj
  rw [nodeKey_stored rfl, hkeys]
  exact hw.2.1

/-- A new node shares its bytes. -/
theorem Shares.puts_addShared (h : Shares s t own free) {offset : ℕ} (hkey : key ≠ [])
    (hw : Within s t key offset) :
    Puts s (patNodeSetSharedKey { s with currRec := s.currRec + 1, nEntries := s.nEntries + 1 } (s.currRec + 1)
      key.length offset) t free free (s.currRec + 1) key := by
  obtain ⟨hvalid, hapart⟩ := h.within hw hkey
  refine h.puts_new rfl
    (fun s₂ hkeys => ?_) (fun j _ heq => keyOf_congr (congrArg Node.key heq) rfl) (Nat.le_refl _) hvalid h.area hapart
  rw [nodeKey_stored rfl, hkeys]
  exact hw.2.1

/-! ## Additions -/

/-- The live records are still there. -/
structure Extends (s s' : GrnPat) (t t' : Trie ℕ) : Prop where
  leaves : ∀ j ∈ t.leaves, j ∈ t'.leaves
  key : ∀ j ∈ t.leaves, (s'.nodes j).key = (s.nodes j).key
  keyOf : ∀ j ∈ t.leaves, s'.keyOf j = s.keyOf j
  isKeyLarge : s'.isKeyLarge = s.isKeyLarge

theorem Extends.trans {s'' : GrnPat} {t' t'' : Trie ℕ} (h : Extends s s' t t') (h' : Extends s' s'' t' t'') :
    Extends s s'' t t'' :=
  ⟨fun j hj => h'.leaves j (h.leaves j hj), fun j hj => (h'.key j (h.leaves j hj)).trans (h.key j hj),
    fun j hj => (h'.keyOf j (h.leaves j hj)).trans (h.keyOf j hj), h'.isKeyLarge.trans h.isKeyLarge⟩

theorem setCache_isKeyLarge : (s.setCache key i).isKeyLarge = s.isKeyLarge := by
  rw [GrnPat.setCache]
  split_ifs <;> rfl

theorem extends_setCache : Extends s (s.setCache key i) t t :=
  ⟨fun _ hj => hj, fun j _ => by rw [setCache_nodes], fun j _ => by rw [setCache_keyOf], setCache_isKeyLarge⟩

theorem extends_refl : Extends s s t t := ⟨fun _ hj => hj, fun _ _ => rfl, fun _ _ => rfl, rfl⟩

/-- What an addition gives: a record that was there, or a new one whose key is stored as `stored` says. -/
structure Outcome (s : GrnPat) (t : Trie ℕ) (key : List UInt8) (stored : StoredKey) (r : GrnPat × ℕ × Bool)
    (t' : Trie ℕ) : Prop where
  before : Extends s r.1 t t'
  only : ∀ j ∈ t'.leaves, j = r.2.1 ∨ j ∈ t.leaves
  live : r.2.1 ∈ t'.leaves
  reads : r.1.keyOf r.2.1 = key
  there : r.2.2 = false → ∃ j ∈ t.leaves, s.keyOf j = key
  new : r.2.2 = true → (∀ j ∈ t.leaves, s.keyOf j ≠ key) ∧ (r.1.nodes r.2.1).key = stored

/-- **A new record** is linked. -/
theorem Shares.outcome (h : Shares s (plug k t) own free) (hno : ∀ j ∈ (plug k t).leaves, s.keyOf j ≠ key)
    (hp : Puts s s₁ (plug k t) free free' i key) (hins : Insertable s.words (word key) k t c) : ∃ t' own' free',
    Shares ((grnPatEnableNode s₁ i key c (key.length * 16) (place k)).setCache key i) t' own' free' ∧
      Outcome s (plug k t) key (s₁.nodes i).key
        ((grnPatEnableNode s₁ i key c (key.length * 16) (place k)).setCache key i, i, true) t' := by
  obtain ⟨t', own', hshares, hleaves⟩ := h.link hp hins rfl
  have hkeyOf : ((grnPatEnableNode s₁ i key c (key.length * 16) (place k)).setCache key i).keyOf = s₁.keyOf := by
    rw [setCache_keyOf, enable_keyOf]
  refine ⟨t', own', free', hshares, ⟨fun j hj => ?_, fun j hj => ?_, fun j hj => ?_, ?_⟩, fun j hj => ?_, ?_, ?_,
    fun hfalse => (by cases hfalse), fun _ => ⟨hno, ?_⟩⟩
  · rw [hleaves]
    exact Multiset.mem_cons_of_mem hj
  · have hji : j ≠ i := fun hji => hp.fresh.2 (hji ▸ mem_ids.mpr (.inr hj))
    rw [setCache_nodes, enable_key, hp.nodes_ne j hji]
  · rw [hkeyOf]
    exact hp.keeps j (mem_ids.mpr (.inr hj))
  · rw [setCache_isKeyLarge, ← hp.isKeyLarge]
    rfl
  · rw [hleaves, Multiset.mem_cons] at hj
    exact hj
  · rw [hleaves]
    exact Multiset.mem_cons_self _ _
  · rw [hkeyOf]
    exact hp.reads
  · rw [setCache_nodes, enable_key]

/-- A search, and what is done at the place that it gives. -/
def searchAndPut (s : GrnPat) (key : List UInt8) (put : Loc → ℕ → Option (GrnPat × ℕ × Bool)) :
    Option (GrnPat × ℕ × Bool) :=
  let cached := s.cache (grnPatCacheComputeId s.cacheSize key)
  if s.cacheSize ≠ 0 ∧ cached ≠ 0 ∧ s.keyOf cached = key then some (s, cached, false)
  else
    (grnPatAddInternalFind s key).bind fun r =>
      match r with
      | .inl id => some (s.setCache key id, id, false)
      | .inr r => put r.1 r.2

/-- **A search** finds the record of the key, or a place where the key may be put. -/
theorem Shares.searchAndPut_cases (h : Shares s t own free) (hkey : key ≠ [])
    (put : Loc → ℕ → Option (GrnPat × ℕ × Bool)) :
    (∃ i ∈ t.leaves, s.keyOf i = key ∧ (searchAndPut s key put = some (s, i, false) ∨
      searchAndPut s key put = some (s.setCache key i, i, false))) ∨
    ((∀ j ∈ t.leaves, s.keyOf j ≠ key) ∧ ∃ k t₀ c, plug k t₀ = t ∧ Insertable s.words (word key) k t₀ c ∧
      searchAndPut s key put = put (place k) c) := by
  rw [searchAndPut]
  by_cases hhit : s.cacheSize ≠ 0 ∧ s.cache (grnPatCacheComputeId s.cacheSize key) ≠ 0 ∧
      s.keyOf (s.cache (grnPatCacheComputeId s.cacheSize key)) = key
  · exact .inl ⟨_, (h.cache hhit.1 _ hhit.2.1).1, hhit.2.2, .inl (if_pos hhit)⟩
  · rw [if_neg hhit]
    rcases grnPatAddInternalFind_spec h.rooted (fun j hj => h.keyOf_ne_nil (.inl hj)) hkey with
      ⟨i, hi, hki, hfind⟩ | ⟨hno, k, t₀, c, hplug, hins, hfind⟩
    · rw [hfind]
      exact .inl ⟨i, hi, hki, .inr rfl⟩
    · rw [hfind]
      exact .inr ⟨hno, k, t₀, c, hplug, hins, rfl⟩

/-- A record that was there. -/
theorem Shares.outcome_there (h : Shares s t own free) (stored : StoredKey) (hi : i ∈ t.leaves) (hkey : s.keyOf i = key)
    (hs' : s' = s ∨ s' = s.setCache key i) : Shares s' t own free ∧ Outcome s t key stored (s', i, false) t := by
  rcases hs' with rfl | rfl
  · exact ⟨h, extends_refl, fun _ => .inr, hi, hkey, fun _ => ⟨i, hi, hkey⟩, fun htrue => by cases htrue⟩
  · refine ⟨h.setCache ⟨hi, hkey⟩, extends_setCache, fun _ => .inr, hi, ?_, fun _ => ⟨i, hi, hkey⟩, fun htrue => by cases htrue⟩
    rw [setCache_keyOf]
    exact hkey

/-- **A key that is there** is found, whatever would be done at its place. -/
theorem Shares.searchAndPut_found (h : Shares s t own free) (hkey : key ≠ [])
    {put : Loc → ℕ → Option (GrnPat × ℕ × Bool)} (hfound : ∃ j ∈ t.leaves, s.keyOf j = key)
    {r : GrnPat × ℕ × Bool} (hr : searchAndPut s key put = some r) :
    Shares r.1 t own free ∧ Extends s r.1 t t ∧ r.2.2 = false := by
  rcases h.searchAndPut_cases hkey put with ⟨i, hi, hki, heq⟩ | ⟨hno, -⟩
  · rcases heq with heq | heq <;> obtain rfl := Option.some.inj (heq.symm.trans hr)
    · exact ⟨h, extends_refl, rfl⟩
    · exact ⟨h.setCache ⟨hi, hki⟩, extends_setCache, rfl⟩
  · obtain ⟨j, hj, hkj⟩ := hfound
    exact absurd hkj (hno j hj)

theorem grnPatAddInternal_eq :
    grnPatAddInternal s key = searchAndPut s key fun p c => addAt s key c p := by
  rw [grnPatAddInternal, searchAndPut]
  simp only [Option.bind_eq_bind, patCheckPack_length, grnPatReuseNode_eq, grnPatAddNode, addAt]
  split_ifs with hhit hgarbage hmax
  · rfl
  · refine Option.bind_congr fun r _ => ?_
    cases r <;> rfl
  · refine Option.bind_congr fun r _ => ?_
    cases r <;> rfl
  · refine Option.bind_congr fun r _ => ?_
    cases r with
    | inl id => rfl
    | inr r => cases patNodeSetKey s (s.currRec + 1) key <;> rfl

/-- How a new key is stored. -/
def newKey (s : GrnPat) (key : List UInt8) : StoredKey :=
  if patKeyIsEmbeddable s.isKeyLarge key.length then .immediate key else .stored (keyPlace s key) key.length

/-- **An addition of a key** with its own bytes. -/
theorem Shares.grnPatAddInternal_spec (h : Shares s t own free) (hkey : key ≠ []) (hlen : key.length ≤ maxKeySize)
    {r : GrnPat × ℕ × Bool} (hadd : grnPatAddInternal s key = some r) :
    ∃ t' own' free', Shares r.1 t' own' free' ∧ Outcome s t key (newKey s key) r t' := by
  have hlength : key.length ≠ 0 := fun h => hkey (List.length_eq_zero_iff.mp h)
  rw [grnPatAddInternal_eq] at hadd
  rcases h.searchAndPut_cases hkey fun p c => addAt s key c p with
    ⟨i, hi, hki, heq⟩ | ⟨hno, k, t₀, c, rfl, hins, heq⟩
  · rcases heq with heq | heq <;> obtain rfl := Option.some.inj (heq.symm.trans hadd)
    · exact ⟨t, own, free, h.outcome_there _ hi hki (.inl rfl)⟩
    · exact ⟨t, own, free, h.outcome_there _ hi hki (.inr rfl)⟩
  · rw [heq, addAt] at hadd
    split_ifs at hadd with hgarbage hmax
    · obtain rfl := Option.some.inj hadd
      obtain ⟨free', hp⟩ := h.puts_recycle hkey rfl hgarbage
      obtain ⟨t', own', free'', hshares, houtcome⟩ := h.outcome hno hp hins
      refine ⟨t', own', free'', hshares, ?_⟩
      have hstored : ((recycle s (s.garbages (patKeyStorageSize s.isKeyLarge key.length)) key).nodes
          (s.garbages (patKeyStorageSize s.isKeyLarge key.length))).key = newKey s key := by
        have hvalid := hp.valid
        cases hnode : (s.nodes (s.garbages (patKeyStorageSize s.isKeyLarge key.length))).key with
        | immediate old =>
          rw [recycle_immediate hnode] at hvalid ⊢
          simp only [Function.update_self] at hvalid ⊢
          rw [newKey, if_pos hvalid.2]
        | stored offset length =>
          rw [recycle_stored hnode] at hvalid ⊢
          simp only [Function.update_self] at hvalid ⊢
          rw [newKey, hvalid.1, keyPlace]
          simp only [if_pos hgarbage, hnode]
          rfl
      rw [hstored] at houtcome
      exact houtcome
    · obtain ⟨s₁, hset, hs₁⟩ := Option.map_eq_some_iff.mp hadd
      subst hs₁
      have hp := h.puts_patNodeSetKey hlen (s₁.nEntries + 1) hset
      obtain ⟨t', own', free'', hshares, houtcome⟩ := h.outcome hno hp hins
      refine ⟨t', own', free'', hshares, ?_⟩
      have hstored : (s₁.nodes (s.currRec + 1)).key = newKey s key := by
        rw [patNodeSetKey, if_neg hkey] at hset
        rw [newKey]
        split_ifs at hset ⊢ with hembed
        · obtain rfl := Option.some.inj hset
          rw [modify_self]
        · obtain ⟨⟨s₂, offset⟩, hput, rfl⟩ := Option.map_eq_some_iff.mp hset
          rw [keyPlace]
          simp only [if_neg hgarbage, hput]
          rw [modify_self]
          rfl
      rw [← hstored]
      exact houtcome

/-- The node and the state of an addition that shares its bytes. -/
def addSharedAt (s : GrnPat) (key : List UInt8) (offset c : ℕ) (p : Loc) : Option (GrnPat × ℕ × Bool) :=
  if s.garbages 0 ≠ 0 then
    some ((grnPatReuseSharedNode s (s.garbages 0) key offset c (key.length * 16) p).setCache key (s.garbages 0),
      s.garbages 0, true)
  else if grnIdMax < s.currRec + 1 then none
  else
    some ((grnPatAddSharedNode s (s.currRec + 1) key offset c (key.length * 16) p).setCache key (s.currRec + 1),
      s.currRec + 1, true)

theorem grnPatAddInternalShared_eq {offset : ℕ} :
    grnPatAddInternalShared s key offset = searchAndPut s key fun p c => addSharedAt s key offset c p := by
  rw [grnPatAddInternalShared, searchAndPut]
  simp only [Option.bind_eq_bind, patCheckPack_length, addSharedAt]
  split_ifs with hhit hgarbage hmax
  · rfl
  · refine Option.bind_congr fun r _ => ?_
    cases r <;> rfl
  · refine Option.bind_congr fun r _ => ?_
    cases r <;> rfl
  · refine Option.bind_congr fun r _ => ?_
    cases r <;> rfl

/-- **An addition of a suffix** that shares its bytes. -/
theorem Shares.grnPatAddInternalShared_spec (h : Shares s t own free) (hkey : key ≠ []) {offset : ℕ}
    (hw : Within s t key offset) {r : GrnPat × ℕ × Bool} (hadd : grnPatAddInternalShared s key offset = some r) :
    ∃ t' own' free', Shares r.1 t' own' free' ∧ Outcome s t key (.stored offset key.length) r t' := by
  rw [grnPatAddInternalShared_eq] at hadd
  rcases h.searchAndPut_cases hkey fun p c => addSharedAt s key offset c p with
    ⟨i, hi, hki, heq⟩ | ⟨hno, k, t₀, c, rfl, hins, heq⟩
  · rcases heq with heq | heq <;> obtain rfl := Option.some.inj (heq.symm.trans hadd)
    · exact ⟨t, own, free, h.outcome_there _ hi hki (.inl rfl)⟩
    · exact ⟨t, own, free, h.outcome_there _ hi hki (.inr rfl)⟩
  · rw [heq, addSharedAt] at hadd
    split_ifs at hadd with hgarbage hmax
    · obtain rfl := Option.some.inj hadd
      obtain ⟨free', hp⟩ := h.puts_reuseShared hkey hw rfl hgarbage
      obtain ⟨t', own', free'', hshares, houtcome⟩ := h.outcome hno hp hins
      have hself : ((patNodeSetSharedKey { s with
          garbages := Function.update s.garbages 0 ((s.nodes (s.garbages 0)).lr false)
          nGarbages := s.nGarbages - 1
          nEntries := s.nEntries + 1 } (s.garbages 0) key.length offset).nodes (s.garbages 0)).key =
          .stored offset key.length := by rw [patNodeSetSharedKey, modify_self]
      rw [hself] at houtcome
      exact ⟨t', own', free'', hshares, houtcome⟩
    · obtain rfl := Option.some.inj hadd
      obtain ⟨t', own', free'', hshares, houtcome⟩ := h.outcome hno (h.puts_addShared hkey hw) hins
      have hself : ((patNodeSetSharedKey { s with currRec := s.currRec + 1, nEntries := s.nEntries + 1 } (s.currRec + 1)
          key.length offset).nodes (s.currRec + 1)).key = .stored offset key.length := by
        rw [patNodeSetSharedKey, modify_self]
      rw [hself] at houtcome
      exact ⟨t', own', free'', hshares, houtcome⟩

/-! ## Suffixes -/

/-- **The next suffix finds its bytes**, if it becomes a record that shares them: the bytes of the key are
at the offset and end at `stop`. -/
def Placed (s : GrnPat) (t : Trie ℕ) (l : ℕ) (sis : List UInt8) (offset stop : ℕ) : Prop :=
  grnStrCharlenUtf8 sis ≠ 0 → 0x80 ≤ (nextSuffix sis).headD 0 →
    0 < patKeyStorageSize s.isKeyLarge (nextSuffix sis).length → (∀ j ∈ t.leaves, s.keyOf j ≠ nextSuffix sis) →
      (s.nodes l).key = .stored offset sis.length ∧ offset + sis.length = stop ∧ stop ≤ 2 ^ 32

/-- What the loop over the suffixes does: the records that it adds have their keys and their places. -/
structure Suffixed (s : GrnPat) (t : Trie ℕ) (sis : List UInt8) (stop : ℕ) (s' : GrnPat) (t' : Trie ℕ)
    (records : List (ℕ × List UInt8)) : Prop where
  before : Extends s s' t t'
  records : ∀ r ∈ records, r.1 ∈ t'.leaves ∧ s'.keyOf r.1 = r.2 ∧ r.2 <:+ sis ∧
    ∀ offset length, (s'.nodes r.1).key = .stored offset length → offset + r.2.length = stop

/-- A long suffix has a long key. -/
theorem storageSize_pos_of_le {isKeyLarge : Bool} {m n : ℕ} (hm : 0 < patKeyStorageSize isKeyLarge m) (hle : m ≤ n) :
    0 < patKeyStorageSize isKeyLarge n := by
  rw [patKeyStorageSize, patKeyIsEmbeddable] at hm ⊢
  simp only [decide_eq_true_eq] at hm ⊢
  split_ifs at hm ⊢ <;> omega

/-- The record of a suffix that is added, and the next one. -/
theorem Shares.suffix_added (h : Shares s t own free) {l r offset stop d : ℕ} {sis w : List UInt8} {b : Bool}
    {shared : Prop} [Decidable shared] (hl : l ∈ t.leaves) (hsis : s.keyOf l = sis) (hlen : sis.length ≤ maxKeySize)
    (hd : 0 < d) (hw : sis.drop d = w) (hne : w ≠ [])
    (hshared : shared ↔ 0 < (offset + d) % 2 ^ 32 ∧ 0 < patKeyStorageSize s.isKeyLarge w.length)
    (hplaced : 0 < patKeyStorageSize s.isKeyLarge w.length → (∀ j ∈ t.leaves, s.keyOf j ≠ w) →
      (s.nodes l).key = .stored offset sis.length ∧ offset + sis.length = stop ∧ stop ≤ 2 ^ 32)
    (hadd : (if shared then grnPatAddInternalShared s w ((offset + d) % 2 ^ 32) else grnPatAddInternal s w) =
      some (s', r, b)) :
    ∃ t' own' free', Shares s' t' own' free' ∧ Extends s s' t t' ∧ (b = true → r ∈ t'.leaves ∧
      s'.keyOf r = w ∧ (∀ o m, (s'.nodes r).key = .stored o m → o + w.length = stop) ∧
        Placed s' t' r w (if shared then (offset + d) % 2 ^ 32 else (s'.nodes r).key.offset % 2 ^ 32) stop) := by
  subst hw
  have hlength : (sis.drop d).length ≤ maxKeySize := by
    rw [List.length_drop]
    omega
  have hdlt : d < sis.length := by
    by_contra hge
    exact hne (List.drop_eq_nil_of_le (not_lt.mp hge))
  by_cases hlong : 0 < patKeyStorageSize s.isKeyLarge (sis.drop d).length
  · have hembed : patKeyIsEmbeddable s.isKeyLarge (sis.drop d).length = false := by
      rw [patKeyStorageSize] at hlong
      split_ifs at hlong with hembed
      · exact absurd hlong (Nat.lt_irrefl 0)
      · exact Bool.eq_false_of_not_eq_true hembed
    by_cases hfound : ∀ j ∈ t.leaves, s.keyOf j ≠ sis.drop d
    · -- the suffix shares the bytes of its key
      obtain ⟨hstored, hstop, hle⟩ := hplaced hlong hfound
      have hmod : (offset + d) % 2 ^ 32 = offset + d := Nat.mod_eq_of_lt (by omega)
      have hyes : shared := hshared.mpr ⟨by omega, hlong⟩
      rw [if_pos hyes, hmod] at hadd
      obtain ⟨t', own', free', hshares, houtcome⟩ := h.grnPatAddInternalShared_spec hne
        (within_drop (mem_ids.mpr (.inr hl)) hsis hstored hdlt.le hembed) hadd
      refine ⟨t', own', free', hshares, houtcome.before, fun hb => ?_⟩
      have hkey := (houtcome.new hb).2
      have hend : offset + d + (sis.drop d).length = stop := by
        rw [List.length_drop]
        omega
      refine ⟨houtcome.live, houtcome.reads, fun o m hom => ?_, fun _ _ _ _ => ⟨?_, ?_, hle⟩⟩
      · obtain ⟨rfl, -⟩ := StoredKey.stored.inj (hkey.symm.trans hom)
        exact hend
      · rw [if_pos hyes, hmod]
        exact hkey
      · rw [if_pos hyes, hmod]
        exact hend
    · -- the suffix is there
      push Not at hfound
      have hthere : Shares s' t own free ∧ Extends s s' t t ∧ b = false := by
        split_ifs at hadd
        · rw [grnPatAddInternalShared_eq] at hadd
          exact h.searchAndPut_found hne hfound hadd
        · rw [grnPatAddInternal_eq] at hadd
          exact h.searchAndPut_found hne hfound hadd
      obtain ⟨hshares, hextends, rfl⟩ := hthere
      exact ⟨t, own, free, hshares, hextends, fun hb => by cases hb⟩
  · -- the suffix is in its node, and so are the next ones
    have hno : ¬ shared := fun hyes => hlong (hshared.mp hyes).2
    rw [if_neg hno] at hadd
    obtain ⟨t', own', free', hshares, houtcome⟩ := h.grnPatAddInternal_spec hne hlength hadd
    refine ⟨t', own', free', hshares, houtcome.before, fun hb => ?_⟩
    refine ⟨houtcome.live, houtcome.reads, fun o m hom => ?_, fun _ _ hnext _ => ?_⟩
    · have hkey := (houtcome.new hb).2.symm.trans hom
      rw [newKey] at hkey
      split_ifs at hkey with hembed
      refine absurd (Nat.pos_of_ne_zero fun hzero => ?_) hlong
      rw [patKeyStorageSize, if_neg hembed] at hzero
      exact hne (List.length_eq_zero_iff.mp hzero)
    · have hle : (nextSuffix (sis.drop d)).length ≤ (sis.drop d).length := by
        rw [nextSuffix, List.length_drop]
        exact Nat.sub_le _ _
      rw [houtcome.before.isKeyLarge] at hnext
      exact absurd (storageSize_pos_of_le hnext hle) hlong

/-- The loop ends. -/
theorem Shares.suffixed_nil (h : Shares s t own free) (sis : List UInt8) (stop : ℕ) :
    ∃ t' own' free', Shares s t' own' free' ∧ Suffixed s t sis stop s t' [] :=
  ⟨t, own, free, h, extends_refl, fun r hr => by cases hr⟩

/-- **The loop over the suffixes.** -/
theorem Shares.sisLoop_spec (fuel : ℕ) (links : ℕ → SisNode) {l offset stop : ℕ} {sis : List UInt8}
    (h : Shares s t own free) (hl : l ∈ t.leaves) (hsis : s.keyOf l = sis) (hlen : sis.length ≤ maxKeySize)
    (hplaced : Placed s t l sis offset stop) : ∃ t' own' free',
    Shares (sisLoop fuel s links l sis offset).1 t' own' free' ∧
      Suffixed s t sis stop (sisLoop fuel s links l sis offset).1 t' (sisAdded fuel s sis offset) := by
  induction fuel generalizing s t own free l sis offset links with
  | zero => exact h.suffixed_nil sis stop
  | succ fuel ih =>
    rw [sisLoop, sisAdded]
    simp only
    cases hdrop : sis.drop (grnStrCharlenUtf8 sis) with
    | nil => exact h.suffixed_nil sis stop
    | cons c rest =>
      simp only
      by_cases hstop : grnStrCharlenUtf8 sis = 0 ∨ c < 0x80
      · rw [if_pos hstop, if_pos hstop]
        exact h.suffixed_nil sis stop
      · rw [if_neg hstop, if_neg hstop]
        obtain ⟨hcharlen, hc⟩ := not_or.mp hstop
        have hsuffix : c :: rest <:+ sis := by
          rw [← hdrop]
          exact List.drop_suffix _ _
        have hnext : nextSuffix sis = c :: rest := hdrop
        cases hadd : (if 0 < (offset + grnStrCharlenUtf8 sis) % 2 ^ 32 ∧
            0 < patKeyStorageSize s.isKeyLarge (c :: rest).length then
            grnPatAddInternalShared s (c :: rest) ((offset + grnStrCharlenUtf8 sis) % 2 ^ 32)
          else grnPatAddInternal s (c :: rest)) with
        | none => exact h.suffixed_nil sis stop
        | some r =>
          obtain ⟨s', r, b⟩ := r
          obtain ⟨t', own', free', hshares, hextends, hnew⟩ := h.suffix_added hl hsis hlen
            (Nat.pos_of_ne_zero hcharlen) hdrop (List.cons_ne_nil _ _) Iff.rfl (fun hlong hno => by
              refine hplaced hcharlen ?_ ?_ ?_
              · rw [hnext]
                exact UInt8.not_lt.mp hc
              · rw [hnext]
                exact hlong
              · rw [hnext]
                exact hno) hadd
          cases b with
          | false => exact ⟨t', own', free', hshares, hextends, fun r hr => by cases hr⟩
          | true =>
            obtain ⟨hr, hreads, hplace, hplaced'⟩ := hnew rfl
            have hlen' : (c :: rest).length ≤ maxKeySize := hsuffix.length_le.trans hlen
            obtain ⟨t'', own'', free'', hshares', hsuffixed⟩ := ih
              (Function.update (Function.update links l { links l with sibling := r }) r ⟨l, 0⟩) hshares hr hreads hlen' hplaced'
            refine ⟨t'', own'', free'', hshares', hextends.trans hsuffixed.before, fun a ha => ?_⟩
            rcases List.mem_cons.mp ha with rfl | ha
            · refine ⟨hsuffixed.before.leaves _ hr, ?_, hsuffix, fun o m hom => ?_⟩
              · rw [hsuffixed.before.keyOf _ hr]
                exact hreads
              · rw [hsuffixed.before.key _ hr] at hom
                exact hplace o m hom
            · obtain ⟨hlive, hread, hsuf, hplc⟩ := hsuffixed.records a ha
              exact ⟨hlive, hread, hsuf.trans hsuffix, hplc⟩

/-! ## Additions with suffixes -/

/-- **What `grn_pat_add` promises**: the records that it adds address the right bytes. -/
def AddressesAll (s : GrnPat) (links : ℕ → SisNode) (key : List UInt8) : Prop :=
  ∀ s' links' id, grnPatAddWithSis s links key = some (s', links', id, true) →
    Addresses s' (s'.nodes id).key.offset key (addedWithSis s key)

/-- A key that is not truncated ends before `2 ^ 32`. -/
theorem Shares.stored_le (h : Shares s t own free) {l offset length : ℕ} (hl : l ∈ t.leaves)
    (hstored : (s.nodes l).key = .stored offset length) (hplace : s.isKeyLarge = true → offset < 2 ^ 32) :
    offset + length ≤ 2 ^ 32 := by
  have hvalid := h.valid l (inUse_leaf hl)
  rw [hstored] at hvalid
  obtain ⟨hlong, hle, hsegment⟩ := hvalid
  have hpos := lt_of_not_embeddable hlong
  cases hlarge : s.isKeyLarge with
  | false => exact hle.trans (h.area hlarge)
  | true =>
    -- the key does not cross the end of a segment
    have hlt : offset / keySegmentSize < 0x400 := by
      rw [Nat.div_lt_iff_lt_mul (by decide)]
      exact hplace hlarge
    rw [← hsegment, Nat.div_lt_iff_lt_mul (by decide), keySegmentSize] at hlt
    omega

/-- **An addition that truncates no offset.** -/
theorem Shares.grnPatAddWithSis_spec (h : Shares s t own free) (hnot : ¬ Truncates s key) {links links' : ℕ → SisNode}
    {id : ℕ} {b : Bool} (hadd : grnPatAddWithSis s links key = some (s', links', id, b)) :
    ∃ t' own' free', Shares s' t' own' free' ∧
      (b = true → Addresses s' (s'.nodes id).key.offset key (addedWithSis s key)) := by
  rw [grnPatAddWithSis, Option.bind_eq_bind, Option.bind_eq_some_iff] at hadd
  obtain ⟨⟨s₁, i, b'⟩, hplain, hrest⟩ := hadd
  have hkey : key ≠ [] ∧ key.length ≤ maxKeySize := by
    rw [grnPatAdd] at hplain
    split_ifs at hplain with hout
    exact ⟨(not_or.mp hout).1, not_lt.mp (not_or.mp hout).2⟩
  have hinternal : grnPatAddInternal s key = some (s₁, i, b') := by
    rw [grnPatAdd, if_neg (not_or.mpr ⟨hkey.1, not_lt.mpr hkey.2⟩)] at hplain
    exact hplain
  obtain ⟨t₁, own₁, free₁, hshares, houtcome⟩ := h.grnPatAddInternal_spec hkey.1 hkey.2 hinternal
  cases b' with
  | false =>
    simp only [Bool.false_eq_true, false_and, if_false, Option.pure_def, Option.some.injEq, Prod.mk.injEq] at hrest
    obtain ⟨rfl, -, -, rfl⟩ := hrest
    exact ⟨t₁, own₁, free₁, hshares, fun hb => by cases hb⟩
  | true =>
    have haddress : ∀ s₂ t₂ records, Suffixed s₁ t₁ key ((s₁.nodes i).key.offset + key.length) s₂ t₂ records →
        Addresses s₂ (s₂.nodes i).key.offset key ((i, key) :: records) := by
      intro s₂ t₂ records hsuffixed
      have hself := hsuffixed.before.key i houtcome.live
      refine ⟨fun r hr => ?_, fun r hr => ?_, fun r hr offset length hstored => ?_⟩
      · rcases List.mem_cons.mp hr with rfl | hr
        · exact (hsuffixed.before.keyOf i houtcome.live).trans houtcome.reads
        · exact (hsuffixed.records r hr).2.1
      · rcases List.mem_cons.mp hr with rfl | hr
        · exact List.suffix_rfl
        · exact (hsuffixed.records r hr).2.2.1
      · rcases List.mem_cons.mp hr with rfl | hr
        · rw [hstored]
          rfl
        · rw [hself]
          exact (hsuffixed.records r hr).2.2.2 offset length hstored
    have hrecords : addedWithSis s key = (i, key) ::
        if 0x80 ≤ key.headD 0 then sisAdded key.length s₁ key ((s₁.nodes i).key.offset % 2 ^ 32) else [] := by
      rw [addedWithSis, hplain]
    rw [hrecords]
    simp only [true_and, Option.pure_def] at hrest
    by_cases hhead : 0x80 ≤ key.headD 0
    · rw [if_pos hhead] at hrest ⊢
      have hplaced : Placed s₁ t₁ i key ((s₁.nodes i).key.offset % 2 ^ 32)
          ((s₁.nodes i).key.offset + key.length) := by
        intro hcharlen hsuffix hlong hno
        rw [houtcome.before.isKeyLarge] at hlong
        have hnew : grnPatGet s (nextSuffix key) = some 0 := h.rooted.grnPatGet_of_not_leaf fun j hj hkeyOf =>
          hno j (houtcome.before.leaves j hj) ((houtcome.before.keyOf j hj).trans hkeyOf)
        have hle : (nextSuffix key).length ≤ key.length := by
          rw [nextSuffix, List.length_drop]
          exact Nat.sub_le _ _
        have hembed : ¬ patKeyIsEmbeddable s.isKeyLarge key.length = true := fun hembed => by
          have hpos := storageSize_pos_of_le hlong hle
          rw [patKeyStorageSize, if_pos hembed] at hpos
          exact Nat.lt_irrefl 0 hpos
        have hstored : (s₁.nodes i).key = .stored (keyPlace s key) key.length := by
          rw [(houtcome.new rfl).2, newKey, if_neg hembed]
        have hend := hshares.stored_le houtcome.live hstored (fun hlarge => by
          by_contra hbeyond
          exact hnot ⟨houtcome.before.isKeyLarge ▸ hlarge, not_lt.mp hbeyond, ⟨hhead, hcharlen⟩, hsuffix, hlong, hnew⟩)
        have hpos : 0 < key.length := List.length_pos_iff.mpr hkey.1
        rw [hstored]
        have hmod : keyPlace s key % 2 ^ 32 = keyPlace s key := Nat.mod_eq_of_lt (by omega)
        refine ⟨?_, ?_, hend⟩
        · show StoredKey.stored _ _ = .stored (keyPlace s key % 2 ^ 32) _
          rw [hmod]
        · show keyPlace s key % 2 ^ 32 + key.length = keyPlace s key + key.length
          rw [hmod]
      obtain ⟨t', own', free', hshares', hsuffixed⟩ := hshares.sisLoop_spec key.length
        (Function.update links i ⟨i, 0⟩) houtcome.live houtcome.reads hkey.2 hplaced
      simp only [Option.some.injEq, Prod.mk.injEq] at hrest
      obtain ⟨rfl, -, rfl, -⟩ := hrest
      exact ⟨t', own', free', hshares', fun _ => haddress _ _ _ hsuffixed⟩
    · rw [if_neg hhead] at hrest ⊢
      simp only [Option.some.injEq, Prod.mk.injEq] at hrest
      obtain ⟨rfl, -, rfl, -⟩ := hrest
      exact ⟨t₁, own₁, free₁, hshares, fun _ => haddress s₁ t₁ [] ⟨extends_refl, fun r hr => by cases hr⟩⟩

/-! ## Runs -/

/-- A table with suffix sharing, after the additions of keys. -/
def sisTable (isKeyLarge : Bool) (cacheSize : ℕ) (keys : List (List UInt8)) : GrnPat × (ℕ → SisNode) :=
  keys.foldl (fun r key => ((grnPatAddWithSis r.1 r.2 key).map fun a => (a.1, a.2.1)).getD r)
    (grnPatCreate isKeyLarge cacheSize, fun _ => ⟨0, 0⟩)

theorem sisTable_append (isKeyLarge : Bool) (cacheSize : ℕ) (keys : List (List UInt8)) (key : List UInt8) :
    sisTable isKeyLarge cacheSize (keys ++ [key]) =
      ((grnPatAddWithSis (sisTable isKeyLarge cacheSize keys).1 (sisTable isKeyLarge cacheSize keys).2 key).map
        fun a => (a.1, a.2.1)).getD (sisTable isKeyLarge cacheSize keys) := by
  rw [sisTable, List.foldl_append]
  rfl

theorem shares_grnPatCreate (isKeyLarge : Bool) (cacheSize : ℕ) :
    Shares (grnPatCreate isKeyLarge cacheSize) .nil id (fun _ => []) := by
  have hinv := inv_grnPatCreate isKeyLarge cacheSize
  have hnone : ∀ i, ¬ InUse .nil (fun _ => []) i := by
    rintro i (hi | ⟨n, hi⟩)
    · exact not_mem_ids_nil hi
    · cases hi
  exact ⟨hinv.rooted, hinv.cache, fun i hi => absurd hi (hnone i), fun i hi => absurd hi (hnone i), fun _ => rfl,
    fun _ i hi => absurd hi List.not_mem_nil, fun _ => List.nodup_nil,
    fun _ _ i hi => absurd hi List.not_mem_nil, fun _ _ _ hi => absurd hi List.not_mem_nil,
    fun _ i hi => absurd hi List.not_mem_nil, fun _ => Nat.zero_le _⟩

/-- No addition of a run truncates an offset. -/
def NeverTruncates (isKeyLarge : Bool) (cacheSize : ℕ) (keys : List (List UInt8)) : Prop :=
  ∀ before key, before ++ [key] <+: keys → ¬ Truncates (sisTable isKeyLarge cacheSize before).1 key

/-- The invariant holds in a run that truncates no offset. -/
theorem shares_sisTable (isKeyLarge : Bool) (cacheSize : ℕ) (keys : List (List UInt8))
    (hnever : NeverTruncates isKeyLarge cacheSize keys) :
    ∃ t own free, Shares (sisTable isKeyLarge cacheSize keys).1 t own free := by
  induction keys using List.reverseRecOn with
  | nil => exact ⟨_, _, _, shares_grnPatCreate isKeyLarge cacheSize⟩
  | append_singleton keys key ih =>
    obtain ⟨t, own, free, h⟩ := ih fun before k hbefore => hnever before k (hbefore.trans (List.prefix_append _ _))
    have hnot := hnever keys key List.prefix_rfl
    rw [sisTable_append]
    cases hadd : grnPatAddWithSis (sisTable isKeyLarge cacheSize keys).1 (sisTable isKeyLarge cacheSize keys).2 key with
    | none => exact ⟨t, own, free, h⟩
    | some r =>
      obtain ⟨s', links', id, b⟩ := r
      obtain ⟨t', own', free', hshares, -⟩ := h.grnPatAddWithSis_spec hnot hadd
      exact ⟨t', own', free', hshares⟩

/-- What additions keep when no node is free: the keys of all nodes and all bytes that are in use. -/
structure Kept (s s' : GrnPat) : Prop where
  garbages : ∀ n, s'.garbages n = 0
  currRec : s.currRec ≤ s'.currRec
  currKey : s.currKey ≤ s'.currKey
  nodes : ∀ j ≤ s.currRec, (s'.nodes j).key = (s.nodes j).key
  keys : ∀ p < s.currKey, s'.keys p = s.keys p

theorem Kept.trans {s'' : GrnPat} (h : Kept s s') (h' : Kept s' s'') : Kept s s'' :=
  ⟨h'.garbages, h.currRec.trans h'.currRec, h.currKey.trans h'.currKey,
    fun j hj => (h'.nodes j (hj.trans h.currRec)).trans (h.nodes j hj),
    fun p hp => (h'.keys p (hp.trans_le h.currKey)).trans (h.keys p hp)⟩

theorem Kept.setCache (h : Kept s s') : Kept s (s'.setCache key i) := by
  obtain ⟨cache, heq⟩ := @setCache_eq s' key i
  rw [heq]
  exact ⟨h.garbages, h.currRec, h.currKey, h.nodes, h.keys⟩

theorem kept_refl (hnone : ∀ n, s.garbages n = 0) : Kept s s :=
  ⟨hnone, Nat.le_refl _, Nat.le_refl _, fun _ _ => rfl, fun _ _ => rfl⟩

theorem kept_enable {m : ℕ} {p : Loc} (h : Kept s s₁) : Kept s (grnPatEnableNode s₁ i key c m p) :=
  ⟨h.garbages, h.currRec, h.currKey, fun j hj => enable_key.trans (h.nodes j hj), h.keys⟩

/-- A new node is behind all others. -/
theorem kept_new (hnone : ∀ n, s.garbages n = 0) {node : Node} {keys' : ℕ → UInt8} {currKey' nEntries' : ℕ}
    (hs₁ : s₁ = { s with
      nodes := Function.update s.nodes (s.currRec + 1) node, keys := keys', currKey := currKey'
      currRec := s.currRec + 1, nEntries := nEntries' })
    (hcurrKey : s.currKey ≤ currKey') (hkeys : ∀ p < s.currKey, keys' p = s.keys p) : Kept s s₁ := by
  subst hs₁
  refine ⟨hnone, Nat.le_succ _, hcurrKey, fun j hj => congrArg Node.key (Function.update_of_ne ?_ _ _), hkeys⟩
  exact Nat.ne_of_lt (Nat.lt_succ_of_le hj)

/-- A search keeps what is kept at its place. -/
theorem kept_searchAndPut (hnone : ∀ n, s.garbages n = 0) {put : Loc → ℕ → Option (GrnPat × ℕ × Bool)}
    {r : GrnPat × ℕ × Bool} (hput : ∀ p c, put p c = some r → Kept s r.1) (hr : searchAndPut s key put = some r) :
    Kept s r.1 := by
  rw [searchAndPut] at hr
  split_ifs at hr
  · obtain rfl := Option.some.inj hr
    exact kept_refl hnone
  · obtain ⟨found, -, hfound⟩ := Option.bind_eq_some_iff.mp hr
    cases found with
    | inl id =>
      obtain rfl := Option.some.inj hfound
      exact (kept_refl hnone).setCache
    | inr place => exact hput _ _ hfound

theorem kept_grnPatAddInternal (hnone : ∀ n, s.garbages n = 0) (hlen : key.length ≤ maxKeySize)
    {r : GrnPat × ℕ × Bool} (hadd : grnPatAddInternal s key = some r) : Kept s r.1 := by
  rw [grnPatAddInternal_eq] at hadd
  refine kept_searchAndPut hnone (fun p c hput => ?_) hadd
  rw [addAt] at hput
  simp only [hnone, ne_eq, not_true_eq_false, if_false] at hput
  split_ifs at hput with hmax
  obtain ⟨s₁, hset, rfl⟩ := Option.map_eq_some_iff.mp hput
  refine (kept_enable ?_).setCache
  rw [patNodeSetKey] at hset
  split_ifs at hset with hnil hembed
  · obtain rfl := Option.some.inj hset
    exact kept_new hnone rfl (Nat.le_refl _) fun _ _ => rfl
  · obtain ⟨⟨s₂, offset⟩, hkeyPut, rfl⟩ := Option.map_eq_some_iff.mp hset
    obtain ⟨hle, -, rfl⟩ := keyPut_eq hnil hlen hkeyPut
    exact kept_new hnone rfl (hle.trans (Nat.le_add_right _ _)) fun p hp => if_neg fun hin =>
      Nat.not_lt.mpr (hle.trans hin.1) hp

theorem kept_grnPatAddInternalShared (hnone : ∀ n, s.garbages n = 0) {offset : ℕ} {r : GrnPat × ℕ × Bool}
    (hadd : grnPatAddInternalShared s key offset = some r) : Kept s r.1 := by
  rw [grnPatAddInternalShared_eq] at hadd
  refine kept_searchAndPut hnone (fun p c hput => ?_) hadd
  rw [addSharedAt, if_neg (not_not.mpr (hnone 0))] at hput
  split_ifs at hput with hmax
  obtain rfl := Option.some.inj hput
  have hkept : Kept s (patNodeSetSharedKey { s with currRec := s.currRec + 1, nEntries := s.nEntries + 1 }
      (s.currRec + 1) key.length offset) := kept_new hnone rfl (Nat.le_refl _) fun _ _ => rfl
  exact (kept_enable hkept).setCache

/-- The loop over the suffixes keeps the keys. -/
theorem kept_sisLoop (fuel : ℕ) (links : ℕ → SisNode) (l offset : ℕ) (sis : List UInt8)
    (hnone : ∀ n, s.garbages n = 0) (hlen : sis.length ≤ maxKeySize) :
    Kept s (sisLoop fuel s links l sis offset).1 := by
  induction fuel generalizing s l sis offset links with
  | zero => exact kept_refl hnone
  | succ fuel ih =>
    rw [sisLoop]
    simp only
    cases hdrop : sis.drop (grnStrCharlenUtf8 sis) with
    | nil => exact kept_refl hnone
    | cons c rest =>
      have hlen' : (c :: rest).length ≤ maxKeySize := by
        rw [← hdrop, List.length_drop]
        exact (Nat.sub_le _ _).trans hlen
      simp only
      by_cases hstop : grnStrCharlenUtf8 sis = 0 ∨ c < 0x80
      · rw [if_pos hstop]
        exact kept_refl hnone
      · rw [if_neg hstop]
        cases hadd : (if 0 < (offset + grnStrCharlenUtf8 sis) % 2 ^ 32 ∧
            0 < patKeyStorageSize s.isKeyLarge (c :: rest).length then
            grnPatAddInternalShared s (c :: rest) ((offset + grnStrCharlenUtf8 sis) % 2 ^ 32)
          else grnPatAddInternal s (c :: rest)) with
        | none => exact kept_refl hnone
        | some r =>
          have hkept : Kept s r.1 := by
            split_ifs at hadd
            · exact kept_grnPatAddInternalShared hnone hadd
            · exact kept_grnPatAddInternal hnone hlen' hadd
          obtain ⟨s', r, b⟩ := r
          cases b with
          | false => exact hkept
          | true => exact hkept.trans (ih _ _ _ _ hkept.garbages hlen')

/-- A key of 4096 characters of one byte: the digits of a number. -/
def pageKey (i : ℕ) : List UInt8 := (List.range 4096).map fun j => if i.testBit j then 0x31 else 0x30

theorem length_pageKey (i : ℕ) : (pageKey i).length = 4096 := (List.length_map _).trans List.length_range

theorem mem_pageKey {b : UInt8} (hb : b ∈ pageKey i) : b = 0x31 ∨ b = 0x30 := by
  obtain ⟨j, -, rfl⟩ := List.mem_map.mp hb
  split_ifs
  · exact .inl rfl
  · exact .inr rfl

theorem headD_pageKey (i : ℕ) : ¬ 0x80 ≤ (pageKey i).headD 0 := by
  cases hpage : pageKey i with
  | nil => decide
  | cons b rest =>
    have hb : b ∈ pageKey i := by
      rw [hpage]
      exact List.mem_cons_self
    rcases mem_pageKey hb with rfl | rfl
    · exact show ¬ (0x80 : UInt8) ≤ 0x31 by decide
    · exact show ¬ (0x80 : UInt8) ≤ 0x30 by decide

theorem pageKey_inj (hi : i < 2 ^ 20) (hj : j < 2 ^ 20) (heq : pageKey i = pageKey j) : i = j := by
  rw [pageKey, pageKey] at heq
  refine Nat.eq_of_testBit_eq fun b => ?_
  by_cases hb : b < 4096
  · have hdigit := List.map_inj_left.mp heq b (List.mem_range.mpr hb)
    cases hib : i.testBit b <;> cases hjb : j.testBit b <;> simp [hib, hjb] at hdigit ⊢
  · have hlt : 2 ^ 20 ≤ 2 ^ b := Nat.pow_le_pow_right (by decide) (by omega)
    rw [Nat.testBit_lt_two_pow (hi.trans_le hlt), Nat.testBit_lt_two_pow (hj.trans_le hlt)]

/-- A table with large keys that has the first `n` of these keys. -/
structure Paged (s : GrnPat) (n : ℕ) : Prop where
  shares : ∃ t own free, Shares s t own free ∧ ∀ j ∈ t.leaves, ∃ i < n, s.keyOf j = pageKey i
  large : s.isKeyLarge = true
  garbages : ∀ m, s.garbages m = 0
  currRec : s.currRec = n
  currKey : s.currKey = 4096 * n
  first : 0 < n → ∀ p < 4096, s.keys p = 0x30

/-- What an addition to such a table does. -/
structure PageAdded (s : GrnPat) (n : ℕ) (key : List UInt8) (s' : GrnPat) : Prop where
  added : grnPatAddInternal s key = some (s', n + 1, true)
  shares : ∃ t own free, Shares s' t own free ∧ ∀ j ∈ t.leaves, s'.keyOf j = key ∨ ∃ i < n, s'.keyOf j = pageKey i
  large : s'.isKeyLarge = true
  garbages : ∀ m, s'.garbages m = 0
  currRec : s'.currRec = n + 1
  currKey : s'.currKey = 4096 * n + key.length
  keys : s'.keys = writeKey s.keys (4096 * n) key
  stored : (s'.nodes (n + 1)).key = .stored (4096 * n) key.length

/-- **Another key** goes behind the others. -/
theorem Paged.add (h : Paged s n) (hn : n ≤ 2 ^ 20) (key : List UInt8) (hlong : 8 < key.length) (hlen : key.length ≤ 4096)
    (hnew : ∀ i < n, pageKey i ≠ key) : ∃ s', PageAdded s n key s' := by
  obtain ⟨t, own, free, hshares, hleaves⟩ := h.shares
  have hkey : key ≠ [] := by
    rintro rfl
    exact Nat.not_lt_zero _ hlong
  have hno : ∀ j ∈ t.leaves, s.keyOf j ≠ key := by
    intro j hj heq
    obtain ⟨i, hi, hpage⟩ := hleaves j hj
    exact hnew i hi (hpage.symm.trans heq)
  have hembed : patKeyIsEmbeddable s.isKeyLarge key.length = false := by
    rw [h.large, patKeyIsEmbeddable]
    exact decide_eq_false (not_le.mpr hlong)
  have hput : keyPut s key = some ({ s with
      keys := writeKey s.keys (4096 * n) key
      currKey := 4096 * n + key.length }, 4096 * n) := by
    have hmax : grnPatMaxTotalKeySize true = 1099511627775 := by decide
    have hsize : keySegmentSize = 4194304 := rfl
    have hsegments : maxNSegments true = 262144 := rfl
    rw [keyPut, h.large, h.currKey, hmax, hsize, hsegments]
    have hsegment : 4096 * n / 4194304 = (4096 * n + key.length - 1) / 4194304 := by omega
    simp only
    rw [if_neg (by omega), if_neg (not_not.mpr hsegment), if_neg (by omega)]
  rcases hshares.searchAndPut_cases hkey fun p c => addAt s key c p with
    ⟨i, hi, hki, -⟩ | ⟨-, k, t₀, c, hplug, -, heq⟩
  · exact absurd hki (hno i hi)
  · rw [addAt, h.garbages, h.currRec] at heq
    simp only [ne_eq, not_true_eq_false, if_false] at heq
    rw [if_neg (by rw [grnIdMax]; omega), patNodeSetKey, if_neg hkey, hembed, hput] at heq
    simp only [Bool.false_eq_true, if_false, Option.map_some] at heq
    have hadd := grnPatAddInternal_eq.trans heq
    obtain ⟨t', own', free', hshares', houtcome⟩ := hshares.grnPatAddInternal_spec hkey hlen hadd
    refine ⟨_, hadd, ⟨t', own', free', hshares', fun j hj => ?_⟩, ?_, ?_, ?_, ?_, ?_, ?_⟩
    · rcases houtcome.only j hj with rfl | hj
      · exact .inl houtcome.reads
      · obtain ⟨i, hi, hpage⟩ := hleaves j hj
        exact .inr ⟨i, hi, (houtcome.before.keyOf j hj).trans hpage⟩
    · rw [houtcome.before.isKeyLarge]
      exact h.large
    · intro m
      obtain ⟨cache, hcache⟩ := @setCache_eq (grnPatEnableNode _ (n + 1) key c (key.length * 16) (place k)) key (n + 1)
      rw [hcache]
      exact h.garbages m
    · obtain ⟨cache, hcache⟩ := @setCache_eq (grnPatEnableNode _ (n + 1) key c (key.length * 16) (place k)) key (n + 1)
      rw [hcache]
      rfl
    · obtain ⟨cache, hcache⟩ := @setCache_eq (grnPatEnableNode _ (n + 1) key c (key.length * 16) (place k)) key (n + 1)
      rw [hcache]
      rfl
    · obtain ⟨cache, hcache⟩ := @setCache_eq (grnPatEnableNode _ (n + 1) key c (key.length * 16) (place k)) key (n + 1)
      rw [hcache]
      rfl
    · rw [(houtcome.new rfl).2, newKey, hembed, keyPlace]
      simp only [h.garbages, ne_eq, not_true_eq_false, if_false, hput]
      rfl

/-- One more of these keys. -/
theorem Paged.succ (h : Paged s n) (hn : n < 2 ^ 20) (links : ℕ → SisNode) :
    ∃ s', grnPatAddWithSis s links (pageKey n) = some (s', links, n + 1, true) ∧ Paged s' (n + 1) := by
  have hlength := length_pageKey n
  obtain ⟨s', hadded⟩ := h.add hn.le (pageKey n) (by omega) (by omega) fun i hi heq =>
    Nat.ne_of_lt hi (pageKey_inj (hi.trans hn) hn heq)
  have hplain : grnPatAdd s (pageKey n) = some (s', n + 1, true) := by
    rw [grnPatAdd, if_neg]
    · exact hadded.added
    · rw [not_or]
      refine ⟨fun hnil => ?_, ?_⟩
      · rw [hnil] at hlength
        cases hlength
      · rw [hlength, maxKeySize]
        exact Nat.lt_irrefl _
  refine ⟨s', ?_, ?_, hadded.large, hadded.garbages, hadded.currRec, ?_, fun _ p hp => ?_⟩
  · rw [grnPatAddWithSis, hplain]
    simp only [Option.bind_eq_bind, Option.bind_some, headD_pageKey, and_false, if_false]
    rfl
  · obtain ⟨t, own, free, hshares, hleaves⟩ := hadded.shares
    refine ⟨t, own, free, hshares, fun j hj => ?_⟩
    rcases hleaves j hj with heq | ⟨i, hi, heq⟩
    · exact ⟨n, Nat.lt_succ_self n, heq⟩
    · exact ⟨i, Nat.lt_succ_of_lt hi, heq⟩
  · rw [hadded.currKey, hlength]
    omega
  · rw [hadded.keys, writeKey, hlength]
    by_cases hzero : n = 0
    · subst hzero
      have hget : (pageKey 0).getD p 0 = 0x30 := by
        rw [List.getD_eq_getElem _ _ (by rw [length_pageKey]; exact hp)]
        simp only [pageKey, List.getElem_map, Nat.zero_testBit, Bool.false_eq_true, if_false]
      rw [if_pos (by omega)]
      exact hget
    · rw [if_neg (by omega)]
      exact h.first (Nat.pos_of_ne_zero hzero) p hp

/-- The table with the first of these keys. -/
theorem paged_sisTable (hn : n ≤ 2 ^ 20) : Paged (sisTable true 0 ((List.range n).map pageKey)).1 n := by
  induction n with
  | zero =>
    refine ⟨⟨_, _, _, shares_grnPatCreate true 0, fun j hj => absurd hj (Multiset.notMem_zero j)⟩, rfl, fun _ => rfl, rfl,
      rfl, fun h => absurd h (Nat.lt_irrefl 0)⟩
  | succ n ih =>
    obtain ⟨s', hadd, hpaged⟩ := (ih (Nat.le_of_succ_le hn)).succ hn (sisTable true 0 ((List.range n).map pageKey)).2
    rw [List.range_succ, List.map_append, List.map_singleton, sisTable_append, hadd]
    exact hpaged

/-- A round of the loop that adds a suffix. -/
theorem sisLoop_of_added (fuel l offset : ℕ) (links : ℕ → SisNode) {r : ℕ} {sis rest : List UInt8} {b : UInt8}
    (hdrop : sis.drop (grnStrCharlenUtf8 sis) = b :: rest) (hgo : ¬ (grnStrCharlenUtf8 sis = 0 ∨ b < 0x80))
    (hshared : 0 < (offset + grnStrCharlenUtf8 sis) % 2 ^ 32 ∧ 0 < patKeyStorageSize s.isKeyLarge (b :: rest).length)
    (hadd : grnPatAddInternalShared s (b :: rest) ((offset + grnStrCharlenUtf8 sis) % 2 ^ 32) = some (s', r, true)) :
    (∃ links', sisLoop (fuel + 1) s links l sis offset =
      sisLoop fuel s' links' r (b :: rest) ((offset + grnStrCharlenUtf8 sis) % 2 ^ 32)) ∧
    (r, b :: rest) ∈ sisAdded (fuel + 1) s sis offset := by
  rw [sisLoop, sisAdded]
  simp only
  rw [hdrop]
  simp only
  rw [if_neg hgo, if_neg hgo, if_pos hshared, hadd]
  simp only [if_pos hshared]
  exact ⟨⟨_, rfl⟩, List.mem_cons_self⟩

/-- The suffix of three characters. -/
def kanaSuffix : List UInt8 := [0xe3, 0x81, 0x84, 0xe3, 0x81, 0x86, 0xe3, 0x81, 0x88]

/-- **The first suffix behind four gigabytes** is a record that has the bytes of the first key of the table. -/
theorem PageAdded.suffix (hadded : PageAdded s n kana s₁) (hn : n ≤ 2 ^ 20) :
    ∃ s₂, grnPatAddInternalShared s₁ kanaSuffix 3 = some (s₂, n + 2, true) ∧ (∀ m, s₂.garbages m = 0) ∧
      s₂.currRec = n + 2 ∧ s₂.currKey = s₁.currKey ∧ s₂.keys = s₁.keys ∧
        (s₂.nodes (n + 2)).key = .stored 3 kanaSuffix.length := by
  obtain ⟨t, own, free, hshares, hleaves⟩ := hadded.shares
  have hno : ∀ j ∈ t.leaves, s₁.keyOf j ≠ kanaSuffix := by
    intro j hj heq
    rcases hleaves j hj with hkana | ⟨i, -, hpage⟩
    · exact absurd (hkana.symm.trans heq) (by decide)
    · have hlength := congrArg List.length (hpage.symm.trans heq)
      rw [length_pageKey] at hlength
      exact absurd hlength (by decide)
  rcases hshares.searchAndPut_cases (List.cons_ne_nil _ _) fun p c => addSharedAt s₁ kanaSuffix 3 c p with
    ⟨i, hi, hki, -⟩ | ⟨-, k, t₀, c, -, -, heq⟩
  · exact absurd hki (hno i hi)
  · rw [addSharedAt, if_neg (not_not.mpr (hadded.garbages 0)), if_neg (by rw [hadded.currRec, grnIdMax]; omega),
      hadded.currRec] at heq
    obtain ⟨cache, hcache⟩ := @setCache_eq (grnPatAddSharedNode s₁ (n + 2) kanaSuffix 3 c (kanaSuffix.length * 16)
      (place k)) kanaSuffix (n + 2)
    refine ⟨_, grnPatAddInternalShared_eq.trans heq, ?_, ?_, ?_, ?_, ?_⟩
    · intro m
      rw [hcache]
      exact hadded.garbages m
    · rw [hcache]
      rfl
    · rw [hcache]
      rfl
    · rw [hcache]
      rfl
    · rw [setCache_nodes]
      show ((grnPatEnableNode _ _ _ _ _ _).nodes _).key = _
      rw [enable_key, patNodeSetSharedKey, modify_self]

end Groonga.Pat
