import Groonga.Pat.Invariant

/-!
# Storing a key

A key of at most 4 bytes (8 with large keys) is in its node; a longer one is in the key
area, behind all others, or in the place of the key of a recycled node, which has the
same size.
-/

namespace Groonga.Pat

open Lib.Patricia

variable {s s' : GrnPat} {i j : ℕ} {key : List UInt8} {lost : Finset ℕ}

/-! ## The key area -/

/-- The bytes at an offset. -/
def bytesAt (keys : ℕ → UInt8) (offset length : ℕ) : List UInt8 :=
  (List.range length).map fun i => keys (offset + i)

theorem bytesAt_writeKey_self (keys : ℕ → UInt8) (offset : ℕ) :
    bytesAt (writeKey keys offset key) offset key.length = key := by
  refine List.ext_getElem (by simp [bytesAt]) fun n h1 h2 => ?_
  have hn : offset ≤ offset + n ∧ offset + n < offset + key.length :=
    ⟨Nat.le_add_right .., Nat.add_lt_add_left h2 offset⟩
  simp only [bytesAt, List.getElem_map, List.getElem_range, writeKey]
  rw [if_pos hn, Nat.add_sub_cancel_left, List.getD_eq_getElem _ _ h2]

theorem bytesAt_writeKey_of_apart {keys : ℕ → UInt8} {offset o l : ℕ}
    (h : offset + key.length ≤ o ∨ o + l ≤ offset) :
    bytesAt (writeKey keys offset key) o l = bytesAt keys o l := by
  refine List.map_congr_left fun n hn => ?_
  have hn := List.mem_range.mp hn
  refine if_neg fun hin => ?_
  omega

theorem nodeKey_stored {n : Node} {offset length : ℕ} (h : n.key = .stored offset length) :
    s.nodeKey n = bytesAt s.keys offset length := by
  simp only [GrnPat.nodeKey, h, bytesAt]

theorem nodeKey_immediate {n : Node} (h : n.key = .immediate key) : s.nodeKey n = key := by
  simp only [GrnPat.nodeKey, h]

/-- A key that is not embedded has at least five bytes. -/
theorem lt_of_not_embeddable {isKeyLarge : Bool} {n : ℕ}
    (h : patKeyIsEmbeddable isKeyLarge n = false) : 4 < n := by
  simp only [patKeyIsEmbeddable, decide_eq_false_iff_not, not_le] at h
  cases isKeyLarge
  · simpa using h
  · have : 8 < n := by simpa using h
    omega

/-- A stored key is not empty. -/
theorem Keys.keyOf_ne_nil (h : Keys s lost) (hi : s.KnownId lost i) : s.keyOf i ≠ [] := by
  have hvalid := h.valid i hi
  rw [GrnPat.keyOf]
  cases hkey : (s.nodes i).key with
  | immediate key =>
    rw [hkey] at hvalid
    rw [nodeKey_immediate hkey]
    exact hvalid.1
  | stored offset length =>
    rw [hkey] at hvalid
    have := lt_of_not_embeddable hvalid.1
    rw [nodeKey_stored hkey]
    refine List.ne_nil_of_length_pos ?_
    simp only [bytesAt, List.length_map, List.length_range]
    omega

theorem StoredKey.Valid.mono {isKeyLarge : Bool} {n m : ℕ} {k : StoredKey} (h : k.Valid isKeyLarge n)
    (hnm : n ≤ m) : k.Valid isKeyLarge m := by
  cases k with
  | immediate key => exact h
  | stored offset length => exact ⟨h.1, h.2.1.trans hnm, h.2.2⟩

theorem Inv.keyOf_ne_nil {t : Trie ℕ} {own : ℕ → ℕ} {free : ℕ → List ℕ} (h : Inv s t own free lost)
    (hj : j ∈ t.ids) : s.keyOf j ≠ [] :=
  h.keys.keyOf_ne_nil (h.known hj)

/-! ## Storing -/

theorem StoredKey.Apart.symm {k k' : StoredKey} (h : k.Apart k') : k'.Apart k := by
  cases k with
  | immediate key => cases k' <;> trivial
  | stored o l =>
    cases k' with
    | immediate key => trivial
    | stored o' l' => exact Or.symm h

/-- **A key was stored** for the record `i`: no other key has changed, nor has anything
that does not belong to keys and counters. -/
structure Stores (s s' : GrnPat) (lost : Finset ℕ) (i : ℕ) (key : List UInt8) : Prop where
  nodes_ne : ∀ j, j ≠ i → s'.nodes j = s.nodes j
  keyOf_self : s'.keyOf i = key
  keyOf_ne : ∀ j, s.KnownId lost j → j ≠ i → s'.keyOf j = s.keyOf j
  keys : Keys s' lost
  delinfos : s'.delinfos = s.delinfos
  ring : s'.currDel = s.currDel ∧ s'.currDel2 = s.currDel2 ∧ s'.currDel3 = s.currDel3
  cache : s'.cacheSize = s.cacheSize ∧ s'.cache = s.cache

/-- `key_put` writes behind all keys, and into one segment. -/
theorem keyPut_eq {offset : ℕ} (hkey : key ≠ []) (hlen : key.length ≤ maxKeySize)
    (h : keyPut s key = some (s', offset)) :
    s.currKey ≤ offset ∧ (offset + key.length - 1) / keySegmentSize = offset / keySegmentSize ∧
      s' = { s with keys := writeKey s.keys offset key, currKey := offset + key.length } := by
  have hsegment : key.length ≤ keySegmentSize := hlen.trans (by simp [maxKeySize, keySegmentSize])
  have hpos : 0 < key.length := List.length_pos_iff.mpr hkey
  have hle : s.currKey / keySegmentSize ≤ (s.currKey + key.length - 1) / keySegmentSize :=
    Nat.div_le_div_right (by omega)
  simp only [keyPut] at h
  split_ifs at h with _ hcross
  · -- the key starts the next segment
    obtain ⟨rfl, rfl⟩ := Prod.mk.inj (Option.some.inj h)
    have hlt : s.currKey / keySegmentSize < (s.currKey + key.length - 1) / keySegmentSize :=
      lt_of_le_of_ne hle hcross
    refine ⟨(Nat.lt_mul_of_div_lt hlt (by simp [keySegmentSize])).le, ?_, rfl⟩
    rw [Nat.add_sub_assoc hpos, Nat.add_comm, Nat.add_mul_div_right _ _ (by simp [keySegmentSize]),
      Nat.div_eq_of_lt (by omega), Nat.zero_add, Nat.mul_div_cancel _ (by simp [keySegmentSize])]
  · obtain ⟨rfl, rfl⟩ := Prod.mk.inj (Option.some.inj h)
    exact ⟨le_rfl, (not_not.mp hcross).symm, rfl⟩

/-- The key area holds a key as `k` says; other keys may be elsewhere. -/
def Writes (keys keys' : ℕ → UInt8) (k : StoredKey) (key : List UInt8) : Prop :=
  (k = .immediate key ∧ keys' = keys) ∨
    ∃ offset, k = .stored offset key.length ∧ keys' = writeKey keys offset key

/-- What has to be shown for a key to be stored. -/
theorem Stores.of_writes {n : Node} {keys' : ℕ → UInt8} {garbages' : ℕ → ℕ}
    {currKey' currRec' nEntries' nGarbages' : ℕ} (h : Keys s lost)
    (hs' : s' = { s with
      nodes := Function.update s.nodes i n, keys := keys', garbages := garbages',
      currKey := currKey', currRec := currRec', nEntries := nEntries', nGarbages := nGarbages' })
    (hrec : ∀ j, j ≤ currRec' → j ≠ i → j ≤ s.currRec)
    (hwrites : Writes s.keys keys' n.key key) (hvalid : n.key.Valid s.isKeyLarge currKey')
    (hapart : ∀ j, s.KnownId lost j → j ≠ i → (s.nodes j).key.Apart n.key)
    (hcurr : s.currKey ≤ currKey') : Stores s s' lost i key := by
  have hself : s'.nodes i = n := by
    rw [hs']
    exact Function.update_self ..
  have hne : ∀ j, j ≠ i → s'.nodes j = s.nodes j := by
    intro j hj
    rw [hs']
    exact Function.update_of_ne hj ..
  have hkeys : s'.keys = keys' := by rw [hs']
  have hknown : ∀ j, s'.KnownId lost j → j ≠ i → s.KnownId lost j := by
    rintro j ⟨h1, h2, h3⟩ hj
    have hrec' : s'.currRec = currRec' := by rw [hs']
    exact ⟨h1, hrec j (hrec' ▸ h2) hj, h3⟩
  refine
    { nodes_ne := hne
      keyOf_self := ?_
      keyOf_ne := ?_
      keys := ⟨?_, ?_⟩
      delinfos := by rw [hs']
      ring := by rw [hs']; exact ⟨rfl, rfl, rfl⟩
      cache := by rw [hs']; exact ⟨rfl, rfl⟩ }
  · rw [GrnPat.keyOf, hself]
    rcases hwrites with ⟨hk, -⟩ | ⟨offset, hk, hw⟩
    · exact nodeKey_immediate hk
    · rw [nodeKey_stored hk, hkeys, hw]
      exact bytesAt_writeKey_self ..
  · intro j hj hji
    have hapart := hapart j hj hji
    rw [GrnPat.keyOf, GrnPat.keyOf, hne j hji]
    cases hkey : (s.nodes j).key with
    | immediate key => rw [nodeKey_immediate hkey, nodeKey_immediate hkey]
    | stored o l =>
      rw [nodeKey_stored hkey, nodeKey_stored hkey, hkeys]
      rcases hwrites with ⟨-, hw⟩ | ⟨offset, hk, hw⟩
      · rw [hw]
      · rw [hkey, hk] at hapart
        rw [hw]
        exact bytesAt_writeKey_of_apart (Or.symm hapart)
  · intro j hj
    have hlarge : s'.isKeyLarge = s.isKeyLarge := by rw [hs']
    have hcurr' : s'.currKey = currKey' := by rw [hs']
    rw [hlarge, hcurr']
    by_cases hji : j = i
    · rw [hji, hself]
      exact hvalid
    · rw [hne j hji]
      exact (h.valid j (hknown j hj hji)).mono hcurr
  · intro a b ha hb hab
    by_cases hai : a = i
    · subst hai
      rw [hself, hne b (Ne.symm hab)]
      exact (hapart b (hknown b hb (Ne.symm hab)) (Ne.symm hab)).symm
    · have ha := hknown a ha hai
      rw [hne a hai]
      by_cases hbi : b = i
      · rw [hbi, hself]
        exact hapart a ha hai
      · rw [hne b hbi]
        exact h.apart a b ha (hknown b hb hbi) hab

theorem StoredKey.apart_immediate (k : StoredKey) : k.Apart (.immediate key) := by
  cases k <;> trivial

/-- The key of a new record. -/
theorem stores_patNodeSetKey {n : ℕ} (h : Keys s lost) (hlen : key.length ≤ maxKeySize)
    (hset : patNodeSetKey s (s.currRec + 1) key = some s') :
    Stores s { s' with currRec := s.currRec + 1, nEntries := n } lost (s.currRec + 1) key := by
  have hrec : ∀ j, j ≤ s.currRec + 1 → j ≠ s.currRec + 1 → j ≤ s.currRec := fun j hj hne =>
    Nat.lt_succ_iff.mp (lt_of_le_of_ne hj hne)
  unfold patNodeSetKey at hset
  split_ifs at hset with hnil hembed
  · obtain rfl := Option.some.inj hset
    exact Stores.of_writes (n := { s.nodes (s.currRec + 1) with key := .immediate key }) h rfl hrec
      (.inl ⟨rfl, rfl⟩) ⟨hnil, hembed⟩ (fun j _ _ => StoredKey.apart_immediate _) le_rfl
  · obtain ⟨⟨s₁, offset⟩, hput, rfl⟩ := Option.map_eq_some_iff.mp hset
    obtain ⟨hle, hsegment, rfl⟩ := keyPut_eq hnil hlen hput
    refine Stores.of_writes (n := { s.nodes (s.currRec + 1) with key := .stored offset key.length })
      h rfl hrec (.inr ⟨offset, rfl, rfl⟩) ⟨?_, le_rfl, hsegment⟩ ?_ (hle.trans (Nat.le_add_right ..))
    · exact Bool.eq_false_iff.mpr hembed
    · -- the new key is behind all others
      intro j hknown _
      have hvalid := h.valid j hknown
      cases hj : (s.nodes j).key with
      | immediate key => trivial
      | stored o l =>
        rw [hj] at hvalid
        exact .inl (hvalid.2.1.trans hle)

theorem patNodeSetKey_counters (hlen : key.length ≤ maxKeySize)
    (hset : patNodeSetKey s i key = some s') :
    s'.garbages = s.garbages ∧ s'.nGarbages = s.nGarbages ∧ s'.nEntries = s.nEntries := by
  unfold patNodeSetKey at hset
  split_ifs at hset with hnil hembed
  · obtain rfl := Option.some.inj hset
    exact ⟨rfl, rfl, rfl⟩
  · obtain ⟨⟨s₁, offset⟩, hput, rfl⟩ := Option.map_eq_some_iff.mp hset
    obtain ⟨-, -, rfl⟩ := keyPut_eq hnil hlen hput
    exact ⟨rfl, rfl, rfl⟩

/-- The part of `grn_pat_reuse_node` before the node is linked. -/
def recycle (s : GrnPat) (id : ℕ) (key : List UInt8) : GrnPat :=
  let s := { s with
    garbages := Function.update s.garbages (patKeyStorageSize s.isKeyLarge key.length)
      ((s.nodes id).lr false) }
  let s :=
    match (s.nodes id).key with
    | .immediate _ => s.modify id ({ · with key := .immediate key })
    | .stored offset _ =>
      { s.modify id ({ · with key := .stored offset key.length }) with
        keys := writeKey s.keys offset key }
  { s with nGarbages := s.nGarbages - 1, nEntries := s.nEntries + 1 }

theorem grnPatReuseNode_eq (c m : ℕ) (p : Loc) :
    grnPatReuseNode s i key c m p = grnPatEnableNode (recycle s i key) i key c m p := rfl

/-- The list of free nodes after its first node is taken. -/
def garbagesAfter (s : GrnPat) (i : ℕ) (key : List UInt8) : ℕ → ℕ :=
  Function.update s.garbages (patKeyStorageSize s.isKeyLarge key.length) ((s.nodes i).lr false)

theorem recycle_immediate {old : List UInt8} (h : (s.nodes i).key = .immediate old) :
    recycle s i key = { s with
      nodes := Function.update s.nodes i { s.nodes i with key := .immediate key }
      garbages := garbagesAfter s i key
      nGarbages := s.nGarbages - 1
      nEntries := s.nEntries + 1 } := by
  simp only [recycle, h]
  rfl

theorem recycle_stored {offset length : ℕ} (h : (s.nodes i).key = .stored offset length) :
    recycle s i key = { s with
      nodes := Function.update s.nodes i { s.nodes i with key := .stored offset key.length }
      keys := writeKey s.keys offset key
      garbages := garbagesAfter s i key
      nGarbages := s.nGarbages - 1
      nEntries := s.nEntries + 1 } := by
  simp only [recycle, h]
  rfl

/-- The counters and lists after a node is recycled. -/
theorem recycle_counters : (recycle s i key).garbages = garbagesAfter s i key ∧
    (recycle s i key).nGarbages = s.nGarbages - 1 ∧
    (recycle s i key).nEntries = s.nEntries + 1 ∧ (recycle s i key).currRec = s.currRec := by
  cases h : (s.nodes i).key with
  | immediate old => rw [recycle_immediate h]; exact ⟨rfl, rfl, rfl, rfl⟩
  | stored offset length => rw [recycle_stored h]; exact ⟨rfl, rfl, rfl, rfl⟩

theorem patKeyStorageSize_eq_zero {isKeyLarge : Bool} {n : ℕ} (hn : n ≠ 0) :
    patKeyStorageSize isKeyLarge n = 0 ↔ patKeyIsEmbeddable isKeyLarge n = true := by
  unfold patKeyStorageSize
  split_ifs with h
  · exact iff_of_true rfl h
  · exact iff_of_false hn h

/-- The key of a recycled record takes the place of a key of its size. -/
theorem stores_recycle (h : Keys s lost) (hi : s.KnownId lost i) (hkey : key ≠ [])
    (hsize : (s.nodes i).key.storageSize = patKeyStorageSize s.isKeyLarge key.length) :
    Stores s (recycle s i key) lost i key := by
  have hlen : key.length ≠ 0 := fun h => hkey (List.length_eq_zero_iff.mp h)
  have hvalid := h.valid i hi
  have hapart := fun j hj hji => h.apart j i hj hi hji
  cases hnode : (s.nodes i).key with
  | immediate old =>
    rw [hnode] at hsize
    exact Stores.of_writes h (recycle_immediate hnode) (fun j hj _ => hj) (.inl ⟨rfl, rfl⟩)
      ⟨hkey, (patKeyStorageSize_eq_zero hlen).mp hsize.symm⟩
      (fun j _ _ => StoredKey.apart_immediate _) le_rfl
  | stored offset length =>
    rw [hnode] at hsize hvalid hapart
    have hlength : length = key.length := by
      have hsize : length = patKeyStorageSize s.isKeyLarge key.length := hsize
      have := lt_of_not_embeddable hvalid.1
      unfold patKeyStorageSize at hsize
      split_ifs at hsize
      · omega
      · exact hsize
    subst hlength
    exact Stores.of_writes h (recycle_stored hnode) (fun j hj _ => hj) (.inr ⟨offset, rfl, rfl⟩)
      hvalid hapart le_rfl

end Groonga.Pat
