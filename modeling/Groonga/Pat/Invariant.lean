import Groonga.Pat.Fields
import Groonga.Pat.Linked
import Mathlib

/-!
# The invariant of the patricia trie

The leaves of the linked tree are the live records. An inner node is the branch of a
live record, or of a deleted one that is still pending in phase 1; each has an owner, a
leaf below it: the record itself while it is live, afterwards the node that will take
its place. A leaf that owns no branch has a disabled self-loop.

`Rooted` is what holds of the nodes alone. `Slots` relates the pending deletions to the
tree, `Ring` places them in the ring of slots, `Keys` says that the stored keys do not
overlap, and `Accounts` that every id is live, pending or free, but for the ids that a
defragmentation has lost: it clears the lists of free nodes.
-/

namespace Groonga.Pat

open Lib.Patricia Lib.Patricia.Trie

/-! ## The tree -/

/-- The test of `grn_pat_del_internal` for a disabled self-loop. -/
def SelfLoop (nodes : ℕ → Node) (i : ℕ) : Prop :=
  ((nodes i).lr false = 0 ∧ (nodes i).lr true = i) ∨ ((nodes i).lr true = 0 ∧ (nodes i).lr false = i)

instance (nodes : ℕ → Node) (i : ℕ) : Decidable (SelfLoop nodes i) :=
  inferInstanceAs (Decidable (_ ∨ _))

/-- A leaf without a branch. Its self-loop is where its own check leads to, unless the
check was reset to 0; either way it can become the first node. -/
structure Disabled (nodes : ℕ → Node) (v : Word) (i : ℕ) : Prop where
  check_lt : (nodes i).check < v.len
  selfLoop : SelfLoop nodes i
  direction : (nodes i).check = 0 ∨ (nodes i).lr (v.bit (nodes i).check) = i

/-- **The linked tree.** -/
structure Rooted (nodes : ℕ → Node) (w : ℕ → Word) (t : Trie ℕ) (own : ℕ → ℕ) : Prop where
  linked : Linked nodes (-1) (linkAt nodes .root) t
  wf : WF w (-1) t
  inner_nodup : t.inner.Nodup
  leaves_nodup : t.leaves.Nodup
  owned : Owned own t
  own_inj : ∀ i ∈ t.inner, ∀ j ∈ t.inner, own i = own j → i = j
  own_self : ∀ i ∈ t.inner, i ∈ t.leaves → own i = i
  disabled : ∀ i ∈ t.leaves, (∀ j ∈ t.inner, own j ≠ i) → Disabled nodes (w i) i
  enabled : ∀ j ∈ t.inner, j ∉ t.leaves → ¬ SelfLoop nodes (own j)

/-! ## Pending deletions -/

/-- The slots of the ring: those in use are behind `currDel3`, those in phase 1 behind
`currDel2`, and all are before `currDel`. -/
structure Ring (s : GrnPat) : Prop where
  del_lt : s.currDel < 256
  del2_lt : s.currDel2 < 256
  del3_lt : s.currDel3 < 256
  half : (s.currDel + 256 - s.currDel2) % 256 ≤ 128
  order : (s.currDel + 256 - s.currDel2) % 256 ≤ (s.currDel + 256 - s.currDel3) % 256
  lt : ∀ n, (s.delinfos n).stat ≠ .empty → n < 256
  used : ∀ n, (s.delinfos n).stat ≠ .empty →
    (n + 256 - s.currDel3) % 256 < (s.currDel + 256 - s.currDel3) % 256
  phase1 : ∀ n, (s.delinfos n).stat = .phase1 →
    (n + 256 - s.currDel2) % 256 < (s.currDel + 256 - s.currDel2) % 256

/-- The pending deletions and the tree. -/
structure Slots (nodes : ℕ → Node) (delinfos : ℕ → Delinfo) (t : Trie ℕ) (own : ℕ → ℕ) :
    Prop where
  phase1 : ∀ n, (delinfos n).stat = .phase1 → (delinfos n).d ∈ t.inner ∧
    (delinfos n).d ∉ t.leaves ∧ own (delinfos n).d = (delinfos n).ld
  dead : ∀ j ∈ t.inner, j ∉ t.leaves → ∃ n, (delinfos n).stat = .phase1 ∧ (delinfos n).d = j
  phase2 : ∀ n, (delinfos n).stat = .phase2 → (delinfos n).d ∉ t.ids
  d_inj : ∀ m n, (delinfos m).stat ≠ .empty → (delinfos n).stat ≠ .empty →
    (delinfos m).d = (delinfos n).d → m = n
  deleting : ∀ j ∈ t.ids, (nodes j).deleting = true ↔
    ∃ n, (delinfos n).stat = .phase1 ∧ ((delinfos n).ld = j ∨ (delinfos n).d = j)

/-- The id is `d` of a pending deletion. -/
def Pending (delinfos : ℕ → Delinfo) (i : ℕ) : Prop :=
  ∃ n, (delinfos n).stat ≠ .empty ∧ (delinfos n).d = i

/-! ## Keys and ids -/

/-- The bytes of the key area that a key takes. -/
def StoredKey.storageSize : StoredKey → ℕ
  | .immediate _ => 0
  | .stored _ length => length

/-- A key as `pat_node_set_key` stores it: it does not cross the end of a segment. -/
def StoredKey.Valid (isKeyLarge : Bool) (currKey : ℕ) : StoredKey → Prop
  | .immediate key => key ≠ [] ∧ patKeyIsEmbeddable isKeyLarge key.length = true
  | .stored offset length => patKeyIsEmbeddable isKeyLarge length = false ∧
      offset + length ≤ currKey ∧
      (offset + length - 1) / keySegmentSize = offset / keySegmentSize

/-- Two keys do not share a byte of the key area. -/
def StoredKey.Apart : StoredKey → StoredKey → Prop
  | .stored o l, .stored o' l' => o + l ≤ o' ∨ o' + l' ≤ o
  | _, _ => True

/-- An id that was handed out, and that is still known. -/
def GrnPat.KnownId (s : GrnPat) (lost : Finset ℕ) (i : ℕ) : Prop :=
  1 ≤ i ∧ i ≤ s.currRec ∧ i ∉ lost

/-- The keys of all ids that are known. -/
structure Keys (s : GrnPat) (lost : Finset ℕ) : Prop where
  valid : ∀ i, s.KnownId lost i → (s.nodes i).key.Valid s.isKeyLarge s.currKey
  apart : ∀ i j, s.KnownId lost i → s.KnownId lost j → i ≠ j →
    (s.nodes i).key.Apart (s.nodes j).key

/-- A list of free nodes, linked through their left children. -/
def Chain (nodes : ℕ → Node) : ℕ → List ℕ → Prop
  | r, [] => r = 0
  | r, i :: l => r = i ∧ i ≠ 0 ∧ Chain nodes ((nodes i).lr false) l

/-- **Every known id is live, pending or free**, and only one of them. -/
structure Accounts (s : GrnPat) (t : Trie ℕ) (free : ℕ → List ℕ) (lost : Finset ℕ) : Prop where
  total : ∀ i, (i ∈ t.leaves ∨ Pending s.delinfos i ∨ ∃ n, i ∈ free n) ↔ s.KnownId lost i
  lost_le : ∀ i ∈ lost, 1 ≤ i ∧ i ≤ s.currRec
  currRec_le : s.currRec ≤ grnIdMax
  live_not_pending : ∀ i ∈ t.leaves, ¬ Pending s.delinfos i
  live_not_free : ∀ i ∈ t.leaves, ∀ n, i ∉ free n
  pending_not_free : ∀ i, Pending s.delinfos i → ∀ n, i ∉ free n
  free_nodup : ∀ n, (free n).Nodup
  free_disjoint : ∀ m n i, i ∈ free m → i ∈ free n → m = n
  chain : ∀ n, Chain s.nodes (s.garbages n) (free n)
  size : ∀ n, ∀ i ∈ free n, (s.nodes i).key.storageSize = n
  entries : s.nEntries = t.leaves.card
  count : s.nEntries + s.nGarbages + lost.card = s.currRec

/-- The cache only knows live records, each in the place of its key. -/
def CacheOk (s : GrnPat) (t : Trie ℕ) : Prop :=
  s.cacheSize ≠ 0 → ∀ h, s.cache h ≠ 0 →
    s.cache h ∈ t.leaves ∧ grnPatCacheComputeId s.cacheSize (s.keyOf (s.cache h)) = h

/-- The code words of the records. -/
def GrnPat.words (s : GrnPat) (i : ℕ) : Word := word (s.keyOf i)

/-- **The invariant**, for a tree, its owners, its lists of free nodes and the ids that a
defragmentation has lost. -/
structure Inv (s : GrnPat) (t : Trie ℕ) (own : ℕ → ℕ) (free : ℕ → List ℕ) (lost : Finset ℕ) :
    Prop where
  rooted : Rooted s.nodes s.words t own
  ring : Ring s
  slots : Slots s.nodes s.delinfos t own
  keys : Keys s lost
  accounts : Accounts s t free lost
  cache : CacheOk s t

/-! ## Ids of the tree -/

namespace Inv

variable {s : GrnPat} {t : Trie ℕ} {own : ℕ → ℕ} {free : ℕ → List ℕ} {lost : Finset ℕ} {j : ℕ}

/-- A node of the tree is live, or its deletion is pending. -/
theorem live_or_pending (h : Inv s t own free lost) (hj : j ∈ t.ids) :
    j ∈ t.leaves ∨ Pending s.delinfos j := by
  by_cases hlive : j ∈ t.leaves
  · exact .inl hlive
  · have hin := (mem_ids.mp hj).resolve_right hlive
    obtain ⟨n, hn, hd⟩ := h.slots.dead j hin hlive
    exact .inr ⟨n, by rw [hn]; exact Stat.noConfusion, hd⟩

theorem known (h : Inv s t own free lost) (hj : j ∈ t.ids) : s.KnownId lost j :=
  (h.accounts.total j).mp ((h.live_or_pending hj).imp_right .inl)

theorem range (h : Inv s t own free lost) (hj : j ∈ t.ids) : 1 ≤ j ∧ j ≤ s.currRec :=
  ⟨(h.known hj).1, (h.known hj).2.1⟩

theorem not_mem_ids_of_free (h : Inv s t own free lost) {n : ℕ} (hj : j ∈ free n) : j ∉ t.ids := by
  intro hids
  rcases h.live_or_pending hids with hlive | hpending
  · exact h.accounts.live_not_free j hlive n hj
  · exact h.accounts.pending_not_free j hpending n hj

end Inv

/-! ## Frame rules -/

section Frame

variable {s s' : GrnPat} {t t' : Trie ℕ} {own : ℕ → ℕ} {free : ℕ → List ℕ} {lost : Finset ℕ} {i j : ℕ}
  {key : List UInt8}

/-- Slots may become empty or leave the first phase. -/
theorem Ring.mono (h : Ring s) (hring : s'.currDel = s.currDel ∧ s'.currDel2 = s.currDel2 ∧
    s'.currDel3 = s.currDel3)
    (hused : ∀ n, (s'.delinfos n).stat ≠ .empty → (s.delinfos n).stat ≠ .empty)
    (hphase1 : ∀ n, (s'.delinfos n).stat = .phase1 → (s.delinfos n).stat = .phase1) : Ring s' := by
  obtain ⟨h1, h2, h3⟩ := hring
  refine
    { del_lt := by rw [h1]; exact h.del_lt
      del2_lt := by rw [h2]; exact h.del2_lt
      del3_lt := by rw [h3]; exact h.del3_lt
      half := by rw [h1, h2]; exact h.half
      order := by rw [h1, h2, h3]; exact h.order
      lt := fun n hn => h.lt n (hused n hn)
      used := fun n hn => by rw [h1, h3]; exact h.used n (hused n hn)
      phase1 := fun n hn => by rw [h1, h2]; exact h.phase1 n (hphase1 n hn) }

theorem Ring.congr (h : Ring s) (hring : s'.currDel = s.currDel ∧ s'.currDel2 = s.currDel2 ∧
    s'.currDel3 = s.currDel3) (hdelinfos : s'.delinfos = s.delinfos) : Ring s' :=
  h.mono hring (fun _ hn => hdelinfos ▸ hn) fun _ hn => hdelinfos ▸ hn

/-- The lists of free nodes only depend on the links in them. -/
theorem Chain.congr {nodes nodes' : ℕ → Node} {r : ℕ} {l : List ℕ} (h : Chain nodes r l)
    (hlr : ∀ i ∈ l, (nodes' i).lr false = (nodes i).lr false) : Chain nodes' r l := by
  induction l generalizing r with
  | nil => exact h
  | cons i l ih =>
    obtain ⟨hr, hi, hl⟩ := h
    refine ⟨hr, hi, ?_⟩
    rw [hlr i (List.mem_cons_self ..)]
    exact ih hl fun j hj => hlr j (List.mem_cons_of_mem _ hj)

/-- No key and nothing about the ids in use has changed. -/
structure SameKeys (s s' : GrnPat) : Prop where
  isKeyLarge : s'.isKeyLarge = s.isKeyLarge
  keys : s'.keys = s.keys
  currRec : s'.currRec = s.currRec
  currKey : s'.currKey = s.currKey
  cacheSize : s'.cacheSize = s.cacheSize
  cache : s'.cache = s.cache
  key : ∀ j, (s'.nodes j).key = (s.nodes j).key

theorem SameKeys.keyOf_eq (h : SameKeys s s') : s'.keyOf = s.keyOf :=
  funext fun j => keyOf_congr (h.key j) h.keys

theorem SameKeys.words_eq (h : SameKeys s s') : s'.words = s.words := by
  funext j
  rw [GrnPat.words, GrnPat.words, h.keyOf_eq]

theorem SameKeys.trans {s'' : GrnPat} (h : SameKeys s s') (h' : SameKeys s' s'') : SameKeys s s'' where
  isKeyLarge := h'.isKeyLarge.trans h.isKeyLarge
  keys := h'.keys.trans h.keys
  currRec := h'.currRec.trans h.currRec
  currKey := h'.currKey.trans h.currKey
  cacheSize := h'.cacheSize.trans h.cacheSize
  cache := h'.cache.trans h.cache
  key := fun j => (h'.key j).trans (h.key j)

theorem SameKeys.knownId_iff (h : SameKeys s s') : s'.KnownId lost i ↔ s.KnownId lost i := by
  rw [GrnPat.KnownId, h.currRec, GrnPat.KnownId]

theorem Keys.congr (h : Keys s lost) (hsame : SameKeys s s') : Keys s' lost := by
  constructor
  · intro i hi
    rw [hsame.isKeyLarge, hsame.currKey, hsame.key]
    exact h.valid i (hsame.knownId_iff.mp hi)
  · intro i j hi hj
    rw [hsame.key, hsame.key]
    exact h.apart i j (hsame.knownId_iff.mp hi) (hsame.knownId_iff.mp hj)

theorem CacheOk.congr (h : CacheOk s t) (hsame : SameKeys s s')
    (hleaves : ∀ n, s.cache n ∈ t.leaves → s.cache n ∈ t'.leaves) : CacheOk s' t' := by
  intro hsize a ha
  rw [hsame.cacheSize] at hsize ⊢
  rw [hsame.cache] at ha ⊢
  obtain ⟨hl, hid⟩ := h hsize a ha
  rw [hsame.keyOf_eq]
  exact ⟨hleaves a hl, hid⟩

/-- The same ids are live, pending and free. -/
theorem Accounts.congr (h : Accounts s t free lost) (hsame : SameKeys s s') (hleaves : t'.leaves = t.leaves)
    (hpending : ∀ i, Pending s'.delinfos i ↔ Pending s.delinfos i)
    (hlr : ∀ n, ∀ i ∈ free n, (s'.nodes i).lr false = (s.nodes i).lr false)
    (hgarbages : s'.garbages = s.garbages)
    (hcounters : s'.nEntries = s.nEntries ∧ s'.nGarbages = s.nGarbages) : Accounts s' t' free lost where
  total := fun i => by rw [hleaves, hpending, hsame.knownId_iff, h.total]
  lost_le := fun i hi => by rw [hsame.currRec]; exact h.lost_le i hi
  currRec_le := by rw [hsame.currRec]; exact h.currRec_le
  live_not_pending := fun i hi => by
    rw [hpending]
    exact h.live_not_pending i (hleaves ▸ hi)
  live_not_free := fun i hi => h.live_not_free i (hleaves ▸ hi)
  pending_not_free := fun i hi => h.pending_not_free i ((hpending i).mp hi)
  free_nodup := h.free_nodup
  free_disjoint := h.free_disjoint
  chain := fun n => by
    rw [hgarbages]
    exact (h.chain n).congr (hlr n)
  size := fun n i hi => by
    rw [hsame.key]
    exact h.size n i hi
  entries := by rw [hcounters.1, hleaves, h.entries]
  count := by rw [hcounters.1, hcounters.2, hsame.currRec, h.count]

/-- The cache may get a live record or nothing. -/
theorem Inv.setCache (h : Inv s t own free lost) (hi : i = 0 ∨ i ∈ t.leaves ∧ s.keyOf i = key) :
    Inv (s.setCache key i) t own free lost := by
  obtain ⟨hrooted, hring, hslots, hkeys, haccounts, hcache⟩ := h
  unfold GrnPat.setCache
  split_ifs with hsize
  · exact ⟨hrooted, hring, hslots, hkeys, haccounts, hcache⟩
  · refine ⟨hrooted, hring.congr ⟨rfl, rfl, rfl⟩ rfl, hslots, ⟨hkeys.valid, hkeys.apart⟩,
      { haccounts with }, fun _ a ha => ?_⟩
    simp only at ha ⊢
    by_cases hak : a = grnPatCacheComputeId s.cacheSize key
    · rw [hak, Function.update_self] at ha ⊢
      obtain ⟨hlive, hkey⟩ := hi.resolve_left ha
      exact ⟨hlive, congrArg (grnPatCacheComputeId s.cacheSize) hkey⟩
    · rw [Function.update_of_ne hak] at ha ⊢
      exact hcache hsize a ha

end Frame

/-! ## The empty table -/

theorem inv_grnPatCreate (isKeyLarge : Bool) (cacheSize : ℕ) :
    Inv (grnPatCreate isKeyLarge cacheSize) .nil id (fun _ => []) ∅ where
  rooted :=
    { linked := rfl
      wf := trivial
      inner_nodup := Multiset.nodup_zero
      leaves_nodup := Multiset.nodup_zero
      owned := trivial
      own_inj := fun _ hi => absurd hi (Multiset.notMem_zero _)
      own_self := fun _ hi => absurd hi (Multiset.notMem_zero _)
      disabled := fun _ hi => absurd hi (Multiset.notMem_zero _)
      enabled := fun _ hi => absurd hi (Multiset.notMem_zero _) }
  ring :=
    { del_lt := by simp [grnPatCreate]
      del2_lt := by simp [grnPatCreate]
      del3_lt := by simp [grnPatCreate]
      half := by simp [grnPatCreate]
      order := by simp [grnPatCreate]
      lt := fun _ h => absurd rfl h
      used := fun _ h => absurd rfl h
      phase1 := fun _ h => by cases h }
  slots :=
    { phase1 := fun _ h => by cases h
      dead := fun _ hi => absurd hi (Multiset.notMem_zero _)
      phase2 := fun _ h => by cases h
      d_inj := fun _ _ h => absurd rfl h
      deleting := fun _ hi => absurd hi not_mem_ids_nil }
  keys :=
    { valid := fun i hi => absurd (hi.1.trans hi.2.1) (by simp [grnPatCreate])
      apart := fun i _ hi => absurd (hi.1.trans hi.2.1) (by simp [grnPatCreate]) }
  accounts :=
    { total := by
        intro i
        have hpending : ¬ Pending (grnPatCreate isKeyLarge cacheSize).delinfos i := by
          rintro ⟨n, hn, -⟩
          exact hn rfl
        have hknown : ¬ (grnPatCreate isKeyLarge cacheSize).KnownId ∅ i := fun h =>
          absurd (h.1.trans h.2.1) (by simp [grnPatCreate])
        simp only [leaves_nil, Multiset.notMem_zero, hpending, List.not_mem_nil, exists_false,
          or_self, hknown]
      lost_le := fun _ hi => absurd hi (Finset.notMem_empty _)
      currRec_le := Nat.zero_le _
      live_not_pending := fun _ hi => absurd hi (Multiset.notMem_zero _)
      live_not_free := fun _ hi => absurd hi (Multiset.notMem_zero _)
      pending_not_free := fun _ _ _ => List.not_mem_nil
      free_nodup := fun _ => List.nodup_nil
      free_disjoint := fun _ _ _ hi => absurd hi List.not_mem_nil
      chain := fun _ => rfl
      size := fun _ _ hi => absurd hi List.not_mem_nil
      entries := rfl
      count := rfl }
  cache := fun _ _ h => absurd rfl h

end Groonga.Pat
