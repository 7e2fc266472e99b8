import Groonga.Hash.Moves
import Groonga.Hash.Keys

/-!
# Additions

An addition takes the first id of the list of deleted entries for the size of the key, or the next
one, writes it into the slot that the loop found, and puts the key. The other entries keep their
ids, keys and values.
-/

namespace Groonga.Hash

open Lib

variable {g : Config} {s s₁ s' : GrnHash} {id i k : ℕ} {key : List UInt8} {lists : ℕ → List ℕ}

/-! ## The log -/

theorem log_same (g : Config) (s : GrnHash) (e : WalEntry) : ∃ w, s.log g e = { s with wal := w } := by
  rw [GrnHash.log]
  split_ifs
  · exact ⟨_, rfl⟩
  · exact ⟨s.wal, rfl⟩

/-- The invariant says nothing about the log. -/
theorem Inv.of_wal {w : List WalEntry} (hI : Inv g s) : Inv g { s with wal := w } where
  table := ⟨hI.table.sized, hI.table.offset, hI.table.holds, hI.table.entries, hI.table.tombs, hI.table.nil,
    hI.table.live⟩
  lists := hI.lists.imp fun _ hL => ⟨hL.chain, hL.nodup, hL.apart, hL.free, hL.size, hL.total⟩
  areas := ⟨hI.areas.fresh, hI.areas.le, hI.areas.immediate, hI.areas.below, hI.areas.apart⟩
  keys := ⟨hI.keys.ids, hI.keys.length, hI.keys.accepts, hI.keys.word, hI.keys.inj⟩
  currRec_le := hI.currRec_le

/-! ## Lists of deleted entries -/

/-- The lists depend on their own entries. -/
theorem ListsInv.congr (hL : ListsInv g s lists) (hgarbages : s'.garbages = s.garbages)
    (hcurr : s'.currRec = s.currRec) (hbitmap : s'.bitmap = s.bitmap) (hn : s'.nEntries = s.nEntries)
    (hentries : ∀ id, s.bitmap id = false → (s'.entries id).word = (s.entries id).word ∧
      (s'.entries id).keySize = (s.entries id).keySize) : ListsInv g s' lists where
  chain k := by
    rw [hgarbages]
    exact (hL.chain k).congr fun x hx => (hentries x (hL.free k x hx).2.2).1
  nodup := hL.nodup
  apart := hL.apart
  free k x hx := by
    rw [hcurr, hbitmap]
    exact hL.free k x hx
  size hio hvar k x hx := by
    rw [(hentries x (hL.free k x hx).2.2).2]
    exact hL.size hio hvar k x hx
  total hio := by
    rw [hcurr, hn]
    exact hL.total hio

/-- **A new id** is in no list. -/
theorem ListsInv.grow (hL : ListsInv g s lists) (hgarbages : s'.garbages = s.garbages)
    (hcurr : s'.currRec = s.currRec + 1)
    (hbitmap : s'.bitmap = Function.update s.bitmap (s.currRec + 1) true)
    (hn : s'.nEntries = s.nEntries + 1)
    (hentries : ∀ id, id ≠ s.currRec + 1 → s'.entries id = s.entries id) : ListsInv g s' lists := by
  have hne : ∀ k, ∀ x ∈ lists k, x ≠ s.currRec + 1 := fun k x hx => by
    have := (hL.free k x hx).2.1
    omega
  refine ⟨fun k => ?_, hL.nodup, hL.apart, fun k x hx => ?_, fun hio hvar k x hx => ?_, fun hio => ?_⟩
  · rw [hgarbages]
    exact (hL.chain k).congr fun x hx => by rw [hentries x (hne k x hx)]
  · obtain ⟨hpos, hle, hdead⟩ := hL.free k x hx
    rw [hcurr, hbitmap, Function.update_of_ne (hne k x hx)]
    exact ⟨hpos, by omega, hdead⟩
  · rw [hentries x (hne k x hx)]
    exact hL.size hio hvar k x hx
  · have := hL.total hio
    omega

/-- **The first id of a list is taken.** -/
theorem ListsInv.pop (hL : ListsInv g s lists) {k : ℕ} (hid : s.garbages k = id) (hne : id ≠ 0)
    (hsole : g.io = false → k = 0)
    (hgarbages : s'.garbages = Function.update s.garbages k (s.entries id).word)
    (hcurr : s'.currRec = s.currRec) (hbitmap : s'.bitmap = Function.update s.bitmap id true)
    (hn : s'.nEntries = s.nEntries + 1)
    (hentries : ∀ id', id' ≠ id → s'.entries id' = s.entries id') :
    id ∈ lists k ∧ ∃ lists', ListsInv g s' lists' := by
  obtain ⟨tail, htail, hrest⟩ := (hL.chain k).pop (by rw [hid]; exact hne)
  rw [hid] at htail hrest
  have hmem : id ∈ lists k := by
    rw [htail]
    exact List.mem_cons_self
  have hnodup := hL.nodup k
  rw [htail, List.nodup_cons] at hnodup
  have hsub : ∀ k', ∀ x ∈ Function.update lists k tail k', x ∈ lists k' ∧ x ≠ id := fun k' x hx => by
    by_cases heq : k' = k
    · subst heq
      rw [Function.update_self] at hx
      refine ⟨by rw [htail]; exact List.mem_cons_of_mem _ hx, ?_⟩
      rintro rfl
      exact hnodup.1 hx
    · rw [Function.update_of_ne heq] at hx
      refine ⟨hx, ?_⟩
      rintro rfl
      exact heq (hL.apart k _ hmem k' hx)
  refine ⟨hmem, Function.update lists k tail, fun k' => ?_, fun k' => ?_, fun k₁ x hx k₂ hx₂ => ?_,
    fun k' x hx => ?_, fun hio hvar k' x hx => ?_, fun hio => ?_⟩
  · rw [hgarbages]
    by_cases heq : k' = k
    · subst heq
      rw [Function.update_self]
      have hsame : ∀ x ∈ tail, (s'.entries x).word = (s.entries x).word := fun x hx => by
        rw [hentries x (by rintro rfl; exact hnodup.1 hx)]
      rw [Function.update_self]
      exact hrest.congr hsame
    · rw [Function.update_of_ne heq, Function.update_of_ne heq]
      refine (hL.chain k').congr fun x hx => ?_
      rw [hentries x (by rintro rfl; exact heq (hL.apart k _ hmem k' hx))]
  · by_cases heq : k' = k
    · subst heq
      rw [Function.update_self]
      exact hnodup.2
    · rw [Function.update_of_ne heq]
      exact hL.nodup k'
  · exact hL.apart k₁ x (hsub k₁ x hx).1 k₂ (hsub k₂ x hx₂).1
  · obtain ⟨hx', hxne⟩ := hsub k' x hx
    rw [hcurr, hbitmap, Function.update_of_ne hxne]
    exact hL.free k' x hx'
  · obtain ⟨hx', hxne⟩ := hsub k' x hx
    rw [hentries x hxne]
    exact hL.size hio hvar k' x hx'
  · obtain rfl := hsole hio
    have htotal := hL.total hio
    rw [htail, List.length_cons] at htotal
    rw [Function.update_self, hcurr, hn]
    omega

/-! ## Places of keys -/

/-- Entries may be cleared. -/
theorem AreaInv.clear (hA : AreaInv g s) (hcurr : s.currRec ≤ s'.currRec) (hkey : s'.currKey = s.currKey)
    (hentries : ∀ id, ((s'.entries id).key = (s.entries id).key ∧ (s'.entries id).flag = (s.entries id).flag ∧
      (s'.entries id).keySize = (s.entries id).keySize) ∨ (s'.entries id).keySize = 0)
    (hfresh : ∀ id, s'.currRec < id → s'.entries id = s.entries id) : AreaInv g s' := by
  refine ⟨fun id hid => ?_, ?_, fun hvar id hpos => ?_, fun hio hvar id hbig => ?_,
    fun hio hvar id id' hne hbig hbig' => ?_⟩
  · rw [hfresh id hid]
    exact hA.fresh id (by omega)
  · rw [hkey]
    exact hA.le
  · rcases hentries id with ⟨-, hflag, hsize⟩ | hzero
    · rw [hsize] at hpos ⊢
      rw [Entry.isImmediate, hflag]
      exact hA.immediate hvar id hpos
    · omega
  · rcases hentries id with ⟨hbytes, -, hsize⟩ | hzero
    · rw [hsize] at hbig ⊢
      rw [Entry.keyOffset, hbytes, hkey]
      exact hA.below hio hvar id hbig
    · omega
  · rcases hentries id with ⟨hbytes, -, hsize⟩ | hzero
    · rcases hentries id' with ⟨hbytes', -, hsize'⟩ | hzero'
      · rw [hsize] at hbig ⊢
        rw [hsize'] at hbig' ⊢
        rw [Entry.keyOffset, Entry.keyOffset, hbytes, hbytes']
        exact hA.apart hio hvar id id' hne hbig hbig'
      · omega
    · omega

/-! ## The result of an addition -/

/-- **An id was added for a key.** -/
structure Added (g : Config) (s s' : GrnHash) (key : List UInt8) (id : ℕ) : Prop where
  inv : Inv g s'
  dead : s.bitmap id = false
  bitmap : s'.bitmap = Function.update s.bitmap id true
  getKey : s'.getKey g id = key
  keep : ∀ id', id' ≠ id → s'.getKey g id' = s.getKey g id'
  value : (s'.entries id).value = fun _ => 0
  values : ∀ id', id' ≠ id → (s'.entries id').value = (s.entries id').value
  nEntries : s'.nEntries = s.nEntries + 1

/-- The id is in its slot, and its entry is ready for a key. -/
structure Taken (g : Config) (s s₁ : GrnHash) (id i : ℕ) (found : Bool) : Prop where
  pos : 0 < id
  dead : s.bitmap id = false
  index : s₁.index = Function.update s.index (s.idxPos i) id
  maxOffset : s₁.maxOffset = s.maxOffset
  idxOffset : s₁.idxOffset = s.idxOffset
  bitmap : s₁.bitmap = Function.update s.bitmap id true
  nEntries : s₁.nEntries = s.nEntries + 1
  nGarbages : (if found then s.nGarbages - 1 else s.nGarbages) ≤ s₁.nGarbages
  keys : s₁.keys = s.keys
  others : ∀ id', id' ≠ id → s₁.entries id' = s.entries id'
  value : (s₁.entries id).value = fun _ => 0
  currRec : s.currRec ≤ s₁.currRec
  id_le : id ≤ s₁.currRec
  currRec_le : s₁.currRec ≤ idMax
  lists : ∃ lists, ListsInv g s₁ lists
  areas : AreaInv g s₁

/-- **The key of the new entry is put.** -/
theorem Taken.finish {found : Bool} (ht : Taken g s s₁ id i found) (hI : Inv g s) (haccepts : g.Accepts key)
    (hfresh : ∀ id', s.bitmap id' = true → s.getKey g id' ≠ key)
    (hprobes : s.Probes (g.hashValue key) (calculateStep (g.hashValue key)) k i)
    (hcontent : s.contentAt g key k = if found then garbage else 0)
    (hbefore : ∀ l < k, s.contentAt g key l ≠ 0)
    (hroom : found = true ∨ s.nEntries + s.slots.count (· == garbage) < s.maxOffset)
    (hput : KeyPut g s₁ s' id key) : Added g s s' key id := by
  have hlive : ∀ id', s.bitmap id' = true → id' ≠ id := by
    rintro id' hlive rfl
    rw [ht.dead] at hlive
    cases hlive
  have hsame := hput.same
  have hbitmap : s'.bitmap = Function.update s.bitmap id true := by
    rw [hsame]
    exact ht.bitmap
  have hkeep : ∀ id', id' ≠ id → s'.getKey g id' = s.getKey g id' := fun id' hne => by
    rw [hput.keep id' hne, GrnHash.getKey, GrnHash.getKey, ht.others id' hne, GrnHash.keyBytes,
      GrnHash.keyBytes, ht.keys]
  have hothers : ∀ id', id' ≠ id → s'.entries id' = s.entries id' := fun id' hne =>
    (hput.others id' hne).trans (ht.others id' hne)
  have hcases : ∀ id', s'.bitmap id' = true → id' = id ∨ (id' ≠ id ∧ s.bitmap id' = true) := fun id' h => by
    rw [hbitmap] at h
    by_cases heq : id' = id
    · exact .inl heq
    · rw [Function.update_of_ne heq] at h
      exact .inr ⟨heq, h⟩
  have hgetSize : (s'.entries id).getKeySize g = key.length := by
    rw [Entry.getKeySize]
    split_ifs with hvar
    · exact hput.keySize hvar
    · have := haccepts.2
      rw [Config.Fits, if_neg hvar] at this
      exact this.symm
  have hle := ht.currRec_le
  have hidLe := ht.id_le
  rw [idMax] at hle
  refine ⟨⟨?_, ?_, hput.areas, ?_, ?_⟩, ht.dead, hbitmap, hput.getKey, hkeep, ?_, fun id' hne => ?_, ?_⟩
  · refine hI.table.fill hprobes hcontent hbefore hroom (isEntry_of_le ht.pos (by omega)) ht.dead
      ?_ ?_ ?_ hbitmap ?_ ?_ hput.word fun id' hlive' => by rw [hothers id' (hlive id' hlive')]
    · rw [hsame]
      exact ht.index
    · rw [hsame]
      exact ht.maxOffset
    · rw [hsame]
      exact ht.idxOffset
    · rw [hsame]
      exact ht.nEntries
    · rw [hsame]
      exact ht.nGarbages
  · obtain ⟨lists, hL⟩ := ht.lists
    refine ⟨lists, hL.congr (by rw [hsame]) (by rw [hsame]) (by rw [hsame]) (by rw [hsame]) fun id' hdead => ?_⟩
    have hne : id' ≠ id := by
      rintro rfl
      rw [ht.bitmap, Function.update_self] at hdead
      cases hdead
    rw [hput.others id' hne]
    exact ⟨rfl, rfl⟩
  · refine ⟨fun id' h => ?_, fun id' h => ?_, fun id' h => ?_, fun id' h => ?_, fun id₁ id₂ h₁ h₂ heq => ?_⟩
    · have hcurr : s'.currRec = s₁.currRec := by rw [hsame]
      rw [hcurr]
      rcases hcases id' h with rfl | ⟨-, hlive'⟩
      · exact ⟨ht.pos, ht.id_le⟩
      · obtain ⟨hpos, hle'⟩ := hI.keys.ids id' hlive'
        exact ⟨hpos, Nat.le_trans hle' ht.currRec⟩
    · rcases hcases id' h with rfl | ⟨hne, hlive'⟩
      · rw [hput.getKey, hgetSize]
      · rw [hkeep id' hne, hothers id' hne]
        exact hI.keys.length id' hlive'
    · rcases hcases id' h with rfl | ⟨hne, hlive'⟩
      · rw [hput.getKey]
        exact haccepts
      · rw [hkeep id' hne]
        exact hI.keys.accepts id' hlive'
    · rcases hcases id' h with rfl | ⟨hne, hlive'⟩
      · rw [hput.getKey]
        exact hput.word
      · rw [hkeep id' hne, hothers id' hne]
        exact hI.keys.word id' hlive'
    · rcases hcases id₁ h₁ with rfl | ⟨hne₁, hlive₁⟩
      · rcases hcases id₂ h₂ with rfl | ⟨hne₂, hlive₂⟩
        · rfl
        · rw [hput.getKey, hkeep id₂ hne₂] at heq
          exact absurd heq.symm (hfresh id₂ hlive₂)
      · rcases hcases id₂ h₂ with rfl | ⟨hne₂, hlive₂⟩
        · rw [hput.getKey, hkeep id₁ hne₁] at heq
          exact absurd heq (hfresh id₁ hlive₁)
        · rw [hkeep id₁ hne₁, hkeep id₂ hne₂] at heq
          exact hI.keys.inj id₁ id₂ hlive₁ hlive₂ heq
  · rw [hsame]
    exact ht.currRec_le
  · rw [hput.value]
    exact ht.value
  · rw [hothers id' hne]
  · rw [hsame]
    exact ht.nEntries

/-! ## Taking an id -/

/-- **The next id** is taken. -/
theorem taken_new (hI : Inv g s) (hle : s.currRec + 1 ≤ idMax) {found : Bool}
    (hindex : s₁.index = Function.update s.index (s.idxPos i) (s.currRec + 1))
    (hmax : s₁.maxOffset = s.maxOffset) (hoffset : s₁.idxOffset = s.idxOffset)
    (hbitmap : s₁.bitmap = Function.update s.bitmap (s.currRec + 1) true)
    (hn : s₁.nEntries = s.nEntries + 1)
    (hgarbages : (if found then s.nGarbages - 1 else s.nGarbages) ≤ s₁.nGarbages)
    (hkeys : s₁.keys = s.keys) (hlists : s₁.garbages = s.garbages) (hcurr : s₁.currRec = s.currRec + 1)
    (hkey : s₁.currKey = s.currKey) (hentries : s₁.entries = s.entries) :
    Taken g s s₁ (s.currRec + 1) i found where
  pos := Nat.succ_pos _
  dead := by
    cases hlive : s.bitmap (s.currRec + 1) with
    | false => rfl
    | true => exact absurd (hI.keys.ids _ hlive).2 (by omega)
  index := hindex
  maxOffset := hmax
  idxOffset := hoffset
  bitmap := hbitmap
  nEntries := hn
  nGarbages := hgarbages
  keys := hkeys
  others id' _ := by rw [hentries]
  value := by
    rw [hentries, hI.areas.fresh _ (Nat.lt_succ_self _)]
    rfl
  currRec := by omega
  id_le := by omega
  currRec_le := by omega
  lists := by
    obtain ⟨lists, hL⟩ := hI.lists
    exact ⟨lists, hL.grow hlists hcurr hbitmap hn fun id' _ => by rw [hentries]⟩
  areas := hI.areas.clear (by omega) hkey (fun id' => .inl (by rw [hentries]; exact ⟨rfl, rfl, rfl⟩))
    fun id' _ => by rw [hentries]

/-- **The first deleted entry** for the size of the key is taken. -/
theorem taken_reuse (hI : Inv g s) {c : ℕ} (hid : s.garbages c = id) (hne : id ≠ 0)
    (hsole : g.io = false → c = 0) {found : Bool}
    (hindex : s₁.index = Function.update s.index (s.idxPos i) id)
    (hmax : s₁.maxOffset = s.maxOffset) (hoffset : s₁.idxOffset = s.idxOffset)
    (hbitmap : s₁.bitmap = Function.update s.bitmap id true)
    (hn : s₁.nEntries = s.nEntries + 1)
    (hgarbages : (if found then s.nGarbages - 1 else s.nGarbages) ≤ s₁.nGarbages)
    (hkeys : s₁.keys = s.keys)
    (hlists : s₁.garbages = Function.update s.garbages c (s.entries id).word)
    (hcurr : s₁.currRec = s.currRec) (hkey : s₁.currKey = s.currKey)
    (hothers : ∀ id', id' ≠ id → s₁.entries id' = s.entries id')
    (hvalue : (s₁.entries id).value = fun _ => 0)
    (hentry : ((s₁.entries id).key = (s.entries id).key ∧ (s₁.entries id).flag = (s.entries id).flag ∧
      (s₁.entries id).keySize = (s.entries id).keySize) ∨ (s₁.entries id).keySize = 0) :
    Taken g s s₁ id i found := by
  obtain ⟨lists, hL⟩ := hI.lists
  obtain ⟨hmem, hlists'⟩ := hL.pop hid hne hsole hlists hcurr hbitmap hn hothers
  obtain ⟨hpos, hle, hdead⟩ := hL.free c id hmem
  exact {
    pos := hpos
    dead := hdead
    index := hindex
    maxOffset := hmax
    idxOffset := hoffset
    bitmap := hbitmap
    nEntries := hn
    nGarbages := hgarbages
    keys := hkeys
    others := hothers
    value := hvalue
    currRec := by omega
    id_le := by omega
    currRec_le := by
      rw [hcurr]
      exact hI.currRec_le
    lists := hlists'
    areas := hI.areas.clear (by omega) hkey (fun id' => by
      by_cases heq : id' = id
      · rw [heq]
        exact hentry
      · rw [hothers id' heq]
        exact .inl ⟨rfl, rfl, rfl⟩) fun id' hlt => hothers id' (by omega) }

/-! ## Conditions -/

/-- There is a slot for the key: the key has one, the loop comes to a slot that was left, or at least
two slots are nil. -/
def GrnHash.SlotRoom (g : Config) (s : GrnHash) (key : List UInt8) : Prop :=
  (∃ id, s.bitmap id = true ∧ s.getKey g id = key) ∨
  (∃ k, s.contentAt g key k = garbage ∧ ∀ l < k, s.contentAt g key l ≠ 0) ∨
  s.nEntries + s.slots.count (· == garbage) < s.maxOffset

/-- There is a place for a new key: the entry holds it, an entry for keys of its size was deleted, or the
rest of the key area suffices. -/
def GrnHash.PlaceRoom (g : Config) (s : GrnHash) (key : List UInt8) : Prop :=
  (∀ id, s.bitmap id = true → s.getKey g id ≠ key) → g.io = true → g.varSize = true → g.bufSize < key.length →
    s.garbages (g.garbageIndex key.length) ≠ 0 ∨ key.length ≤ g.maxTotalKeySize - s.currKey

/-- A new entry has no key yet. -/
theorem ready_new (hI : Inv g s) (hentries : s₁.entries = s.entries) (hkey : s₁.currKey = s.currKey)
    (hfresh : ∀ id', s.bitmap id' = true → s.getKey g id' ≠ key)
    (hnone : s.garbages (g.garbageIndex key.length) = 0) (hplace : s.PlaceRoom g key) :
    (s₁.entries (s.currRec + 1)).keySize = 0 ∧
      s₁.KeyRoom g (s₁.entries (s.currRec + 1)).keySize key := by
  rw [hentries, hI.areas.fresh _ (Nat.lt_succ_self _)]
  refine ⟨rfl, fun hio hvar hlong => .inr ?_⟩
  rw [hkey]
  exact (hplace hfresh hio hvar hlong).resolve_left (absurd hnone)

/-- The end of `grn_io_hash_add` when the key is put. -/
theorem ioHashFinish_eq {hashValue : ℕ}
    (hput : ∀ w, ∃ s', entryPutKey g (ioHashEnableEntry { s with wal := w } id) id hashValue key = some s' ∧
      KeyPut g (ioHashEnableEntry { s with wal := w } id) s' id key) :
    ∃ w s', ioHashFinish g s id hashValue key = (id, s') ∧
      KeyPut g (ioHashEnableEntry { s with wal := w } id) s' id key := by
  rw [ioHashFinish]
  obtain ⟨w₁, hw₁⟩ := log_same g s (.enableEntry id)
  rw [hw₁]
  obtain ⟨w₂, hw₂⟩ := log_same g { s with wal := w₁ } (.setEntryKey id key hashValue s.currKey)
  have hlog : ({ s with wal := w₁ } : GrnHash).log g
      (.setEntryKey id key hashValue ({ s with wal := w₁ } : GrnHash).currKey) = { s with wal := w₂ } := hw₂
  simp only [hlog]
  obtain ⟨s', heq, hkey⟩ := hput w₂
  refine ⟨w₂, s', ?_, hkey⟩
  rw [heq]

/-! ## `grn_io_hash_add` and `grn_tiny_hash_add` -/

variable {found : Bool}

/-- The deleted entry for the size of a key had a key of this size. -/
theorem Inv.keySize_garbage (hI : Inv g s) (hio : g.io = true) (haccepts : g.Accepts key)
    (hne : s.garbages (g.garbageIndex key.length) ≠ 0) (hvar : g.varSize = true) :
    (s.entries (s.garbages (g.garbageIndex key.length))).keySize = key.length := by
  obtain ⟨lists, hL⟩ := hI.lists
  obtain ⟨tail, htail, -⟩ := (hL.chain (g.garbageIndex key.length)).pop hne
  have hsize := hL.size hio hvar (g.garbageIndex key.length)
    (s.garbages (g.garbageIndex key.length)) (by rw [htail]; exact List.mem_cons_self)
  have hpos := haccepts.pos
  rw [hsize, Config.garbageIndex, if_pos hio]
  omega

/-- **An addition to a hash with a file** fails only for want of ids. -/
theorem ioHashAdd_spec (hI : Inv g s) (hio : g.io = true) (haccepts : g.Accepts key)
    (hfresh : ∀ id', s.bitmap id' = true → s.getKey g id' ≠ key) (hplace : s.PlaceRoom g key)
    (hprobes : s.Probes (g.hashValue key) (calculateStep (g.hashValue key)) k i)
    (hcontent : s.contentAt g key k = if found then garbage else 0)
    (hbefore : ∀ l < k, s.contentAt g key l ≠ 0)
    (hroom : found = true ∨ s.nEntries + s.slots.count (· == garbage) < s.maxOffset) :
    (s.garbages (g.garbageIndex key.length) = 0 ∧ idMax < s.currRec + 1 ∧
      ∃ w, ioHashAdd g s (g.hashValue key) key i found = (0, { s with wal := w })) ∨
    (∃ id s', ioHashAdd g s (g.hashValue key) key i found = (id, s') ∧ Added g s s' key id) := by
  rw [ioHashAdd]
  by_cases hnone : s.garbages (g.garbageIndex key.length) = 0
  · rw [if_neg (not_not.mpr hnone)]
    obtain ⟨w, hw⟩ := log_same g s (.addEntry (s.currRec + 1) i s.nEntries)
    simp only [hw]
    by_cases hmax : idMax < s.currRec + 1
    · rw [if_pos hmax]
      exact .inl ⟨hnone, hmax, w, rfl⟩
    · rw [if_neg hmax]
      right
      have htaken : ∀ w', Taken g s (ioHashEnableEntry
          { ioHashAddEntry { s with wal := w } (s.currRec + 1) i with wal := w' } (s.currRec + 1))
          (s.currRec + 1) i found := fun w' =>
        taken_new hI (by omega) rfl rfl rfl rfl rfl (by
          show _ ≤ s.nGarbages
          split_ifs <;> omega) rfl rfl rfl rfl rfl
      obtain ⟨w', s', heq, hput⟩ := @ioHashFinish_eq g (ioHashAddEntry { s with wal := w } (s.currRec + 1) i)
        (s.currRec + 1) key (g.hashValue key) fun w' => by
          obtain ⟨hzero, hready⟩ := @ready_new g s (ioHashEnableEntry
            { ioHashAddEntry { s with wal := w } (s.currRec + 1) i with wal := w' } (s.currRec + 1)) key
            hI rfl rfl hfresh hnone hplace
          exact entryPutKey_spec (htaken w').areas (htaken w').id_le haccepts (fun _ _ => .inl hzero) hready
      exact ⟨_, s', heq, (htaken w').finish hI haccepts hfresh hprobes hcontent hbefore hroom hput⟩
  · rw [if_pos hnone]
    right
    obtain ⟨w, hw⟩ := log_same g s (.reuseEntry (s.garbages (g.garbageIndex key.length)) key.length i
      s.nGarbages s.nEntries found)
    simp only [hw]
    obtain ⟨w₂, hw₂⟩ := log_same g (ioHashReuseEntry { s with wal := w }
      (s.garbages (g.garbageIndex key.length)) i found) (.resetEntry
        (s.garbages (g.garbageIndex key.length)) key.length
        ((ioHashReuseEntry { s with wal := w } (s.garbages (g.garbageIndex key.length)) i found).entries
          (s.garbages (g.garbageIndex key.length))).word)
    simp only [hw₂]
    have htaken : ∀ w', Taken g s (ioHashEnableEntry
        { ioHashResetEntry g { ioHashReuseEntry { s with wal := w }
            (s.garbages (g.garbageIndex key.length)) i found with wal := w₂ }
          (s.garbages (g.garbageIndex key.length)) key.length
          (s.entries (s.garbages (g.garbageIndex key.length))).word with wal := w' }
        (s.garbages (g.garbageIndex key.length))) (s.garbages (g.garbageIndex key.length)) i found := fun w' => by
      have hsole : g.io = false → g.garbageIndex key.length = 0 := fun h => by rw [hio] at h; cases h
      cases hvar : g.varSize with
      | true =>
        rw [ioHashResetEntry, if_pos hvar]
        exact taken_reuse hI rfl hnone hsole rfl rfl rfl rfl rfl (Nat.le_refl _) rfl rfl rfl rfl
          (fun id' hne => setEntry_of_ne hne _) (congrArg Entry.value (setEntry_self _ _ _))
          (.inl ⟨(congrArg Entry.key (setEntry_self _ _ _)).trans rfl,
            (congrArg Entry.flag (setEntry_self _ _ _)).trans rfl,
            (congrArg Entry.keySize (setEntry_self _ _ _)).trans rfl⟩)
      | false =>
        rw [ioHashResetEntry, if_neg (by simp [hvar])]
        exact taken_reuse hI rfl hnone hsole rfl rfl rfl rfl rfl (Nat.le_refl _) rfl rfl rfl rfl
          (fun id' hne => setEntry_of_ne hne _) (congrArg Entry.value (setEntry_self _ _ _))
          (.inr (congrArg Entry.keySize (setEntry_self _ _ _)))
    have hkept := hI.keySize_garbage hio haccepts hnone
    obtain ⟨w', s', heq, hput⟩ := @ioHashFinish_eq g
      (ioHashResetEntry g { ioHashReuseEntry { s with wal := w }
          (s.garbages (g.garbageIndex key.length)) i found with wal := w₂ }
        (s.garbages (g.garbageIndex key.length)) key.length
        (s.entries (s.garbages (g.garbageIndex key.length))).word)
      (s.garbages (g.garbageIndex key.length)) key (g.hashValue key) fun w' => by
        have hsize : g.varSize = true → ((ioHashEnableEntry
            { ioHashResetEntry g { ioHashReuseEntry { s with wal := w }
                (s.garbages (g.garbageIndex key.length)) i found with wal := w₂ }
              (s.garbages (g.garbageIndex key.length)) key.length
              (s.entries (s.garbages (g.garbageIndex key.length))).word with wal := w' }
            (s.garbages (g.garbageIndex key.length))).entries
              (s.garbages (g.garbageIndex key.length))).keySize = key.length := fun hvar => by
          refine Eq.trans ?_ (hkept hvar)
          rw [ioHashResetEntry, if_pos hvar]
          exact (congrArg Entry.keySize (setEntry_self _ _ _)).trans rfl
        refine entryPutKey_spec (htaken w').areas (htaken w').id_le haccepts
          (fun _ hvar => .inr (hsize hvar)) fun _ hvar hlong => .inl ?_
        rw [hsize hvar]
        omega
    exact ⟨_, s', heq, (htaken w').finish hI haccepts hfresh hprobes hcontent hbefore hroom hput⟩

/-- **An addition to a hash without a file** does not fail. -/
theorem tinyHashAdd_spec (hI : Inv g s) (hio : g.io = false) (haccepts : g.Accepts key)
    (hfresh : ∀ id', s.bitmap id' = true → s.getKey g id' ≠ key)
    (hprobes : s.Probes (g.hashValue key) (calculateStep (g.hashValue key)) k i)
    (hcontent : s.contentAt g key k = if found then garbage else 0)
    (hbefore : ∀ l < k, s.contentAt g key l ≠ 0)
    (hroom : found = true ∨ s.nEntries + s.slots.count (· == garbage) < s.maxOffset) :
    ∃ id s', tinyHashAdd g s (g.hashValue key) key i found = (id, s') ∧ Added g s s' key id := by
  have hno : g.io = true → False := fun h => by rw [hio] at h; cases h
  rw [tinyHashAdd]
  by_cases hnone : s.garbages 0 = 0
  · rw [if_neg (not_not.mpr hnone), if_neg (not_not.mpr hnone)]
    have hlt := hI.currRec_lt hio hnone
    have htaken : Taken g s (ioHashEnableEntry (ioHashReuseEntry { s with currRec := s.currRec + 1 }
        (s.currRec + 1) i found) (s.currRec + 1)) (s.currRec + 1) i found :=
      taken_new hI (by omega) rfl rfl rfl rfl rfl (Nat.le_refl _) rfl rfl rfl rfl rfl
    obtain ⟨s', heq, hput⟩ := entryPutKey_spec htaken.areas htaken.id_le haccepts
      (fun h => (hno h).elim) (fun h => (hno h).elim)
    refine ⟨_, s', ?_, htaken.finish hI haccepts hfresh hprobes hcontent hbefore hroom hput⟩
    simp only [heq, Option.getD_some]
  · rw [if_pos hnone, if_pos hnone]
    have htaken : Taken g s (ioHashEnableEntry (ioHashReuseEntry
        ((s.setGarbages 0 (s.entries (s.garbages 0)).word).setEntry (s.garbages 0) Entry.zero)
        (s.garbages 0) i found) (s.garbages 0)) (s.garbages 0) i found :=
      taken_reuse hI rfl hnone (fun _ => rfl) rfl rfl rfl rfl rfl (Nat.le_refl _) rfl rfl rfl rfl
        (fun id' hne => setEntry_of_ne hne _) (congrArg Entry.value (setEntry_self _ _ _))
        (.inr (congrArg Entry.keySize (setEntry_self _ _ _)))
    obtain ⟨s', heq, hput⟩ := entryPutKey_spec htaken.areas htaken.id_le haccepts
      (fun h => (hno h).elim) (fun h => (hno h).elim)
    refine ⟨_, s', ?_, htaken.finish hI haccepts hfresh hprobes hcontent hbefore hroom hput⟩
    simp only [heq, Option.getD_some]

/-! ## `grn_hash_add_entry` -/

theorem Config.Accepts.fits (h : g.Accepts key) : g.Fits key := h.2

/-- **An addition**: the id of the key if it is there, and otherwise a new one, unless there are no
ids left. -/
theorem hashAddEntry_spec (hI : Inv g s) (haccepts : g.Accepts key) (hslot : s.SlotRoom g key)
    (hplace : s.PlaceRoom g key) :
    (∃ id, hashAddEntry g s key = (id, false, s) ∧ s.bitmap id = true ∧ s.getKey g id = key) ∨
    ((∀ id', s.bitmap id' = true → s.getKey g id' ≠ key) ∧
      ((s.garbages (g.garbageIndex key.length) = 0 ∧ idMax < s.currRec + 1 ∧
          ∃ w, hashAddEntry g s key = (0, false, { s with wal := w })) ∨
        ∃ id s', hashAddEntry g s key = (id, true, s') ∧ Added g s s' key id)) := by
  rw [hashAddEntry]
  rcases hI.table.sized.addLoop_spec hI.table.nil key with
    ⟨k, id, heq, hcontent, hzero, hgarbage, hmatch⟩ |
    ⟨k, i, found, heq, hprobes, hcontent, hbefore, hno, j, hfirst, hnil⟩
  · left
    have hlive := hI.table.bitmap_of_has (isEntry_iff.mpr ⟨hzero, hgarbage⟩)
      (hcontent ▸ hI.table.has_contentAt key k)
    refine ⟨id, ?_, hlive, (hI.keys.compareKey_iff hlive haccepts.fits).mp hmatch⟩
    simp only [heq]
  · right
    have hfresh : ∀ id', s.bitmap id' = true → s.getKey g id' ≠ key := fun id' hlive hkey => by
      have hid := hI.contentAt_eq haccepts.fits hlive hkey hfirst
      exact (isEntry_iff.mp (hI.isEntry hlive)).1 (hid.symm.trans hnil)
    have hroom : found = true ∨ s.nEntries + s.slots.count (· == garbage) < s.maxOffset := by
      rcases hslot with ⟨id', hlive, hkey⟩ | ⟨l, hleft, hl⟩ | hcount
      · exact absurd hkey (hfresh id' hlive)
      · left
        cases found with
        | true => rfl
        | false =>
          rcases Nat.lt_trichotomy l k with hlt | rfl | hlt
          · exact absurd hleft (hno l hlt)
          · exact absurd (hleft.symm.trans hcontent) garbage_ne_zero
          · exact absurd hcontent (hl k hlt)
      · exact .inr hcount
    refine ⟨hfresh, ?_⟩
    have hfull : ¬ (¬ found = true ∧ s.nEntries = maxIndexSize) := by
      rintro ⟨hnot, hfull⟩
      rcases hroom with hfound | hcount
      · exact hnot hfound
      · obtain ⟨m, hm, hn⟩ := hI.table.sized
        have hpow : 2 ^ m ≤ 2 ^ 29 := Nat.pow_le_pow_right (by decide) hm
        rw [maxIndexSize] at hfull
        omega
    simp only [heq, if_neg hfull]
    cases hio : g.io with
    | true =>
      simp only [if_true]
      rcases ioHashAdd_spec hI hio haccepts hfresh hplace hprobes hcontent hbefore hroom with
        ⟨hnone, hmax, w, hr⟩ | ⟨id, s', hr, hadded⟩
      · refine .inl ⟨hnone, hmax, w, ?_⟩
        rw [hr]
        simp
      · refine .inr ⟨id, s', ?_, hadded⟩
        have hpos := (hadded.inv.keys.ids id (by rw [hadded.bitmap, Function.update_self])).1
        rw [hr]
        simp [Nat.ne_of_gt hpos]
    | false =>
      simp only [Bool.false_eq_true, if_false]
      obtain ⟨id, s', hr, hadded⟩ := tinyHashAdd_spec hI hio haccepts hfresh hprobes hcontent hbefore hroom
      refine .inr ⟨id, s', ?_, hadded⟩
      have hpos := (hadded.inv.keys.ids id (by rw [hadded.bitmap, Function.update_self])).1
      rw [hr]
      simp [Nat.ne_of_gt hpos]

end Groonga.Hash
