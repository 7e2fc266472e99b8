import Groonga.Hash.Replay

/-!
# Recovering a hash

Every operation is recorded in the log by entries that do the same to the hash again. So the recovery
gives the hash from after the operations, when it starts from the one from before them and when it
starts from the one from after them, as long as the table was not hashed again in between.
-/

namespace Groonga.Hash

open Lib

variable {g : Config} {n s s' s₁ r : GrnHash} {source : Option ℕ} {e : WalEntry} {id hashValue off : ℕ}
  {key : List UInt8}

/-! ## Hashes that are as far as another one -/

/-- A key is put again. -/
theorem exists_put (hio : g.io = true) (hr : Settled g n r)
    (hl : Leads g n (.setEntryKey id key hashValue off) r) :
    ∃ r', entryPutKey g { r with currKey := off } id hashValue key = some r' := by
  rw [entryPutKey]
  cases hvar : g.varSize with
  | true =>
    rw [if_pos rfl]
    by_cases hshort : key.length ≤ g.bufSize
    · exact ⟨_, if_pos hshort⟩
    · obtain ⟨hsize, -⟩ := hl.2.2.2 hvar
      have hkept := (hr.place id ⟨hvar, by omega⟩).1
      rw [if_neg hshort, if_pos hio, ioEntryPutKey, if_pos hkept]
      exact ⟨_, rfl⟩
  | false =>
    rw [if_neg Bool.false_ne_true]
    split_ifs
    · exact ⟨_, rfl⟩
    · exact ⟨_, rfl⟩

/-- A step that leaves the table and the places of keys. -/
theorem Settled.of_same (hr : Settled g n r) {r' : GrnHash} (hmax : r'.maxOffset = r.maxOffset)
    (hoffset : r'.idxOffset = r.idxOffset)
    (hentries : ∀ id, n.Outside g id → (r'.entries id).keySize = (r.entries id).keySize ∧
      (r'.entries id).key = (r.entries id).key) : Settled g n r' where
  maxOffset := hmax.trans hr.maxOffset
  idxOffset := hoffset.trans hr.idxOffset
  place id hout := by
    obtain ⟨hsize, hbytes⟩ := hentries id hout
    rw [hsize, Entry.keyOffset, hbytes]
    exact hr.place id hout

/-- **An entry of the log** can be done again, and the hash stays as far as it is. -/
theorem Settled.step (hio : g.io = true) (hl : Leads g n e s) (hr : Settled g n r) :
    ∃ r', replay g source e r = some r' ∧ Leads g n e r ∧ Settled g n r' := by
  have hplaces : ∀ id, n.Outside g id → 0 < (r.entries id).keySize →
      (r.entries id).keyOffset g = (n.entries id).keyOffset g := fun id hout _ => (hr.place id hout).2
  cases e with
  | addEntry id i nEntries =>
    have hid : id ≤ idMax := hl.2.2.2
    exact ⟨_, if_neg (by omega), ⟨hr.maxOffset, hr.idxOffset, hplaces, hid⟩,
      hr.of_same rfl rfl fun _ _ => ⟨rfl, rfl⟩⟩
  | reuseEntry => exact ⟨_, rfl, ⟨hr.maxOffset, hr.idxOffset, hplaces, trivial⟩,
      hr.of_same rfl rfl fun _ _ => ⟨rfl, rfl⟩⟩
  | resetEntry id keySize next =>
    refine ⟨_, rfl, ⟨hr.maxOffset, hr.idxOffset, hplaces, trivial⟩, ?_⟩
    rw [ioHashResetEntry]
    split_ifs with hvar
    · refine hr.of_same rfl rfl fun id' _ => ?_
      by_cases hid : id' = id
      · rw [hid]
        exact ⟨(congrArg Entry.keySize (setEntry_self _ _ _)).trans rfl,
          (congrArg Entry.key (setEntry_self _ _ _)).trans rfl⟩
      · rw [setEntry_of_ne hid]
        exact ⟨rfl, rfl⟩
    · exact hr.of_same rfl rfl fun id' hout => absurd hout.1 hvar
  | enableEntry => exact ⟨_, rfl, ⟨hr.maxOffset, hr.idxOffset, hplaces, trivial⟩,
      hr.of_same rfl rfl fun _ _ => ⟨rfl, rfl⟩⟩
  | setEntryKey id key hashValue off =>
    have hl' : Leads g n (.setEntryKey id key hashValue off) r :=
      ⟨hr.maxOffset, hr.idxOffset, hplaces, fun hvar => by
        obtain ⟨hsize, -⟩ := hl.2.2.2 hvar
        exact ⟨hsize, fun hlong => .inl (hr.place id ⟨hvar, by omega⟩).1⟩⟩
    obtain ⟨r', hput⟩ := exists_put hio hr hl'
    refine ⟨r', hput, hl', ?_⟩
    by_cases hin : g.varSize = true → key.length ≤ g.bufSize
    · rw [put_inside hin hput]
      refine hr.of_same rfl rfl fun id' hout => ?_
      have hid : id' ≠ id := by
        rintro rfl
        have hsize := (hl.2.2.2 hout.1).1
        have hshort := hin hout.1
        have hlong := hout.2
        omega
      exact ⟨congrArg Entry.keySize (Function.update_of_ne hid _ _),
        congrArg Entry.key (Function.update_of_ne hid _ _)⟩
    · push Not at hin
      obtain ⟨hvar, hlong⟩ := hin
      obtain ⟨bytes, c, rfl, hbytes⟩ := put_outside hio hvar hlong hl' hput
      refine ⟨hr.maxOffset, hr.idxOffset, fun id' hout => ?_⟩
      by_cases hid : id' = id
      · subst hid
        show 0 < (Function.update r.entries id' _ id').keySize ∧
          (Function.update r.entries id' _ id').keyOffset g = _
        rw [Function.update_self]
        exact ⟨Nat.lt_of_le_of_lt (Nat.zero_le _) hlong, hbytes⟩
      · show 0 < (Function.update r.entries id _ id').keySize ∧
          (Function.update r.entries id _ id').keyOffset g = _
        rw [Function.update_of_ne hid]
        exact hr.place id' hout
  | deleteEntry id keySize i garbageRecordId nGarbages nEntries =>
    refine ⟨_, rfl, ⟨hr.maxOffset, hr.idxOffset, hplaces, trivial⟩, hr.of_same rfl rfl fun id' _ => ?_⟩
    by_cases hid : id' = id
    · rw [hid, hashDeleteEntry_self]
      exact ⟨rfl, rfl⟩
    · rw [hashDeleteEntry_others hid]
      exact ⟨rfl, rfl⟩
  | rehash => exact hl.2.2.2.elim
  | setValue id value =>
    refine ⟨_, rfl, ⟨hr.maxOffset, hr.idxOffset, hplaces, trivial⟩, hr.of_same rfl rfl fun id' _ => ?_⟩
    rw [hashSetValueRaw]
    by_cases hid : id' = id
    · rw [hid]
      exact ⟨(congrArg Entry.keySize (setEntry_self _ _ _)).trans rfl,
        (congrArg Entry.key (setEntry_self _ _ _)).trans rfl⟩
    · rw [setEntry_of_ne hid]
      exact ⟨rfl, rfl⟩

/-! ## Hashes with the same cells -/

/-- **The same map**: keys lead to the same ids and ids to the same values, and the numbers of entries
and the lists of deleted entries are the same. -/
structure SameMap (g : Config) (n r : GrnHash) : Prop where
  get : ∀ key, hashGet g r key = hashGet g n key
  getKey : ∀ id, r.getKey g id = n.getKey g id
  getValue : ∀ id, hashGetValue g r id = hashGetValue g n id
  nEntries : r.nEntries = n.nEntries
  lists : ∀ k list, Chain (fun id => (r.entries id).word) (r.garbages k) list ↔
    Chain (fun id => (n.entries id).word) (n.garbages k) list

theorem probeLoop_congr {step fuel i : ℕ} {stop : ℕ → Bool} (hat : ∀ i, r.idxAt i = n.idxAt i) :
    probeLoop r step stop fuel i = probeLoop n step stop fuel i := by
  induction fuel generalizing i with
  | zero => rfl
  | succ fuel ih => rw [probeLoop, probeLoop, hat, ih]

/-- **Hashes with the same cells** and the same table are the same map. -/
theorem sameMap_of_cell (hA : AreaInv g n) (hio : g.io = true) (hr : Settled g n r)
    (hcell : n.cell g r = n.cell g n) : SameMap g n r := by
  have hat : ∀ c, n.cell g r c = n.cell g n c := fun c => congrFun hcell c
  have hindex : r.index = n.index := funext fun j => hat (.index j)
  have hgarbages : r.garbages = n.garbages := funext fun k => hat (.garbages k)
  have hbitmap : r.bitmap = n.bitmap := funext fun id => by
    have h : (r.bitmap id).toNat = (n.bitmap id).toNat := hat (.bitmap id)
    cases hr : r.bitmap id <;> cases hn : n.bitmap id <;> simp [hr, hn] at h ⊢
  have hword : ∀ id, (r.entries id).word = (n.entries id).word := fun id => hat (.word id)
  have hflag : ∀ id, (r.entries id).isImmediate = (n.entries id).isImmediate := fun id => by
    rw [Entry.isImmediate, Entry.isImmediate, show (r.entries id).flag = (n.entries id).flag from hat (.flag id)]
  have hkeySize : ∀ id, (r.entries id).keySize = (n.entries id).keySize := fun id => hat (.keySize id)
  have hvalue : ∀ id, (r.entries id).value = (n.entries id).value := fun id =>
    funext fun j => UInt8.toNat_inj.mp (hat (.value id j))
  have hcurrRec : r.currRec = n.currRec := hat .currRec
  have hbytes : ∀ id, ¬ n.Outside g id → (r.entries id).key = (n.entries id).key := fun id hin => by
    funext j
    have h := hat (.key id j)
    simp only [GrnHash.cell, if_neg hin] at h
    exact UInt8.toNat_inj.mp h
  -- the bytes of a key are in the same place and the same
  have hkeyBytes : ∀ id, r.keyBytes g (r.entries id) ((r.entries id).getKeySize g) =
      n.keyBytes g (n.entries id) ((n.entries id).getKeySize g) := fun id => by
    rw [Entry.getKeySize, Entry.getKeySize, hkeySize, GrnHash.keyBytes, GrnHash.keyBytes, hflag]
    cases hvar : g.varSize with
    | true =>
      simp only [if_true, hio]
      by_cases hout : n.Outside g id
      · have himm : ¬ (n.entries id).isImmediate = true := fun himm => by
          have hle := (hA.immediate hvar id (Nat.lt_of_le_of_lt (Nat.zero_le _) hout.2)).mp himm
          exact Nat.not_lt.mpr hle hout.2
        rw [if_neg himm, if_neg himm, (hr.place id hout).2]
        refine List.map_congr_left fun j hj => ?_
        have hlt := List.mem_range.mp hj
        have h := hat (.area id j)
        simp only [GrnHash.cell, if_pos (And.intro hout hlt)] at h
        exact UInt8.toNat_inj.mp h
      · have hsmall : (n.entries id).keySize ≤ g.bufSize := by
          by_contra hbig
          exact hout ⟨hvar, by omega⟩
        by_cases himm : (n.entries id).isImmediate = true
        · rw [if_pos himm, if_pos himm, hbytes id hout]
        · have hzero : (n.entries id).keySize = 0 := by
            by_contra hne
            exact himm ((hA.immediate hvar id (by omega)).mpr hsmall)
          rw [if_neg himm, if_neg himm, hzero]
          rfl
    | false =>
      have hin : ¬ n.Outside g id := fun hout => by rw [hout.1] at hvar; cases hvar
      simp only [Bool.false_eq_true, if_false]
      rw [hword, hbytes id hin]
  have hcompare : ∀ id hashValue key, g.Fits key → r.compareKey g id hashValue key =
      n.compareKey g id hashValue key := fun id hashValue key hfits => by
    have h := hkeyBytes id
    rw [Entry.getKeySize, Entry.getKeySize, hkeySize] at h
    rw [GrnHash.compareKey, GrnHash.compareKey]
    simp only [hword, hkeySize]
    cases hvar : g.varSize with
    | true =>
      rw [if_pos hvar] at h
      simp only [if_true]
      by_cases hsize : (n.entries id).keySize = key.length
      · rw [hsize] at h
        rw [h]
      · simp [hsize]
    | false =>
      rw [Config.Fits, if_neg (by simp [hvar])] at hfits
      rw [if_neg (by simp [hvar]), ← hfits] at h
      rw [h]
  have hidx : ∀ i, r.idxAt i = n.idxAt i := fun i => by
    rw [GrnHash.idxAt, GrnHash.idxAt, GrnHash.idxPos, GrnHash.idxPos, hindex, hr.maxOffset, hr.idxOffset]
  refine ⟨fun key => ?_, hkeyBytes, fun id => ?_, hat .nEntries, fun k list => ?_⟩
  · rw [hashGet, hashGet]
    by_cases hfits : g.Fits key
    · have hstop : r.stopsAtKey g key = n.stopsAtKey g key := funext fun id => by
        rw [GrnHash.stopsAtKey, GrnHash.stopsAtKey, hcompare id _ key hfits]
      rw [if_pos hfits, if_pos hfits, hstop, GrnHash.probe, GrnHash.probe, hr.maxOffset, probeLoop_congr hidx]
    · rw [if_neg hfits, if_neg hfits]
  · rw [hashGetValue, hashGetValue, GrnHash.entryExists, GrnHash.entryExists, hbitmap, hcurrRec, hvalue]
  · rw [hgarbages]
    have hwords : (fun id => (r.entries id).word) = fun id => (n.entries id).word := funext hword
    rw [hwords]

/-! ## What operations record -/

/-- The keys of `s` are in `n` where they are in `s`, also those of deleted entries. -/
def Kept (g : Config) (s n : GrnHash) : Prop := ∀ id, g.varSize = true → 0 < (s.entries id).keySize →
  (n.entries id).keySize = (s.entries id).keySize ∧ (g.bufSize < (s.entries id).keySize →
    (n.entries id).keyOffset g = (s.entries id).keyOffset g)

theorem Kept.refl (s : GrnHash) : Kept g s s := fun _ _ _ => ⟨rfl, fun _ => rfl⟩

theorem Kept.trans (h : Kept g s s₁) (h' : Kept g s₁ n) : Kept g s n := fun id hvar hpos => by
  obtain ⟨hsize, hplace⟩ := h id hvar hpos
  obtain ⟨hsize', hplace'⟩ := h' id hvar (by omega)
  exact ⟨hsize'.trans hsize, fun hbig => (hplace' (by omega)).trans (hplace hbig)⟩

/-- Entries with the same keys are kept. -/
theorem Kept.of_same (hentries : g.varSize = true → ∀ id, (s₁.entries id).keySize = (s.entries id).keySize ∧
    (s₁.entries id).key = (s.entries id).key) : Kept g s s₁ := fun id hvar _ => by
  obtain ⟨hsize, hbytes⟩ := hentries hvar id
  exact ⟨hsize, fun _ => by rw [Entry.keyOffset, hbytes]; rfl⟩

/-- What is asked of a hash by every entry of the log. -/
theorem Kept.places (h : Kept g s n) (id : ℕ) (hout : n.Outside g id) (hpos : 0 < (s.entries id).keySize) :
    (s.entries id).keyOffset g = (n.entries id).keyOffset g := by
  obtain ⟨hsize, hplace⟩ := h id hout.1 hpos
  have hbig := hout.2
  exact (hplace (by omega)).symm

/-- **What a step of a run records** leads from the hash before it to the one after it. -/
structure Traced (g : Config) (s s' : GrnHash) : Prop where
  maxOffset : s'.maxOffset = s.maxOffset
  idxOffset : s'.idxOffset = s.idxOffset
  kept : Kept g s s'
  trace : ∃ es, s'.wal = s.wal ++ es ∧ es.foldl partialRecordId 0 = 0 ∧ ∀ source n,
    n.maxOffset = s'.maxOffset → n.idxOffset = s'.idxOffset → Kept g s' n →
      Follows (replay g source) (Leads g n) es s.flush s'.flush

theorem Traced.refl (s : GrnHash) : Traced g s s :=
  ⟨rfl, rfl, Kept.refl s, [], (List.append_nil _).symm, rfl, fun _ _ _ _ _ => rfl⟩

/-- **Two runs one after another.** -/
theorem Traced.trans (h : Traced g s s₁) (h' : Traced g s₁ s') : Traced g s s' := by
  obtain ⟨es, hwal, hpartial, hfollows⟩ := h.trace
  obtain ⟨es', hwal', hpartial', hfollows'⟩ := h'.trace
  refine ⟨h'.maxOffset.trans h.maxOffset, h'.idxOffset.trans h.idxOffset, h.kept.trans h'.kept, es ++ es', ?_, ?_,
    fun source n hmax hoffset hkept => ?_⟩
  · rw [hwal', hwal, List.append_assoc]
  · rw [List.foldl_append, hpartial, hpartial']
  · exact (hfollows source n (hmax.trans h'.maxOffset) (hoffset.trans h'.idxOffset)
      (h'.kept.trans hkept)).append (hfollows' source n hmax hoffset hkept)

theorem log_of_needWal (hwal : g.needWal = true) (s : GrnHash) (e : WalEntry) :
    s.log g e = { s with wal := s.wal ++ [e] } := if_pos hwal

/-- A deletion is recorded. -/
theorem hashDeleteInternal_traced (hwal : g.needWal = true) (id keySize i : ℕ) :
    Traced g s (hashDeleteInternal g s id keySize i) := by
  rw [hashDeleteInternal]
  simp only [log_of_needWal hwal]
  have hsame : ∀ id', (hashDeleteEntry g s id keySize i).entries id' =
      { s.entries id' with word := ((hashDeleteEntry g s id keySize i).entries id').word } := fun id' => by
    by_cases hid : id' = id
    · rw [hid, hashDeleteEntry_self]
    · rw [hashDeleteEntry_others hid]
  refine ⟨rfl, rfl, Kept.of_same fun _ id' => ?_, _, rfl, by simp [partialRecordId],
    fun source n hmax hoffset hkept => ?_⟩
  · show ((hashDeleteEntry g s id keySize i).entries id').keySize = _ ∧
      ((hashDeleteEntry g s id keySize i).entries id').key = _
    rw [hsame id']
    exact ⟨rfl, rfl⟩
  · have hkept' : Kept g s n := (Kept.of_same fun _ id' => by
      show ((hashDeleteEntry g s id keySize i).entries id').keySize = _ ∧
        ((hashDeleteEntry g s id keySize i).entries id').key = _
      rw [hsame id']
      exact ⟨rfl, rfl⟩).trans hkept
    refine ⟨⟨hmax.symm, hoffset.symm, hkept'.places, trivial⟩, _, rfl, ?_⟩
    have hlist : s.flush.setGarbages (g.garbageIndex keySize) (s.garbages (g.garbageIndex keySize)) = s.flush := by
      show ({ s.flush with garbages := Function.update s.garbages _ _ } : GrnHash) = _
      rw [Function.update_eq_self]
      rfl
    show hashDeleteEntry g { s.flush.setGarbages (g.garbageIndex keySize) (s.garbages (g.garbageIndex keySize)) with
      nGarbages := s.nGarbages, nEntries := s.nEntries } id keySize i = _
    rw [hlist]
    rfl

/-- A value is recorded. -/
theorem hashSetValue_traced (hwal : g.needWal = true) (id : ℕ) (value : List UInt8) :
    Traced g s (hashSetValue g s id value).2 := by
  rw [hashSetValue]
  split_ifs
  · simp only [log_of_needWal hwal]
    have hsame : ∀ id', ((hashSetValueRaw g s id value).entries id').keySize = (s.entries id').keySize ∧
        ((hashSetValueRaw g s id value).entries id').key = (s.entries id').key := fun id' => by
      rw [hashSetValueRaw]
      by_cases hid : id' = id
      · rw [hid, setEntry_self]
        exact ⟨rfl, rfl⟩
      · rw [setEntry_of_ne hid]
        exact ⟨rfl, rfl⟩
    refine ⟨rfl, rfl, Kept.of_same fun _ id' => hsame id', _, rfl, rfl, fun source n hmax hoffset hkept => ?_⟩
    have hkept' : Kept g s n := (Kept.of_same fun _ id' => hsame id').trans hkept
    exact ⟨⟨hmax.symm, hoffset.symm, hkept'.places, trivial⟩, _, rfl, rfl⟩
  · exact Traced.refl s

/-! ## Additions -/

theorem ioEntryPutKey_wal (w : List WalEntry) : ioEntryPutKey g { s with wal := w } id key =
    (ioEntryPutKey g s id key).map fun s => { s with wal := w } := by
  rw [ioEntryPutKey, ioEntryPutKey]
  split_ifs <;> rfl

theorem entryPutKey_wal (w : List WalEntry) : entryPutKey g { s with wal := w } id hashValue key =
    (entryPutKey g s id hashValue key).map fun s => { s with wal := w } := by
  rw [entryPutKey, entryPutKey]
  split_ifs
  · rfl
  · rw [ioEntryPutKey_wal, Option.map_map, Option.map_map]
    rfl
  · rfl
  · rfl
  · rfl

/-- What putting a key leaves. -/
theorem entryPutKey_same (hio : g.io = true) (h : entryPutKey g s id hashValue key = some s') :
    s' = { s with entries := s'.entries, currKey := s'.currKey, keys := s'.keys } ∧
    (∀ id', id' ≠ id → s'.entries id' = s.entries id') ∧
    (g.varSize = true → (s'.entries id).keySize = key.length ∧ (g.bufSize < key.length →
      ∃ s₁, ioEntryPutKey g s id key = some s₁ ∧ (s'.entries id).key = (s₁.entries id).key)) := by
  rw [entryPutKey] at h
  cases hvar : g.varSize with
  | true =>
    rw [if_pos hvar] at h
    by_cases hshort : key.length ≤ g.bufSize
    · rw [if_pos hshort] at h
      obtain rfl := Option.some.inj h
      refine ⟨rfl, fun id' hne => ?_, fun _ => ⟨?_, fun hlong => absurd hshort (by omega)⟩⟩
      · rw [setEntry_of_ne hne, setEntry_of_ne hne]
      · rw [setEntry_self]
    · rw [if_neg hshort, if_pos hio] at h
      obtain ⟨s₁, hs₁, rfl⟩ := Option.map_eq_some_iff.mp h
      have hothers : s₁ = { s with entries := s₁.entries, currKey := s₁.currKey, keys := s₁.keys } ∧
          ∀ id', id' ≠ id → s₁.entries id' = s.entries id' := by
        rw [ioEntryPutKey] at hs₁
        split_ifs at hs₁
        · obtain rfl := Option.some.inj hs₁
          exact ⟨rfl, fun _ _ => rfl⟩
        · obtain rfl := Option.some.inj hs₁
          exact ⟨rfl, fun id' hne => setEntry_of_ne hne _⟩
      refine ⟨?_, fun id' hne => ?_, fun _ => ⟨?_, fun _ => ⟨s₁, hs₁, ?_⟩⟩⟩
      · rw [hothers.1]
        rfl
      · rw [setEntry_of_ne hne]
        exact hothers.2 id' hne
      · rw [setEntry_self]
      · rw [setEntry_self]
  | false =>
    rw [if_neg (by simp [hvar])] at h
    split_ifs at h
    · obtain rfl := Option.some.inj h
      exact ⟨rfl, fun id' hne => setEntry_of_ne hne _, fun h => absurd h (by simp)⟩
    · obtain rfl := Option.some.inj h
      exact ⟨rfl, fun id' hne => setEntry_of_ne hne _, fun h => absurd h (by simp)⟩

/-- The key that was put is where `n` has it. -/
theorem leads_put (hio : g.io = true) (hmax : n.maxOffset = s.maxOffset) (hoffset : n.idxOffset = s.idxOffset)
    (hkept : Kept g s n) (hkept' : Kept g s' n) (hpos : 0 < key.length)
    (h : entryPutKey g s id hashValue key = some s') : Leads g n (.setEntryKey id key hashValue s.currKey) s := by
  obtain ⟨-, -, hkey⟩ := entryPutKey_same hio h
  refine ⟨hmax.symm, hoffset.symm, hkept.places, fun hvar => ?_⟩
  obtain ⟨hsize, hbytes⟩ := hkey hvar
  obtain ⟨hsize', hplace⟩ := hkept' id hvar (by omega)
  refine ⟨hsize'.trans hsize, fun hlong => .inr ?_⟩
  obtain ⟨s₁, hs₁, heq⟩ := hbytes hlong
  refine ⟨s₁, hs₁, ?_⟩
  rw [hplace (by omega), Entry.keyOffset, Entry.keyOffset, heq]

/-- **The end of an addition**: the bit and the key are recorded. -/
theorem ioHashFinish_traced (hwal : g.needWal = true) (hio : g.io = true) (hpos : 0 < key.length)
    (hsize : g.varSize = true → (s.entries id).keySize = 0 ∨ (s.entries id).keySize = key.length)
    (h : ioHashFinish g s id hashValue key = (id, s')) (hne : id ≠ 0) :
    s'.maxOffset = s.maxOffset ∧ s'.idxOffset = s.idxOffset ∧ Kept g s s' ∧
    s'.wal = s.wal ++ [.enableEntry id, .setEntryKey id key hashValue s.currKey] ∧
    ∀ source n, n.maxOffset = s'.maxOffset → n.idxOffset = s'.idxOffset → Kept g s' n →
      Follows (replay g source) (Leads g n) [.enableEntry id, .setEntryKey id key hashValue s.currKey]
        s.flush s'.flush := by
  -- the log does not matter for the key
  generalize hw : s.wal ++ [.enableEntry id, .setEntryKey id key hashValue s.currKey] = w
  have hput : ∃ s₁, entryPutKey g (ioHashEnableEntry s id) id hashValue key = some s₁ ∧
      s' = { s₁ with wal := w } := by
    rw [ioHashFinish] at h
    simp only [log_of_needWal hwal, List.append_assoc, List.cons_append, List.nil_append, hw] at h
    rw [show ioHashEnableEntry { s with wal := w } id = { ioHashEnableEntry s id with wal := w } from rfl,
      entryPutKey_wal] at h
    cases hput : entryPutKey g (ioHashEnableEntry s id) id hashValue key with
    | none =>
      rw [hput] at h
      exact absurd (Prod.mk.inj h).1.symm hne
    | some s₁ =>
      rw [hput] at h
      exact ⟨s₁, rfl, (Prod.mk.inj h).2.symm⟩
  obtain ⟨s₁, hput, rfl⟩ := hput
  obtain ⟨hsame, hothers, hkey⟩ := entryPutKey_same hio hput
  have hkept : Kept g s s₁ := fun id' hvar hpos' => by
    by_cases hid : id' = id
    · subst hid
      have hsize' := (hsize hvar).resolve_left (Nat.ne_of_gt hpos')
      obtain ⟨hnew, hbytes⟩ := hkey hvar
      refine ⟨hnew.trans hsize'.symm, fun hbig => ?_⟩
      obtain ⟨s₂, hs₂, heq⟩ := hbytes (by omega)
      rw [ioEntryPutKey, if_pos (show 0 < ((ioHashEnableEntry s id').entries id').keySize from hpos')] at hs₂
      obtain rfl := Option.some.inj hs₂
      rw [Entry.keyOffset, heq]
      rfl
    · rw [hothers id' hid]
      exact ⟨rfl, fun _ => rfl⟩
  have hmax : s₁.maxOffset = s.maxOffset := by
    rw [hsame]
    rfl
  have hoffset : s₁.idxOffset = s.idxOffset := by
    rw [hsame]
    rfl
  refine ⟨hmax, hoffset, hkept, rfl, fun source n hmax' hoffset' hkept' => ?_⟩
  have hkept₁ : Kept g s₁ n := hkept'
  have hkept₀ : Kept g s n := hkept.trans hkept₁
  have hput' : entryPutKey g (ioHashEnableEntry s id).flush id hashValue key = some s₁.flush := by
    rw [GrnHash.flush, entryPutKey_wal, hput]
    rfl
  refine ⟨⟨(hmax'.trans hmax).symm, (hoffset'.trans hoffset).symm, hkept₀.places, trivial⟩,
    (ioHashEnableEntry s id).flush, rfl, ?_, s₁.flush, hput', rfl⟩
  exact @leads_put g n (ioHashEnableEntry s id).flush s₁.flush id hashValue key hio (hmax'.trans hmax)
    (hoffset'.trans hoffset) hkept₀ hkept₁ hpos hput'

/-- The id that an addition gives. -/
theorem ioHashFinish_fst {id' : ℕ} (h : ioHashFinish g s id hashValue key = (id', s')) (hne : id' ≠ 0) :
    id' = id := by
  rw [ioHashFinish] at h
  split at h
  · exact (Prod.mk.inj h).1.symm
  · exact absurd (Prod.mk.inj h).1.symm hne

/-- A new entry is recorded. -/
theorem ioHashAdd_new_traced (hwal : g.needWal = true) (hio : g.io = true) (hpos : 0 < key.length)
    {i : ℕ} (hlt : s.currRec < idMax) (hfresh : (s.entries (s.currRec + 1)).keySize = 0)
    (h : ioHashFinish g (ioHashAddEntry (s.log g (.addEntry (s.currRec + 1) i s.nEntries)) (s.currRec + 1) i)
      (s.currRec + 1) hashValue key = (s.currRec + 1, s')) : Traced g s s' := by
  generalize ht : ioHashAddEntry (s.log g (.addEntry (s.currRec + 1) i s.nEntries)) (s.currRec + 1) i = t at h
  rw [log_of_needWal hwal] at ht
  have hentries : t.entries = s.entries := by rw [← ht]; rfl
  have hwalt : t.wal = s.wal ++ [.addEntry (s.currRec + 1) i s.nEntries] := by rw [← ht]; rfl
  have hmaxt : t.maxOffset = s.maxOffset := by rw [← ht]; rfl
  have hoffsett : t.idxOffset = s.idxOffset := by rw [← ht]; rfl
  have hflush : ioHashAddEntry { s.flush with nEntries := s.nEntries } (s.currRec + 1) i = t.flush := by
    rw [← ht]
    rfl
  obtain ⟨hmax, hoffset, hkept, hwal', hfollows⟩ := ioHashFinish_traced hwal hio hpos
    (fun _ => .inl (by rw [hentries]; exact hfresh)) h (Nat.succ_ne_zero _)
  have hkept₀ : Kept g s s' := (Kept.of_same fun _ id' => by rw [hentries]; exact ⟨rfl, rfl⟩).trans hkept
  refine ⟨hmax.trans hmaxt, hoffset.trans hoffsett, hkept₀,
    .addEntry (s.currRec + 1) i s.nEntries :: [.enableEntry (s.currRec + 1), .setEntryKey (s.currRec + 1) key
      hashValue t.currKey], ?_, rfl, fun source n hmax' hoffset' hkept' => ?_⟩
  · rw [hwal', hwalt, List.append_assoc]
    rfl
  · refine ⟨⟨(hmax'.trans (hmax.trans hmaxt)).symm, (hoffset'.trans (hoffset.trans hoffsett)).symm,
      (hkept₀.trans hkept').places, ?_⟩, t.flush, ?_, hfollows source n hmax' hoffset' hkept'⟩
    · show s.currRec + 1 ≤ idMax
      omega
    · rw [replay, if_neg (by omega)]
      exact congrArg some hflush

/-- The entry of a deleted key is recorded. -/
theorem ioHashAdd_reuse_traced (hwal : g.needWal = true) (hio : g.io = true) (hpos : 0 < key.length)
    {i : ℕ} {found : Bool} (hne : id ≠ 0)
    (hsize : g.varSize = true → (s.entries id).keySize = key.length)
    (h : ioHashFinish g (ioHashResetEntry g ((ioHashReuseEntry (s.log g (.reuseEntry id key.length i s.nGarbages
        s.nEntries found)) id i found).log g (.resetEntry id key.length (s.entries id).word)) id key.length
      (s.entries id).word) id hashValue key = (id, s')) : Traced g s s' := by
  simp only [log_of_needWal hwal] at h
  generalize ht : ioHashResetEntry g _ id key.length (s.entries id).word = t at h
  have hentries : g.varSize = true → ∀ id', (t.entries id').keySize = (s.entries id').keySize ∧
      (t.entries id').key = (s.entries id').key := fun hvar id' => by
    rw [← ht, ioHashResetEntry, if_pos hvar]
    by_cases hid : id' = id
    · rw [hid]
      exact ⟨(congrArg Entry.keySize (setEntry_self _ _ _)).trans rfl,
        (congrArg Entry.key (setEntry_self _ _ _)).trans rfl⟩
    · rw [setEntry_of_ne hid]
      exact ⟨rfl, rfl⟩
  have hwalt : t.wal = s.wal ++ [.reuseEntry id key.length i s.nGarbages s.nEntries found,
      .resetEntry id key.length (s.entries id).word] := by
    rw [← ht, ioHashResetEntry]
    split_ifs <;> exact List.append_assoc _ _ _
  have hmaxt : t.maxOffset = s.maxOffset := by
    rw [← ht, ioHashResetEntry]
    split_ifs <;> rfl
  have hoffsett : t.idxOffset = s.idxOffset := by
    rw [← ht, ioHashResetEntry]
    split_ifs <;> rfl
  have hflush : ioHashResetEntry g (ioHashReuseEntry { s.flush with
      nGarbages := s.nGarbages, nEntries := s.nEntries } id i found) id key.length (s.entries id).word = t.flush := by
    rw [← ht, ioHashResetEntry, ioHashResetEntry]
    split_ifs <;> rfl
  obtain ⟨hmax, hoffset, hkept, hwal', hfollows⟩ := ioHashFinish_traced hwal hio hpos
    (fun hvar => .inr (((hentries hvar id).1).trans (hsize hvar))) h hne
  have hkept₀ : Kept g s s' := (Kept.of_same hentries).trans hkept
  refine ⟨hmax.trans hmaxt, hoffset.trans hoffsett, hkept₀,
    .reuseEntry id key.length i s.nGarbages s.nEntries found :: .resetEntry id key.length (s.entries id).word ::
      [.enableEntry id, .setEntryKey id key hashValue t.currKey], ?_, rfl,
    fun source n hmax' hoffset' hkept' => ?_⟩
  · rw [hwal', hwalt, List.append_assoc]
    rfl
  · have hmax₀ := (hmax'.trans (hmax.trans hmaxt)).symm
    have hoffset₀ := (hoffset'.trans (hoffset.trans hoffsett)).symm
    have hplaces := (hkept₀.trans hkept').places
    exact ⟨⟨hmax₀, hoffset₀, hplaces, trivial⟩, _, rfl, ⟨hmax₀, hoffset₀, hplaces, trivial⟩, t.flush,
      congrArg some hflush, hfollows source n hmax' hoffset' hkept'⟩

/-- **An addition is recorded**, unless there are no ids left. -/
theorem ioHashAdd_traced (hwal : g.needWal = true) (hio : g.io = true) (hpos : 0 < key.length)
    {i : ℕ} {found : Bool}
    (hids : s.garbages (g.garbageIndex key.length) ≠ 0 ∨ s.currRec < idMax)
    (hfresh : (s.entries (s.currRec + 1)).keySize = 0)
    (hsize : g.varSize = true → s.garbages (g.garbageIndex key.length) ≠ 0 →
      (s.entries (s.garbages (g.garbageIndex key.length))).keySize = key.length)
    (h : ioHashAdd g s hashValue key i found = (id, s')) (hne : id ≠ 0) : Traced g s s' := by
  rw [ioHashAdd] at h
  by_cases hnone : s.garbages (g.garbageIndex key.length) = 0
  · have hlt := hids.resolve_left (absurd hnone)
    have hcurr : (s.log g (.addEntry (s.currRec + 1) i s.nEntries)).currRec = s.currRec := by
      rw [log_of_needWal hwal]
    rw [if_neg (not_not.mpr hnone), if_neg (by omega)] at h
    obtain rfl := ioHashFinish_fst h hne
    exact ioHashAdd_new_traced hwal hio hpos hlt hfresh h
  · rw [if_pos hnone] at h
    obtain rfl := ioHashFinish_fst h hne
    have hword : ((ioHashReuseEntry (s.log g (.reuseEntry (s.garbages (g.garbageIndex key.length)) key.length i
        s.nGarbages s.nEntries found)) (s.garbages (g.garbageIndex key.length)) i found).entries
          (s.garbages (g.garbageIndex key.length))).word =
        (s.entries (s.garbages (g.garbageIndex key.length))).word := by
      rw [log_of_needWal hwal]
      rfl
    simp only [hword] at h
    exact ioHashAdd_reuse_traced hwal hio hpos hnone (fun hvar => hsize hvar hnone) h

/-! ## Runs -/

/-- What is recorded: values of records are written without the log. -/
def Op.Logged : Op → Prop
  | .record _ _ _ => False
  | _ => True

/-- **The operation leaves the table as it is**, and there is room for what it adds: a slot, a place and
an id. -/
def Op.Steady (g : Config) (s : GrnHash) : Op → Prop
  | .add key source => (Op.add key source).Ready g s ∧ (g.Accepts key → ¬ s.Rehashes (addThreshold g s) ∧
      ((∀ id, s.bitmap id = true → s.getKey g id ≠ key) →
        s.garbages (g.garbageIndex key.length) ≠ 0 ∨ s.currRec < idMax))
  | .ensure threshold _ => ¬ s.Rehashes threshold
  | _ => True

/-- Every operation of a run leaves the table as it is. -/
def Steadies (g : Config) : List Op → GrnHash → Prop
  | [], _ => True
  | op :: ops, s => op.Steady g s ∧ ∀ r, step g s op = some r → Steadies g ops r.2

theorem Op.Steady.ready {op : Op} (hlogged : op.Logged) (h : op.Steady g s) : op.Ready g s := by
  cases op with
  | add => exact h.1
  | record => exact hlogged.elim
  | _ => trivial

/-- The addition of a new key is recorded. -/
theorem hashAddEntry_traced (hwal : g.needWal = true) (hio : g.io = true) (hI : Inv g s)
    (haccepts : g.Accepts key)
    (hids : s.garbages (g.garbageIndex key.length) ≠ 0 ∨ s.currRec < idMax)
    (h : hashAddEntry g s key = (id, true, s')) : Traced g s s' := by
  rw [hashAddEntry] at h
  dsimp only at h
  split at h
  · exact absurd (Prod.mk.inj (Prod.mk.inj h).2).1 Bool.false_ne_true
  · split_ifs at h with hfull
    · exact absurd (Prod.mk.inj (Prod.mk.inj h).2).1 Bool.false_ne_true
    · obtain ⟨hid, hrest⟩ := Prod.mk.inj h
      obtain ⟨hadded, hs'⟩ := Prod.mk.inj hrest
      have hne : id ≠ 0 := by
        rw [← hid]
        exact of_decide_eq_true hadded
      refine ioHashAdd_traced hwal hio haccepts.pos hids ?_ (fun hvar hne => hI.keySize_garbage hio haccepts hne hvar)
        (Prod.ext hid hs') hne
      rw [hI.areas.fresh _ (Nat.lt_succ_self _)]
      rfl

/-- **A step is recorded.** -/
theorem step_traced (hwal : g.needWal = true) (hio : g.io = true) (hI : Inv g s) {op : Op}
    (hlogged : op.Logged) (hsteady : op.Steady g s) {id : ℕ} (h : step g s op = some (id, s')) :
    Traced g s s' := by
  cases op with
  | add key source =>
    obtain rfl := (Prod.mk.inj (Option.some.inj h)).2
    obtain ⟨hready, hroom⟩ := hsteady
    rw [hashAdd]
    by_cases haccepts : g.Accepts key
    · obtain ⟨hstay, hids⟩ := hroom haccepts
      obtain ⟨hslot, hplace⟩ := hready haccepts
      rw [if_pos haccepts]
      rcases hashEnsureRehash_spec hI (addThreshold g s) source with ⟨-, heq⟩ | ⟨hre, -⟩
      · rw [heq]
        show Traced g s (hashAddEntry g s key).2.2
        rcases hashAddEntry_spec hI haccepts (hslot.resolve_left hstay) hplace with
          ⟨id, heq', -, -⟩ | ⟨hnone, ⟨hempty, hmax, -⟩ | ⟨id, s₁, heq', -⟩⟩
        · rw [heq']
          exact Traced.refl s
        · exact absurd (hids hnone) (by rintro (hne | hlt); exacts [hne hempty, by omega])
        · rw [heq']
          exact hashAddEntry_traced hwal hio hI haccepts (hids hnone) heq'
      · exact absurd hre hstay
    · rw [if_neg haccepts]
      exact Traced.refl s
  | delete key =>
    rw [step, Option.map_eq_some_iff] at h
    obtain ⟨⟨deleted, s₁⟩, heq, hr⟩ := h
    obtain rfl := (Prod.mk.inj hr).2
    rw [hashDelete] at heq
    split_ifs at heq
    · obtain ⟨⟨i, id'⟩, -, hr'⟩ := Option.map_eq_some_iff.mp heq
      dsimp only at hr'
      split_ifs at hr'
      · obtain rfl := (Prod.mk.inj hr').2
        exact Traced.refl s
      · obtain rfl := (Prod.mk.inj hr').2
        exact hashDeleteInternal_traced hwal _ _ _
    · obtain rfl := (Prod.mk.inj (Option.some.inj heq)).2
      exact Traced.refl s
  | deleteById id' =>
    rw [step, Option.map_eq_some_iff] at h
    obtain ⟨⟨deleted, s₁⟩, heq, hr⟩ := h
    obtain rfl := (Prod.mk.inj hr).2
    rw [hashDeleteById] at heq
    split_ifs at heq
    · obtain rfl := (Prod.mk.inj (Option.some.inj heq)).2
      exact Traced.refl s
    · obtain ⟨⟨i, id''⟩, -, hr'⟩ := Option.map_eq_some_iff.mp heq
      dsimp only at hr'
      split_ifs at hr'
      · obtain rfl := (Prod.mk.inj hr').2
        exact Traced.refl s
      · obtain rfl := (Prod.mk.inj hr').2
        exact hashDeleteInternal_traced hwal _ _ _
  | setValue id' value =>
    obtain rfl := (Prod.mk.inj (Option.some.inj h)).2
    exact hashSetValue_traced hwal id' value
  | ensure threshold source =>
    obtain rfl := (Prod.mk.inj (Option.some.inj h)).2
    rcases hashEnsureRehash_spec hI threshold source with ⟨-, heq⟩ | ⟨hre, -⟩
    · rw [heq]
      exact Traced.refl s
    · exact absurd hre hsteady
  | record => exact hlogged.elim

/-- **A run is recorded.** -/
theorem run_traced (hwal : g.needWal = true) (hio : g.io = true) (ops : List Op) {M : KeyMap} (hI : Inv g s)
    (hM : Models g s M) (hlogged : ∀ op ∈ ops, op.Logged) (hsteady : Steadies g ops s) :
    ∃ ids s', run g ops s = some (ids, s') ∧ Inv g s' ∧ Traced g s s' := by
  induction ops generalizing s M with
  | nil => exact ⟨[], s, rfl, hI, Traced.refl s⟩
  | cons op ops ih =>
    obtain ⟨hop, hrest⟩ := hsteady
    have hlogged' := hlogged op List.mem_cons_self
    obtain ⟨id, s₁, heq, hI', hM'⟩ := step_spec hI hM (hop.ready hlogged')
    have htraced := step_traced hwal hio hI hlogged' hop heq
    obtain ⟨ids, s', heq', hI'', htraced'⟩ :=
      ih hI' hM' (fun op' hop' => hlogged op' (List.mem_cons_of_mem _ hop')) (hrest _ heq)
    refine ⟨id :: ids, s', ?_, hI'', htraced.trans htraced'⟩
    rw [run, heq, Option.bind_some, heq']
    rfl

/-- **The recovery gives the map from after the run**, when it starts from the hash from before the run
and when it starts from the hash from after it. -/
def Recovers (g : Config) (source : Option ℕ) (s₀ s : GrnHash) : Prop :=
  (∃ r, hashWalRecover g source s₀ s.wal = some r ∧ SameMap g s r) ∧
    ∃ r, hashWalRecover g source s s.wal = some r ∧ SameMap g s r

/-- The log does not matter for the map. -/
theorem sameMap_flush (s : GrnHash) : SameMap g s s.flush := by
  refine ⟨fun key => ?_, fun _ => rfl, fun _ => rfl, rfl, fun _ _ => Iff.rfl⟩
  have hidx : ∀ i, s.flush.idxAt i = s.idxAt i := fun _ => rfl
  rw [hashGet, hashGet, GrnHash.probe, GrnHash.probe, probeLoop_congr hidx]
  rfl

theorem SameMap.flush (h : SameMap g n r) : SameMap g n r.flush := by
  have hr := @sameMap_flush g r
  exact ⟨fun key => (hr.get key).trans (h.get key), fun id => (hr.getKey id).trans (h.getKey id),
    fun id => (hr.getValue id).trans (h.getValue id), h.nEntries, h.lists⟩

/-- What was recorded is recovered. -/
theorem Traced.recovers (hio : g.io = true) (hwal : s.wal = []) (hI : Inv g s') (h : Traced g s s')
    (source : Option ℕ) : Recovers g source s s' := by
  obtain ⟨es, hes, hpartial, hfollows⟩ := h.trace
  rw [hwal, List.nil_append] at hes
  have hfollow := hfollows source s' rfl rfl (Kept.refl s')
  have hflush : s.flush = s := by
    rw [GrnHash.flush, ← hwal]
  rw [hflush] at hfollow
  have hsettled : Settled g s' s' := ⟨rfl, rfl, fun id hout => ⟨Nat.lt_of_le_of_lt (Nat.zero_le _) hout.2, rfl⟩⟩
  constructor
  · refine ⟨s'.flush, ?_, sameMap_flush s'⟩
    rw [hashWalRecover, hes, hfollow.redoAll]
    simp only [Option.bind_some, hpartial, if_true]
    rfl
  · -- every cell of the hash from after the run is as from after it
    obtain ⟨r, hall, hr, hcell⟩ := hfollow.redoAll_mixed (Settled g s') (s'.cell g)
      (decides hI.areas hio) (fun e s r hl hr => hr.step hio hl) hsettled fun c => .inr rfl
    refine ⟨r.flush, ?_, (sameMap_of_cell hI.areas hio hr hcell).flush⟩
    rw [hashWalRecover, hes, hall]
    simp only [Option.bind_some, hpartial, if_true]

/-- **The recovery is right** for every run that leaves the table as it is, from every hash that a run
leads to. -/
theorem recovers_of_steadies (g : Config) (hio : g.io = true) (hwal : g.needWal = true) (source : Option ℕ)
    (ops₀ ops : List Op) (hready : Readies g ops₀ (hashCreate g)) {ids₀ : List ℕ} {s₀ : GrnHash}
    (hrun : run g ops₀ (hashCreate g) = some (ids₀, s₀)) (hlogged : ∀ op ∈ ops, op.Logged)
    (hsteady : Steadies g ops s₀.flush) :
    ∃ ids s, run g ops s₀.flush = some (ids, s) ∧ Recovers g source s₀.flush s := by
  obtain ⟨ids', s', hrun', hI, hM⟩ := run_spec ops₀ (inv_hashCreate g) (models_hashCreate g) hready
  obtain ⟨-, rfl⟩ := Prod.mk.inj (Option.some.inj (hrun.symm.trans hrun'))
  obtain ⟨ids, s, heq, hI', htraced⟩ := run_traced hwal hio ops (hI.of_wal : Inv g s₀.flush) hM.of_wal hlogged hsteady
  exact ⟨ids, s, heq, htraced.recovers hio rfl hI' source⟩

end Groonga.Hash
