import Groonga.Hash.Adding
import Mathlib

/-!
# Deletions and values

A deletion puts the id in front of the list for the size of its key. A value is written into its
entry. The other entries keep their ids, keys and values.
-/

namespace Groonga.Hash

open Lib

variable {g : Config} {s s' : GrnHash} {id i k : ℕ} {key : List UInt8} {lists : ℕ → List ℕ}

/-! ## Lists of deleted entries -/

/-- **A live id is put in front of a list.** -/
theorem ListsInv.push (hL : ListsInv g s lists) {c : ℕ} (hpos : 0 < id) (hle : id ≤ s.currRec)
    (hlive : s.bitmap id = true) (hn : s.nEntries = s'.nEntries + 1) (hsole : g.io = false → c = 0)
    (hsize : g.io = true → g.varSize = true → (s.entries id).keySize = c + 1)
    (hgarbages : s'.garbages = Function.update s.garbages c id)
    (hword : (s'.entries id).word = s.garbages c) (hcurr : s'.currRec = s.currRec)
    (hbitmap : s'.bitmap = Function.update s.bitmap id false)
    (hothers : ∀ id', id' ≠ id → s'.entries id' = s.entries id')
    (hkept : (s'.entries id).keySize = (s.entries id).keySize) :
    ListsInv g s' (Function.update lists c (id :: lists c)) := by
  have hnot : ∀ k, id ∉ lists k := fun k hmem => by
    have hdead := (hL.free k id hmem).2.2
    rw [hlive] at hdead
    cases hdead
  have hne : ∀ k, ∀ x ∈ lists k, x ≠ id := fun k x hx => by
    rintro rfl
    exact hnot k hx
  have hsub : ∀ k, ∀ x ∈ Function.update lists c (id :: lists c) k, (x = id ∧ k = c) ∨ x ∈ lists k :=
    fun k x hx => by
      by_cases heq : k = c
      · subst heq
        rw [Function.update_self] at hx
        rcases List.mem_cons.mp hx with rfl | hx'
        · exact .inl ⟨rfl, rfl⟩
        · exact .inr hx'
      · rw [Function.update_of_ne heq] at hx
        exact .inr hx
  refine ⟨fun k => ?_, fun k => ?_, fun k₁ x hx k₂ hx₂ => ?_, fun k x hx => ?_, fun hio hvar k x hx => ?_,
    fun hio => ?_⟩
  · rw [hgarbages]
    by_cases heq : k = c
    · subst heq
      rw [Function.update_self, Function.update_self]
      exact (hL.chain k).push (Nat.ne_of_gt hpos) hword fun x hx => by rw [hothers x (hne k x hx)]
    · rw [Function.update_of_ne heq, Function.update_of_ne heq]
      exact (hL.chain k).congr fun x hx => by rw [hothers x (hne k x hx)]
  · by_cases heq : k = c
    · subst heq
      rw [Function.update_self]
      exact List.nodup_cons.mpr ⟨hnot k, hL.nodup k⟩
    · rw [Function.update_of_ne heq]
      exact hL.nodup k
  · rcases hsub k₁ x hx with ⟨rfl, rfl⟩ | hx'
    · rcases hsub k₂ x hx₂ with ⟨-, rfl⟩ | hx₂'
      · rfl
      · exact absurd hx₂' (hnot k₂)
    · rcases hsub k₂ x hx₂ with ⟨rfl, -⟩ | hx₂'
      · exact absurd hx' (hnot k₁)
      · exact hL.apart k₁ x hx' k₂ hx₂'
  · rw [hcurr, hbitmap]
    rcases hsub k x hx with ⟨rfl, -⟩ | hx'
    · rw [Function.update_self]
      exact ⟨hpos, hle, rfl⟩
    · rw [Function.update_of_ne (hne k x hx')]
      exact hL.free k x hx'
  · rcases hsub k x hx with ⟨rfl, rfl⟩ | hx'
    · rw [hkept]
      exact hsize hio hvar
    · rw [hothers x (hne k x hx')]
      exact hL.size hio hvar k x hx'
  · obtain rfl := hsole hio
    have htotal := hL.total hio
    rw [Function.update_self, List.length_cons, hcurr]
    omega

/-! ## The result of a deletion -/

/-- **An id was deleted.** -/
structure Deleted (g : Config) (s s' : GrnHash) (id : ℕ) : Prop where
  inv : Inv g s'
  bitmap : s'.bitmap = Function.update s.bitmap id false
  keep : ∀ id', id' ≠ id → s'.getKey g id' = s.getKey g id'
  values : ∀ id', id' ≠ id → (s'.entries id').value = (s.entries id').value
  nEntries : s.nEntries = s'.nEntries + 1

theorem hashDeleteEntry_others {keySize : ℕ} {id' : ℕ} (hne : id' ≠ id) :
    (hashDeleteEntry g s id keySize i).entries id' = s.entries id' :=
  Function.update_of_ne hne _ _

theorem hashDeleteEntry_self {keySize : ℕ} : (hashDeleteEntry g s id keySize i).entries id =
    { s.entries id with word := s.garbages (g.garbageIndex keySize) } :=
  Function.update_self _ _ _

/-- The size of the key of a live entry. -/
theorem Inv.getKeySize (hI : Inv g s) (hlive : s.bitmap id = true) (hkey : s.getKey g id = key) :
    (s.entries id).getKeySize g = key.length := by
  rw [← hI.keys.length id hlive, hkey]

/-- **A live id is deleted.** -/
theorem hashDeleteEntry_spec (hI : Inv g s) (hlive : s.bitmap id = true) (hat : s.idxAt i = id) :
    Deleted g s (hashDeleteEntry g s id ((s.entries id).getKeySize g) i) id := by
  have hentry := hI.isEntry hlive
  obtain ⟨hpos, hle⟩ := hI.keys.ids id hlive
  have hslot : i % s.slots.n < s.slots.n := Nat.mod_lt _ hI.table.sized.n_pos
  have hcount : 0 < s.nEntries := by
    rw [← hI.table.entries]
    refine Slots.count_pos hslot ?_
    rw [← hI.table.sized.idxAt_eq, hat]
    exact hentry
  have hn : s.nEntries = (hashDeleteEntry g s id ((s.entries id).getKeySize g) i).nEntries + 1 := by
    show s.nEntries = s.nEntries - 1 + 1
    omega
  have hkeep : ∀ id', id' ≠ id → (hashDeleteEntry g s id ((s.entries id).getKeySize g) i).getKey g id' =
      s.getKey g id' := fun id' hne => by
    rw [GrnHash.getKey, hashDeleteEntry_others hne]
    rfl
  have hsome : ∀ id', (hashDeleteEntry g s id ((s.entries id).getKeySize g) i).bitmap id' = true →
      id' ≠ id ∧ s.bitmap id' = true := fun id' h => by
    have h' : Function.update s.bitmap id false id' = true := h
    by_cases heq : id' = id
    · rw [heq, Function.update_self] at h'
      cases h'
    · rw [Function.update_of_ne heq] at h'
      exact ⟨heq, h'⟩
  have hsize := (hI.getKeySize hlive rfl)
  have hsizePos := (hI.keys.accepts id hlive).pos
  refine ⟨⟨?_, ?_, ?_, ?_, hI.currRec_le⟩, rfl, hkeep, fun id' hne => ?_, hn⟩
  · exact hI.table.leave hentry hat rfl rfl rfl rfl rfl rfl fun id' hne _ => by
      rw [hashDeleteEntry_others hne]
  · obtain ⟨lists, hL⟩ := hI.lists
    refine ⟨_, hL.push (c := g.garbageIndex ((s.entries id).getKeySize g)) hpos hle hlive hn
      (fun hio => by rw [Config.garbageIndex, if_neg (by simp [hio])]) (fun hio hvar => ?_) rfl ?_ rfl rfl
      (fun id' hne => hashDeleteEntry_others hne) ?_⟩
    · have hgetSize : (s.entries id).getKeySize g = (s.entries id).keySize := if_pos hvar
      rw [Config.garbageIndex, if_pos hio, hgetSize]
      omega
    · rw [hashDeleteEntry_self]
    · rw [hashDeleteEntry_self]
  · refine hI.areas.clear (Nat.le_refl _) rfl (fun id' => .inl ?_) fun id' hlt => ?_
    · by_cases heq : id' = id
      · rw [heq, hashDeleteEntry_self]
        exact ⟨rfl, rfl, rfl⟩
      · rw [hashDeleteEntry_others heq]
        exact ⟨rfl, rfl, rfl⟩
    · refine hashDeleteEntry_others ?_
      rintro rfl
      exact Nat.not_lt.mpr hle hlt
  · refine ⟨fun id' h => hI.keys.ids id' (hsome id' h).2, fun id' h => ?_, fun id' h => ?_, fun id' h => ?_,
      fun id₁ id₂ h₁ h₂ heq => ?_⟩
    · rw [hkeep id' (hsome id' h).1, hashDeleteEntry_others (hsome id' h).1]
      exact hI.keys.length id' (hsome id' h).2
    · rw [hkeep id' (hsome id' h).1]
      exact hI.keys.accepts id' (hsome id' h).2
    · rw [hkeep id' (hsome id' h).1, hashDeleteEntry_others (hsome id' h).1]
      exact hI.keys.word id' (hsome id' h).2
    · rw [hkeep id₁ (hsome id₁ h₁).1, hkeep id₂ (hsome id₂ h₂).1] at heq
      exact hI.keys.inj id₁ id₂ (hsome id₁ h₁).2 (hsome id₂ h₂).2 heq
  · rw [hashDeleteEntry_others hne]

/-- The log does not change what a deletion does. -/
theorem Deleted.of_wal {w : List WalEntry} (hd : Deleted g { s with wal := w } s' id) : Deleted g s s' id :=
  ⟨hd.inv, hd.bitmap, hd.keep, hd.values, hd.nEntries⟩

theorem hashDeleteInternal_spec (hI : Inv g s) (hlive : s.bitmap id = true) (hat : s.idxAt i = id)
    {keySize : ℕ} (hsize : (s.entries id).getKeySize g = keySize) :
    Deleted g s (hashDeleteInternal g s id keySize i) id := by
  rw [hashDeleteInternal]
  obtain ⟨w, hw⟩ := log_same g s (.deleteEntry id keySize i (s.garbages (g.garbageIndex keySize))
    s.nGarbages s.nEntries)
  simp only [hw]
  subst hsize
  exact (hashDeleteEntry_spec (s := { s with wal := w }) hI.of_wal hlive hat).of_wal

/-! ## `grn_hash_get`, `grn_hash_delete` and `grn_hash_delete_by_id` -/

/-- **Looking for a key** gives the id of the live entry with the key, and nil if there is none. -/
theorem hashGet_spec (hI : Inv g s) (key : List UInt8) :
    ∃ id, hashGet g s key = some id ∧
      ((id = 0 ∧ ∀ id', s.bitmap id' = true → s.getKey g id' ≠ key) ∨
        (s.bitmap id = true ∧ s.getKey g id = key)) := by
  rw [hashGet]
  by_cases hfits : g.Fits key
  · obtain ⟨i, id, heq, -, hid⟩ := hI.probe_key hfits
    refine ⟨id, ?_, hid⟩
    rw [if_pos hfits, heq]
    rfl
  · refine ⟨0, if_neg hfits, .inl ⟨rfl, fun id' hlive hkey => hfits ?_⟩⟩
    rw [← hkey]
    exact (hI.keys.accepts id' hlive).fits

/-- **A deletion by key.** -/
theorem hashDelete_spec (hI : Inv g s) (key : List UInt8) :
    (hashDelete g s key = some (false, s) ∧ ∀ id', s.bitmap id' = true → s.getKey g id' ≠ key) ∨
    ∃ id s', hashDelete g s key = some (true, s') ∧ s.bitmap id = true ∧ s.getKey g id = key ∧
      Deleted g s s' id := by
  rw [hashDelete]
  by_cases hfits : g.Fits key
  · obtain ⟨i, id, heq, hat, hid⟩ := hI.probe_key hfits
    rw [if_pos hfits, heq]
    rcases hid with ⟨rfl, hnone⟩ | ⟨hlive, hkey⟩
    · exact .inl ⟨rfl, hnone⟩
    · have hne : id ≠ 0 := (isEntry_iff.mp (hI.isEntry hlive)).1
      refine .inr ⟨id, _, ?_, hlive, hkey, hashDeleteInternal_spec hI hlive hat (hI.getKeySize hlive hkey)⟩
      simp only [Option.map_some, if_neg hne]
  · refine .inl ⟨if_neg hfits, fun id' hlive hkey => hfits ?_⟩
    rw [← hkey]
    exact (hI.keys.accepts id' hlive).fits

/-- Ids have segments in their order. -/
theorem Config.entrySegment_le (g : Config) {id id' : ℕ} (hle : id ≤ id') :
    g.entrySegment id ≤ g.entrySegment id' := by
  rw [Config.entrySegment, Config.entrySegment]
  split_ifs
  · exact Nat.div_le_div_right hle
  · rw [Nat.log2_eq_log_two, Nat.log2_eq_log_two]
    exact Nat.log_mono_right hle

/-- The entry of a live id is somewhere. -/
theorem Inv.entryExists (hI : Inv g s) (hlive : s.bitmap id = true) : s.entryExists g id = true := by
  obtain ⟨hpos, hle⟩ := hI.keys.ids id hlive
  have hsegment := g.entrySegment_le hle
  have hcurr : s.currRec ≠ 0 := by omega
  simp [GrnHash.entryExists, hsegment, hcurr]

/-- `GARBAGE` is no id: its entry is nowhere. -/
theorem Inv.not_entryExists_garbage (hI : Inv g s) : s.entryExists g garbage = false := by
  have hmax := g.entrySegment_le hI.currRec_le
  have hlt : g.entrySegment idMax < g.entrySegment garbage := by
    rw [Config.entrySegment, Config.entrySegment]
    split_ifs
    · have hpow : 2 ^ (22 - wOfElementLoop g.entrySize 32 0) ≤ 2 ^ 22 :=
        Nat.pow_le_pow_right (by decide) (Nat.sub_le _ _)
      have hdivmod := Nat.div_add_mod garbage (2 ^ (22 - wOfElementLoop g.entrySize 32 0))
      have hmod := Nat.mod_lt garbage (Nat.two_pow_pos (22 - wOfElementLoop g.entrySize 32 0))
      apply Nat.div_lt_of_lt_mul
      rw [idMax]
      have hgarbage : garbage = 0xffffffff := rfl
      omega
    · decide
  simp [GrnHash.entryExists, Nat.not_le.mpr (Nat.lt_of_le_of_lt hmax hlt)]

/-- **A deletion by id.** -/
theorem hashDeleteById_spec (hI : Inv g s) (id : ℕ) :
    (hashDeleteById g s id = some (false, s) ∧ s.bitmap id = false) ∨
    ∃ s', hashDeleteById g s id = some (true, s') ∧ s.bitmap id = true ∧ Deleted g s s' id := by
  rw [hashDeleteById]
  cases hlive : s.bitmap id with
  | true =>
    right
    obtain ⟨i, heq, hat⟩ := hI.probe_id hlive
    have hne : id ≠ 0 := (isEntry_iff.mp (hI.isEntry hlive)).1
    rw [if_neg (by simp [hne, hI.entryExists hlive]), heq]
    refine ⟨_, ?_, rfl, hashDeleteInternal_spec hI hlive hat rfl⟩
    simp only [Option.map_some, if_neg hne]
  | false =>
    left
    refine ⟨?_, rfl⟩
    by_cases hout : id = 0 ∨ ¬ s.entryExists g id
    · rw [if_pos hout]
    · have hne : id ≠ garbage := by
        rintro rfl
        rw [hI.not_entryExists_garbage] at hout
        exact hout (.inr Bool.false_ne_true)
      obtain ⟨i, heq⟩ := hI.probe_id_of_dead hlive hne
      rw [if_neg hout, heq]
      rfl

/-! ## Values -/

/-- **A value was set.** -/
structure ValueSet (g : Config) (s s' : GrnHash) (id : ℕ) (value : List UInt8) : Prop where
  inv : Inv g s'
  bitmap : s'.bitmap = s.bitmap
  keep : ∀ id', s'.getKey g id' = s.getKey g id'
  value : (s'.entries id).value = write (s.entries id).value 0 (value.take g.valueSize)
  values : ∀ id', id' ≠ id → (s'.entries id').value = (s.entries id').value
  nEntries : s'.nEntries = s.nEntries

/-- Setting a value keeps everything else. -/
theorem hashSetValueRaw_spec (hI : Inv g s) (id : ℕ) (hle : id ≤ s.currRec) (value : List UInt8) :
    ValueSet g s (hashSetValueRaw g s id value) id value := by
  have hentries : ∀ id', (hashSetValueRaw g s id value).entries id' =
      { s.entries id' with value := ((hashSetValueRaw g s id value).entries id').value } := fun id' => by
    by_cases heq : id' = id
    · rw [heq, hashSetValueRaw, setEntry_self]
    · rw [hashSetValueRaw, setEntry_of_ne heq]
  have hkeep : ∀ id', (hashSetValueRaw g s id value).getKey g id' = s.getKey g id' := fun id' => by
    rw [GrnHash.getKey, hentries id']
    rfl
  have hkeySize : ∀ id', ((hashSetValueRaw g s id value).entries id').keySize = (s.entries id').keySize :=
    fun id' => by rw [hentries id']
  have hword : ∀ id', ((hashSetValueRaw g s id value).entries id').word = (s.entries id').word :=
    fun id' => by rw [hentries id']
  refine ⟨⟨?_, ?_, ?_, ?_, hI.currRec_le⟩, rfl, hkeep, ?_, fun id' hne => ?_, rfl⟩
  · exact hI.table.congr rfl rfl rfl rfl rfl rfl fun id' _ => hword id'
  · obtain ⟨lists, hL⟩ := hI.lists
    exact ⟨lists, hL.congr rfl rfl rfl rfl fun id' _ => ⟨hword id', hkeySize id'⟩⟩
  · refine hI.areas.clear (Nat.le_refl _) rfl (fun id' => .inl ?_) fun id' hlt => ?_
    · rw [hentries id']
      exact ⟨rfl, rfl, rfl⟩
    · rw [hashSetValueRaw, setEntry_of_ne (by have : s.currRec < id' := hlt; omega)]
  · refine ⟨hI.keys.ids, fun id' h => ?_, fun id' h => ?_, fun id' h => ?_, fun id₁ id₂ h₁ h₂ heq => ?_⟩
    · rw [hkeep, Entry.getKeySize, hkeySize]
      exact hI.keys.length id' h
    · rw [hkeep]
      exact hI.keys.accepts id' h
    · rw [hkeep, hword]
      exact hI.keys.word id' h
    · rw [hkeep, hkeep] at heq
      exact hI.keys.inj id₁ id₂ h₁ h₂ heq
  · rw [hashSetValueRaw, setEntry_self]
  · rw [hashSetValueRaw, setEntry_of_ne hne]

/-- **`grn_hash_set_value`** sets the value of a live entry. -/
theorem hashSetValue_spec (hI : Inv g s) (id : ℕ) (value : List UInt8) :
    (hashSetValue g s id value = (false, s) ∧ s.bitmap id = false) ∨
    ∃ s', hashSetValue g s id value = (true, s') ∧ s.bitmap id = true ∧ ValueSet g s s' id value := by
  rw [hashSetValue]
  cases hlive : s.bitmap id with
  | false => exact .inl ⟨if_neg (by simp), rfl⟩
  | true =>
    right
    rw [if_pos ⟨rfl, hI.entryExists hlive⟩]
    obtain ⟨w, hw⟩ := log_same g s (.setValue id value)
    rw [hw]
    have hset := hashSetValueRaw_spec (s := { s with wal := w }) hI.of_wal id (hI.keys.ids id hlive).2 value
    exact ⟨_, rfl, rfl, hset.inv, hset.bitmap, hset.keep, hset.value, hset.values, hset.nEntries⟩

end Groonga.Hash
