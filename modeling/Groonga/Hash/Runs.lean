import Groonga.Hash.Rehash

/-!
# Runs of a hash

A hash stands for a finite map from keys to ids and values. Additions, deletions, values and hashing
again do to the hash what they do to the map, as long as a nil slot is left in the table.

The test for hashing again leaves such a slot when the domain is no table, because the table has
twice as many slots as it needs then. When the domain is a table, all slots may be taken, and the
loops that look for a key that is not there do not end.
-/

namespace Groonga.Hash

open Lib

/-! ## Operations -/

/-- What is done to a hash. `ensure` and `record` are the parts of `grn_hash_add_table_cursor` and its
siblings: the test of the size of the table, and each record. -/
inductive Op
  | add (key : List UInt8) (source : Option ℕ)
  | delete (key : List UInt8)
  | deleteById (id : ℕ)
  | setValue (id : ℕ) (value : List UInt8)
  | ensure (threshold : ℕ) (source : Option ℕ)
  | record (isOr : Bool) (rid : ℕ) (value : List UInt8)

/-- An operation: the id that it gives, 0 if none, and the hash. Nothing when a loop does not end. -/
def step (g : Config) (s : GrnHash) : Op → Option (ℕ × GrnHash)
  | .add key source => some ((hashAdd g s key source).1, (hashAdd g s key source).2.2)
  | .delete key => (hashDelete g s key).map fun r => (0, r.2)
  | .deleteById id => (hashDeleteById g s id).map fun r => (0, r.2)
  | .setValue id value => some (0, (hashSetValue g s id value).2)
  | .ensure threshold source => some (0, (hashEnsureRehash g s threshold source).2)
  | .record isOr rid value => hashAddRecord g s isOr rid value

/-- Operations one after another, with the ids that they give. -/
def run (g : Config) : List Op → GrnHash → Option (List ℕ × GrnHash)
  | [], s => some ([], s)
  | op :: ops, s => (step g s op).bind fun r => (run g ops r.2).map fun q => (r.1 :: q.1, q.2)

/-- **There is room for what is added.** -/
def Op.Ready (g : Config) (s : GrnHash) : Op → Prop
  | .add key _ => g.Accepts key → (s.Rehashes (addThreshold g s) ∨ s.SlotRoom g key) ∧ s.PlaceRoom g key
  | .record true rid _ => g.ValidatesRecords → s.SlotRoom g (recordKey rid)
  | _ => True

/-- There is room in every step of a run. -/
def Readies (g : Config) : List Op → GrnHash → Prop
  | [], _ => True
  | op :: ops, s => op.Ready g s ∧ ∀ r, step g s op = some r → Readies g ops r.2

/-! ## The map -/

/-- A map from keys to ids and values. -/
abbrev KeyMap := List UInt8 → Option (ℕ × List UInt8)

/-- The first bytes of a value are replaced. -/
def overlay (n : ℕ) (value old : List UInt8) : List UInt8 := value.take n ++ old.drop (value.take n).length

/-- A key gets an id and a value of zeros, unless it is there. -/
def KeyMap.add (M : KeyMap) (n : ℕ) (key : List UInt8) (id : ℕ) : KeyMap :=
  if id = 0 ∨ (M key).isSome then M else Function.update M key (some (id, List.replicate n 0))

def KeyMap.delete (M : KeyMap) (key : List UInt8) : KeyMap := Function.update M key none

def KeyMap.deleteById (M : KeyMap) (id : ℕ) : KeyMap := fun key => (M key).filter fun e => e.1 ≠ id

def KeyMap.setValue (M : KeyMap) (n id : ℕ) (value : List UInt8) : KeyMap := fun key =>
  (M key).map fun e => if e.1 = id then (e.1, overlay n value e.2) else e

/-- What an operation that gives the id does to the map. -/
def KeyMap.step (g : Config) (M : KeyMap) (id : ℕ) : Op → KeyMap
  | .add key _ => M.add g.valueSize key id
  | .delete key => M.delete key
  | .deleteById id' => M.deleteById id'
  | .setValue id' value => M.setValue g.valueSize id' value
  | .ensure _ _ => M
  | .record isOr rid value =>
    if g.ValidatesRecords then
      (if isOr then M.add g.valueSize (recordKey rid) id else M).setValue g.valueSize id value
    else M

def KeyMap.run (g : Config) : List Op → List ℕ → KeyMap → KeyMap
  | op :: ops, id :: ids, M => KeyMap.run g ops ids (M.step g id op)
  | _, _, M => M

/-- **The hash stands for the map.** -/
def Models (g : Config) (s : GrnHash) (M : KeyMap) : Prop := ∀ key id value,
  M key = some (id, value) ↔ s.bitmap id = true ∧ s.getKey g id = key ∧
    read (s.entries id).value 0 g.valueSize = value

variable {g : Config} {s s' : GrnHash} {id : ℕ} {key : List UInt8} {M : KeyMap}

/-- A key that no live entry has is not in the map. -/
theorem Models.eq_none (hM : Models g s M) (hnone : ∀ id, s.bitmap id = true → s.getKey g id ≠ key) :
    M key = none := by
  cases hkey : M key with
  | none => rfl
  | some e =>
    obtain ⟨hlive, hget, -⟩ := (hM key e.1 e.2).mp hkey
    exact absurd hget (hnone e.1 hlive)

/-- The key of a live entry is in the map. -/
theorem Models.eq_some (hM : Models g s M) (hlive : s.bitmap id = true) (hkey : s.getKey g id = key) :
    M key = some (id, read (s.entries id).value 0 g.valueSize) :=
  (hM _ _ _).mpr ⟨hlive, hkey, rfl⟩

/-- The log is not in the map. -/
theorem Models.of_wal {w : List WalEntry} (hM : Models g s M) : Models g { s with wal := w } M := hM

/-! ## Steps -/

/-- **An addition** adds to the map. -/
theorem Added.models (ha : Added g s s' key id) (hM : Models g s M)
    (hnone : ∀ id, s.bitmap id = true → s.getKey g id ≠ key) : Models g s' (M.add g.valueSize key id) := by
  have hzero : M key = none := hM.eq_none hnone
  have hlive : s'.bitmap id = true := by rw [ha.bitmap, Function.update_self]
  have hne : id ≠ 0 := Nat.ne_of_gt (ha.inv.keys.ids id hlive).1
  have hadd : M.add g.valueSize key id = Function.update M key (some (id, List.replicate g.valueSize 0)) := by
    rw [KeyMap.add, if_neg]
    rintro (h | h)
    · exact hne h
    · rw [hzero] at h
      cases h
  have hvalue : read (s'.entries id).value 0 g.valueSize = List.replicate g.valueSize 0 := by
    rw [ha.value]
    simp [Lib.read]
  intro key' id' value'
  rw [hadd]
  by_cases hkey : key' = key
  · subst hkey
    rw [Function.update_self]
    constructor
    · intro h
      obtain ⟨rfl, rfl⟩ := Prod.mk.inj (Option.some.inj h)
      exact ⟨hlive, ha.getKey, hvalue⟩
    · rintro ⟨hlive', hget, hread⟩
      have heq : id' = id := by
        by_contra hother
        rw [ha.bitmap, Function.update_of_ne hother] at hlive'
        rw [ha.keep id' hother] at hget
        exact hnone id' hlive' hget
      rw [← hread, heq, hvalue]
  · rw [Function.update_of_ne hkey, hM key' id' value']
    by_cases heq : id' = id
    · subst heq
      rw [ha.dead, ha.getKey]
      exact iff_of_false (fun h => Bool.false_ne_true h.1) fun h => hkey h.2.1.symm
    · rw [ha.bitmap, Function.update_of_ne heq, ha.keep id' heq, ha.values id' heq]

/-- **A deletion** deletes from the map. -/
theorem Deleted.models (hd : Deleted g s s' id) (hI : Inv g s) (hM : Models g s M) (hlive : s.bitmap id = true) :
    Models g s' (M.delete (s.getKey g id)) := by
  intro key' id' value'
  rw [KeyMap.delete]
  by_cases heq : id' = id
  · subst heq
    rw [hd.bitmap, Function.update_self]
    refine iff_of_false (fun h => ?_) fun h => Bool.false_ne_true h.1
    by_cases hkey : key' = s.getKey g id'
    · rw [hkey, Function.update_self] at h
      cases h
    · rw [Function.update_of_ne hkey, hM] at h
      exact hkey h.2.1.symm
  · rw [hd.bitmap, Function.update_of_ne heq, hd.keep id' heq, hd.values id' heq]
    by_cases hkey : key' = s.getKey g id
    · rw [hkey, Function.update_self]
      refine iff_of_false nofun fun h => heq ?_
      exact hI.keys.inj id' id h.1 hlive h.2.1
    · rw [Function.update_of_ne hkey]
      exact hM key' id' value'

/-- Deleting by id deletes the key of the id. -/
theorem Models.deleteById_eq (hM : Models g s M) (hlive : s.bitmap id = true) :
    M.deleteById id = M.delete (s.getKey g id) := by
  funext key'
  rw [KeyMap.deleteById, KeyMap.delete]
  by_cases hkey : key' = s.getKey g id
  · subst hkey
    rw [Function.update_self, hM.eq_some hlive rfl]
    simp [Option.filter]
  · rw [Function.update_of_ne hkey]
    cases he : M key' with
    | none => rfl
    | some e =>
      obtain ⟨-, hget, -⟩ := (hM key' e.1 e.2).mp he
      have hne : e.1 ≠ id := by
        rintro rfl
        exact hkey hget.symm
      simp [Option.filter, hne]

/-- An id that is not live is not in the map. -/
theorem Models.deleteById_of_dead (hM : Models g s M) (hdead : s.bitmap id = false) : M.deleteById id = M := by
  funext key'
  rw [KeyMap.deleteById]
  cases he : M key' with
  | none => rfl
  | some e =>
    obtain ⟨hlive, -, -⟩ := (hM key' e.1 e.2).mp he
    have hne : e.1 ≠ id := by
      rintro rfl
      rw [hdead] at hlive
      cases hlive
    simp [Option.filter, hne]

/-- The bytes of a value that was written. -/
theorem read_write_value (m : ℕ → UInt8) (n : ℕ) (value : List UInt8) :
    read (write m 0 (value.take n)) 0 n = overlay n value (read m 0 n) := by
  rw [overlay]
  refine List.ext_getElem (by simp) fun i h₁ h₂ => ?_
  have hi : i < n := by simpa using h₁
  by_cases hin : i < (value.take n).length
  · rw [List.getElem_append_left hin]
    simp only [Lib.read, write, List.getElem_map, List.getElem_range, Nat.zero_le, Nat.zero_add, true_and, hin,
      if_true, Nat.sub_zero]
    rw [List.getD_eq_getElem?_getD, List.getElem?_eq_getElem hin, Option.getD_some]
  · rw [List.getElem_append_right (by omega), List.getElem_drop]
    simp only [Lib.read, write, List.getElem_map, List.getElem_range, Nat.zero_le, Nat.zero_add, true_and, hin,
      if_false]
    congr 1
    omega

/-- **Setting a value** sets it in the map. -/
theorem ValueSet.models {value : List UInt8} (hv : ValueSet g s s' id value) (hM : Models g s M) :
    Models g s' (M.setValue g.valueSize id value) := by
  intro key' id' value'
  rw [KeyMap.setValue, hv.bitmap, hv.keep]
  constructor
  · intro h
    obtain ⟨e, he, heq⟩ := Option.map_eq_some_iff.mp h
    obtain ⟨hlive, hget, hread⟩ := (hM key' e.1 e.2).mp he
    by_cases hid : e.1 = id
    · rw [if_pos hid] at heq
      obtain ⟨rfl, rfl⟩ := Prod.mk.inj heq
      refine ⟨hlive, hget, ?_⟩
      rw [hid, hv.value, read_write_value, ← hread, hid]
    · rw [if_neg hid] at heq
      subst heq
      refine ⟨hlive, hget, ?_⟩
      rw [hv.values _ hid]
      exact hread
  · rintro ⟨hlive, hget, hread⟩
    rw [hM.eq_some hlive hget, Option.map_some]
    by_cases hid : id' = id
    · rw [if_pos hid, ← hread, hid, hv.value, read_write_value]
    · rw [if_neg hid, ← hread, hv.values id' hid]

/-- A value of an id that is not live is not in the map. -/
theorem Models.setValue_of_dead (hM : Models g s M) (hdead : s.bitmap id = false) (n : ℕ)
    (value : List UInt8) : M.setValue n id value = M := by
  funext key'
  rw [KeyMap.setValue]
  cases he : M key' with
  | none => rfl
  | some e =>
    obtain ⟨hlive, -, -⟩ := (hM key' e.1 e.2).mp he
    have hne : e.1 ≠ id := by
      rintro rfl
      rw [hdead] at hlive
      cases hlive
    rw [Option.map_some, if_neg hne]

/-- Hashing again does nothing to the map. -/
theorem Rehashed.models (hr : Rehashed g s s') (hM : Models g s M) : Models g s' M := by
  rw [hr.same]
  exact hM

/-- Nil is not a live id. -/
theorem Inv.bitmap_zero (hI : Inv g s) : s.bitmap 0 = false := by
  cases hlive : s.bitmap 0 with
  | false => rfl
  | true => exact absurd (hI.keys.ids 0 hlive).1 (Nat.lt_irrefl 0)

/-! ## `grn_hash_add` -/

/-- What an addition does: the map gets the key, and the id is that of the key. -/
def Adds (g : Config) (s s' : GrnHash) (key : List UInt8) (id : ℕ) : Prop :=
  Inv g s' ∧ ∀ M, Models g s M → Models g s' (M.add g.valueSize key id) ∧
    (id ≠ 0 → ∃ value, M.add g.valueSize key id key = some (id, value))

/-- Nothing was added. -/
theorem adds_none {w : List WalEntry} (hI : Inv g s) : Adds g s { s with wal := w } key 0 := by
  refine ⟨hI.of_wal, fun M hM => ⟨?_, fun h => absurd rfl h⟩⟩
  rw [KeyMap.add, if_pos (.inl rfl)]
  exact hM

theorem hashAddEntry_adds (hI : Inv g s) (haccepts : g.Accepts key) (hslot : s.SlotRoom g key)
    (hplace : s.PlaceRoom g key) : Adds g s (hashAddEntry g s key).2.2 key (hashAddEntry g s key).1 := by
  rcases hashAddEntry_spec hI haccepts hslot hplace with
    ⟨id, heq, hlive, hkey⟩ | ⟨hnone, ⟨-, -, w, heq⟩ | ⟨id, s', heq, ha⟩⟩
  · rw [heq]
    refine ⟨hI, fun M hM => ?_⟩
    have hsome := hM.eq_some hlive hkey
    have hadd : M.add g.valueSize key id = M := if_pos (.inr (by rw [hsome]; rfl))
    rw [hadd]
    exact ⟨hM, fun _ => ⟨_, hsome⟩⟩
  · rw [heq]
    exact adds_none hI
  · rw [heq]
    refine ⟨ha.inv, fun M hM => ?_⟩
    have hmodels := ha.models hM hnone
    exact ⟨hmodels, fun _ => ⟨_, hmodels.eq_some (by rw [ha.bitmap, Function.update_self]) ha.getKey⟩⟩

/-- The place for a key is where it was before the table was hashed again. -/
theorem Rehashed.placeRoom (hr : Rehashed g s s') (hplace : s.PlaceRoom g key) : s'.PlaceRoom g key := by
  have hsame := hr.same
  intro hfresh hio hvar hlong
  have hgarbages : s'.garbages = s.garbages := by rw [hsame]
  have hcurrKey : s'.currKey = s.currKey := by rw [hsame]
  have hbitmap : s'.bitmap = s.bitmap := by rw [hsame]
  rw [hgarbages, hcurrKey]
  refine hplace (fun id hlive => ?_) hio hvar hlong
  rw [← hr.getKey]
  exact hfresh id (by rw [hbitmap]; exact hlive)

/-- **`grn_hash_add`.** -/
theorem hashAdd_adds (hI : Inv g s) {source : Option ℕ} (hready : (Op.add key source).Ready g s) :
    Adds g s (hashAdd g s key source).2.2 key (hashAdd g s key source).1 := by
  rw [hashAdd]
  by_cases haccepts : g.Accepts key
  · obtain ⟨hslot, hplace⟩ := hready haccepts
    rw [if_pos haccepts]
    rcases hashEnsureRehash_spec hI (addThreshold g s) source with
      ⟨hstay, heq⟩ | ⟨-, ⟨-, w, heq⟩ | ⟨w, s', heq, hr, hroom⟩⟩
    · rw [heq]
      exact hashAddEntry_adds hI haccepts (hslot.resolve_left hstay) hplace
    · rw [heq]
      exact adds_none hI
    · rw [heq]
      have hslot' : s'.SlotRoom g key := .inr (.inr (by rw [hr.clean]; omega))
      obtain ⟨hI', hadds⟩ := hashAddEntry_adds hr.inv haccepts hslot' (hr.placeRoom hplace)
      exact ⟨hI', fun M hM => hadds M (hr.models hM.of_wal)⟩
  · rw [if_neg haccepts]
    exact adds_none hI

/-! ## Runs -/

/-- **A step** ends, and does to the hash what it does to the map. -/
theorem step_spec (hI : Inv g s) (hM : Models g s M) {op : Op} (hready : op.Ready g s) :
    ∃ id s', step g s op = some (id, s') ∧ Inv g s' ∧ Models g s' (M.step g id op) := by
  cases op with
  | add key source =>
    obtain ⟨hI', hadds⟩ := hashAdd_adds hI hready
    exact ⟨_, _, rfl, hI', (hadds M hM).1⟩
  | delete key =>
    rcases hashDelete_spec hI key with ⟨heq, hnone⟩ | ⟨id, s', heq, hlive, hkey, hd⟩
    · refine ⟨0, s, by rw [step, heq]; rfl, hI, ?_⟩
      have hsame : M.delete key = M := by
        rw [KeyMap.delete, ← hM.eq_none hnone]
        exact Function.update_eq_self _ _
      rw [KeyMap.step, hsame]
      exact hM
    · refine ⟨0, s', by rw [step, heq]; rfl, hd.inv, ?_⟩
      rw [KeyMap.step, ← hkey]
      exact hd.models hI hM hlive
  | deleteById id =>
    rcases hashDeleteById_spec hI id with ⟨heq, hdead⟩ | ⟨s', heq, hlive, hd⟩
    · refine ⟨0, s, by rw [step, heq]; rfl, hI, ?_⟩
      rw [KeyMap.step, hM.deleteById_of_dead hdead]
      exact hM
    · refine ⟨0, s', by rw [step, heq]; rfl, hd.inv, ?_⟩
      rw [KeyMap.step, hM.deleteById_eq hlive]
      exact hd.models hI hM hlive
  | setValue id value =>
    refine ⟨0, _, rfl, ?_⟩
    rcases hashSetValue_spec hI id value with ⟨heq, hdead⟩ | ⟨s', heq, hlive, hv⟩
    · rw [heq, KeyMap.step, hM.setValue_of_dead hdead]
      exact ⟨hI, hM⟩
    · rw [heq]
      exact ⟨hv.inv, hv.models hM⟩
  | ensure threshold source =>
    refine ⟨0, _, rfl, ?_⟩
    rcases hashEnsureRehash_spec hI threshold source with
      ⟨-, heq⟩ | ⟨-, ⟨-, w, heq⟩ | ⟨w, s', heq, hr, -⟩⟩
    · rw [heq]
      exact ⟨hI, hM⟩
    · rw [heq]
      exact ⟨hI.of_wal, hM⟩
    · rw [heq]
      exact ⟨hr.inv, hr.models hM.of_wal⟩
  | record isOr rid value =>
    rw [step, hashAddRecord]
    simp only [KeyMap.step]
    by_cases hvalid : g.ValidatesRecords
    · have haccepts : g.Accepts (recordKey rid) := by
        refine ⟨?_, ?_⟩
        · intro h
          have hlength := congrArg List.length h
          simp [recordKey] at hlength
        · rw [Config.Fits, if_neg (by simp [hvalid.1]), hvalid.2, recordKey, length_leBytes]
      simp only [if_pos hvalid]
      cases isOr with
      | true =>
        have hplace : s.PlaceRoom g (recordKey rid) := fun _ _ hvar => by rw [hvalid.1] at hvar; cases hvar
        obtain ⟨hI', hadds⟩ := hashAddEntry_adds hI haccepts (hready hvalid) hplace
        obtain ⟨hM', hid⟩ := hadds M hM
        refine ⟨_, _, rfl, ?_⟩
        rw [if_pos rfl]
        split_ifs with hzero
        · rw [hM'.setValue_of_dead (by rw [hzero]; exact hI'.bitmap_zero)]
          exact ⟨hI', hM'⟩
        · obtain ⟨value', hsome⟩ := hid hzero
          have hlive := ((hM' _ _ _).mp hsome).1
          have hv := hashSetValueRaw_spec hI' _ (hI'.keys.ids _ hlive).2 value
          exact ⟨hv.inv, hv.models hM'⟩
      | false =>
        obtain ⟨id, heq, hid⟩ := hashGet_spec hI (recordKey rid)
        rw [if_neg Bool.false_ne_true, heq]
        refine ⟨id, _, rfl, ?_⟩
        rw [if_neg Bool.false_ne_true]
        split_ifs with hzero
        · rw [hM.setValue_of_dead (by rw [hzero]; exact hI.bitmap_zero)]
          exact ⟨hI, hM⟩
        · obtain ⟨hlive, -⟩ := hid.resolve_left fun h => hzero h.1
          have hv := hashSetValueRaw_spec hI _ (hI.keys.ids _ hlive).2 value
          exact ⟨hv.inv, hv.models hM⟩
    · simp only [if_neg hvalid]
      exact ⟨0, s, rfl, hI, hM⟩

/-- **A run** ends, and does to the hash what it does to the map. -/
theorem run_spec (ops : List Op) (hI : Inv g s) (hM : Models g s M) (hready : Readies g ops s) :
    ∃ ids s', run g ops s = some (ids, s') ∧ Inv g s' ∧ Models g s' (KeyMap.run g ops ids M) := by
  induction ops generalizing s M with
  | nil => exact ⟨[], s, rfl, hI, hM⟩
  | cons op ops ih =>
    obtain ⟨hop, hrest⟩ := hready
    obtain ⟨id, s', heq, hI', hM'⟩ := step_spec hI hM hop
    obtain ⟨ids, s'', heq', hI'', hM''⟩ := ih hI' hM' (hrest _ heq)
    refine ⟨id :: ids, s'', ?_, hI'', hM''⟩
    rw [run, heq, Option.bind_some, heq']
    rfl

/-- A table of nil slots. -/
theorem slots_hashCreate (g : Config) {j : ℕ} : (hashCreate g).slots.at' j = 0 := rfl

/-- **A new hash** has the invariant. -/
theorem inv_hashCreate (g : Config) : Inv g (hashCreate g) where
  table := by
    have hcount : ∀ q : ℕ → Bool, q 0 = false → (hashCreate g).slots.count q = 0 := fun q hq =>
      Finset.sum_eq_zero fun j _ => by
        rw [slots_hashCreate, hq]
        rfl
    refine ⟨?_, .inl rfl, ⟨fun i _ j _ hentry => ?_, fun content hentry hhas => ?_⟩, hcount _ (by decide),
      Nat.le_of_eq (hcount _ (by decide)), ⟨0, Nat.succ_pos _, rfl⟩, fun id hentry => ?_⟩
    · cases hio : g.io with
      | true =>
        refine ⟨20, by decide, ?_⟩
        show (if g.io then indexSegmentSize else initialIndexSize) - 1 + 1 = 2 ^ 20
        rw [if_pos hio]
        rfl
      | false =>
        refine ⟨8, by decide, ?_⟩
        show (if g.io then indexSegmentSize else initialIndexSize) - 1 + 1 = 2 ^ 8
        rw [if_neg (by simp [hio])]
        rfl
    · rw [slots_hashCreate] at hentry
      exact absurd hentry (by decide)
    · obtain ⟨j, -, rfl⟩ := hhas
      rw [slots_hashCreate] at hentry
      exact absurd hentry (by decide)
    · refine iff_of_false (fun ⟨j, _, hj⟩ => ?_) Bool.false_ne_true
      rw [slots_hashCreate] at hj
      rw [← hj] at hentry
      exact absurd hentry (by decide)
  lists := ⟨fun _ => [], fun _ => rfl, fun _ => List.nodup_nil, fun _ _ h => absurd h List.not_mem_nil,
    fun _ _ h => absurd h List.not_mem_nil, fun _ _ _ _ h => absurd h List.not_mem_nil, fun _ => rfl⟩
  areas := ⟨fun _ _ => rfl, Nat.zero_le _, fun _ _ h => absurd h (Nat.lt_irrefl 0),
    fun _ _ _ h => absurd h (Nat.not_lt_zero _), fun _ _ _ _ _ h => absurd h (Nat.not_lt_zero _)⟩
  keys := ⟨fun _ h => absurd h Bool.false_ne_true, fun _ h => absurd h Bool.false_ne_true,
    fun _ h => absurd h Bool.false_ne_true, fun _ h => absurd h Bool.false_ne_true,
    fun _ _ h => absurd h Bool.false_ne_true⟩
  currRec_le := Nat.zero_le _

theorem models_hashCreate (g : Config) : Models g (hashCreate g) fun _ => none := fun _ _ _ =>
  iff_of_false nofun fun h => Bool.false_ne_true h.1

end Groonga.Hash
