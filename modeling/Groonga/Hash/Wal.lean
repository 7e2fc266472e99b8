import Groonga.Hash.Map
import Groonga.Lib.Redo

/-!
# The write ahead log of a hash

The recovery does every step of the log again, whether the hash is the one from before the steps or
the one from after them. A step writes what the log says into some cells of the hash and leaves the
others. So a hash whose cells are partly from before and partly from after the steps becomes the
hash from after them.

This is different for `REHASH`: its table of the old size is copied from the half that is in use, and
after the steps that is the half with the new table.
-/

namespace Groonga.Hash

open Lib

/-! ## The recovery -/

/-- What the recovery does for an entry of the log, nothing when it fails. -/
def replay (g : Config) (source : Option ℕ) (e : WalEntry) (s : GrnHash) : Option GrnHash :=
  match e with
  | .addEntry id i nEntries =>
    if idMax < id then none else some (ioHashAddEntry { s with nEntries := nEntries } id i)
  | .reuseEntry id _ i nGarbages nEntries foundGarbage =>
    some (ioHashReuseEntry { s with nGarbages := nGarbages, nEntries := nEntries } id i foundGarbage)
  | .resetEntry id keySize nextGarbage => some (ioHashResetEntry g s id keySize nextGarbage)
  | .enableEntry id => some (ioHashEnableEntry s id)
  | .setEntryKey id key keyHashValue keyOffset =>
    entryPutKey g { s with currKey := keyOffset } id keyHashValue key
  | .deleteEntry id keySize i garbageRecordId nGarbages nEntries =>
    let s := s.setGarbages (g.garbageIndex keySize) garbageRecordId
    some (hashDeleteEntry g { s with nGarbages := nGarbages, nEntries := nEntries } id keySize i)
  | .rehash nEntries maxOffset expectedNEntries =>
    hashRehash g { s with nEntries := nEntries, maxOffset := maxOffset } expectedNEntries source
  | .setValue id value => some (hashSetValueRaw g s id value)

/-- `partial_record_id`: the id whose addition is not complete. -/
def partialRecordId (id : ℕ) : WalEntry → ℕ
  | .addEntry id' _ _ => id'
  | .reuseEntry id' _ _ _ _ _ => id'
  | .setEntryKey _ _ _ _ => 0
  | .deleteEntry id' _ _ _ _ _ => if id = id' then 0 else id
  | _ => id

/-- `grn_obj_flush` clears the log. -/
def GrnHash.flush (s : GrnHash) : GrnHash := { s with wal := [] }

/-- `grn_hash_wal_recover`. A record whose addition is not complete is deleted. -/
def hashWalRecover (g : Config) (source : Option ℕ) (s : GrnHash) (wal : List WalEntry) : Option GrnHash :=
  (redoAll (replay g source) wal s).bind fun s =>
    let id := wal.foldl partialRecordId 0
    if id = 0 then some s.flush else (hashDeleteById g s id).map fun r => r.2.flush

/-! ## Cells -/

/-- The cells of a hash. The bytes of a key are in its entry, or in the area of its own. -/
inductive Cell
  | index (j : ℕ)
  | garbages (k : ℕ)
  | bitmap (id : ℕ)
  | word (id : ℕ)
  | flag (id : ℕ)
  | keySize (id : ℕ)
  | key (id j : ℕ)
  | area (id j : ℕ)
  | value (id j : ℕ)
  | nEntries
  | nGarbages
  | currRec
deriving DecidableEq

/-- The key of the id has its bytes in the key area. -/
def GrnHash.Outside (g : Config) (n : GrnHash) (id : ℕ) : Prop :=
  g.varSize = true ∧ g.bufSize < (n.entries id).keySize

instance (g : Config) (n : GrnHash) (id : ℕ) : Decidable (n.Outside g id) := inferInstanceAs (Decidable (_ ∧ _))

/-- What a cell holds. Where the bytes of a key are is taken from the hash `n`. -/
def GrnHash.cell (g : Config) (n s : GrnHash) : Cell → ℕ
  | .index j => s.index j
  | .garbages k => s.garbages k
  | .bitmap id => (s.bitmap id).toNat
  | .word id => (s.entries id).word
  | .flag id => (s.entries id).flag
  | .keySize id => (s.entries id).keySize
  | .key id j => if n.Outside g id then 0 else ((s.entries id).key j).toNat
  | .area id j =>
    if n.Outside g id ∧ j < (n.entries id).keySize then (s.keys ((n.entries id).keyOffset g + j)).toNat else 0
  | .value id j => ((s.entries id).value j).toNat
  | .nEntries => s.nEntries
  | .nGarbages => s.nGarbages
  | .currRec => s.currRec

/-- **The entry of the log is of a run that leads to `n`**, and the hash has the table of `n`. A key of
variable size goes where it is in `n`. -/
def Leads (g : Config) (n : GrnHash) (e : WalEntry) (s : GrnHash) : Prop :=
  s.maxOffset = n.maxOffset ∧ s.idxOffset = n.idxOffset ∧
  (∀ id, n.Outside g id → 0 < (s.entries id).keySize → (s.entries id).keyOffset g = (n.entries id).keyOffset g) ∧
  match e with
  | .addEntry id _ _ => id ≤ idMax
  | .setEntryKey id key _ off =>
    g.varSize = true → (n.entries id).keySize = key.length ∧ (g.bufSize < key.length →
      0 < (s.entries id).keySize ∨
        ∃ s', ioEntryPutKey g { s with currKey := off } id key = some s' ∧
          (s'.entries id).keyOffset g = (n.entries id).keyOffset g)
  | .rehash _ _ _ => False
  | _ => True

/-- **The hash is as far as `n`** in its table and in the places of keys. -/
structure Settled (g : Config) (n r : GrnHash) : Prop where
  maxOffset : r.maxOffset = n.maxOffset
  idxOffset : r.idxOffset = n.idxOffset
  place : ∀ id, n.Outside g id → 0 < (r.entries id).keySize ∧ (r.entries id).keyOffset g = (n.entries id).keyOffset g

variable {g : Config} {n s s' r : GrnHash} {source : Option ℕ} {e : WalEntry} {id : ℕ}

/-- The place of a slot in a hash with the same table. -/
theorem Leads.idxPos (h : Leads g n e s) (i : ℕ) : s.idxPos i = n.idxPos i := by
  rw [GrnHash.idxPos, GrnHash.idxPos, h.1, h.2.1]

/-! ## What an entry writes -/

/-- An addition writes the slot and the counters. -/
theorem decides_addEntry (id i nEntries : ℕ) (c : Cell) :
    Decides (replay g source) (Leads g n) (n.cell g) (.addEntry id i nEntries) c := by
  have hget : ∀ s s', replay g source (.addEntry id i nEntries) s = some s' →
      s' = ioHashAddEntry { s with nEntries := nEntries } id i := fun s s' h => by
    rw [replay] at h
    split_ifs at h
    exact (Option.some.inj h).symm
  cases c with
  | index j =>
    by_cases hj : j = n.idxPos i
    · refine .inl ⟨id, fun s s' hl h => ?_⟩
      obtain rfl := hget s s' h
      show Function.update s.index (s.idxPos i) id j = id
      rw [hl.idxPos, hj, Function.update_self]
    · refine .inr fun s s' hl h => ?_
      obtain rfl := hget s s' h
      show Function.update s.index (s.idxPos i) id j = s.index j
      rw [hl.idxPos, Function.update_of_ne hj]
  | nEntries =>
    refine .inl ⟨nEntries + 1, fun s s' _ h => ?_⟩
    obtain rfl := hget s s' h
    rfl
  | currRec =>
    refine .inl ⟨id, fun s s' _ h => ?_⟩
    obtain rfl := hget s s' h
    rfl
  | _ =>
    refine .inr fun s s' _ h => ?_
    obtain rfl := hget s s' h
    rfl

/-- Taking a deleted entry writes the slot and the counters. -/
theorem decides_reuseEntry (id keySize i nGarbages nEntries : ℕ) (found : Bool) (c : Cell) :
    Decides (replay g source) (Leads g n) (n.cell g) (.reuseEntry id keySize i nGarbages nEntries found) c := by
  cases c with
  | index j =>
    by_cases hj : j = n.idxPos i
    · refine .inl ⟨id, fun s s' hl h => ?_⟩
      obtain rfl := Option.some.inj h
      show Function.update s.index (s.idxPos i) id j = id
      rw [hl.idxPos, hj, Function.update_self]
    · refine .inr fun s s' hl h => ?_
      obtain rfl := Option.some.inj h
      show Function.update s.index (s.idxPos i) id j = s.index j
      rw [hl.idxPos, Function.update_of_ne hj]
  | nEntries =>
    refine .inl ⟨nEntries + 1, fun s s' _ h => ?_⟩
    obtain rfl := Option.some.inj h
    rfl
  | nGarbages =>
    refine .inl ⟨if found then nGarbages - 1 else nGarbages, fun s s' _ h => ?_⟩
    obtain rfl := Option.some.inj h
    rfl
  | _ =>
    refine .inr fun s s' _ h => ?_
    obtain rfl := Option.some.inj h
    rfl

/-- The bit of an entry is written. -/
theorem decides_enableEntry (id : ℕ) (c : Cell) :
    Decides (replay g source) (Leads g n) (n.cell g) (.enableEntry id) c := by
  cases c with
  | bitmap id' =>
    by_cases hid : id' = id
    · refine .inl ⟨1, fun s s' _ h => ?_⟩
      obtain rfl := Option.some.inj h
      show (Function.update s.bitmap id true id').toNat = 1
      rw [hid, Function.update_self]
      rfl
    · refine .inr fun s s' _ h => ?_
      obtain rfl := Option.some.inj h
      show (Function.update s.bitmap id true id').toNat = (s.bitmap id').toNat
      rw [Function.update_of_ne hid]
  | _ =>
    refine .inr fun s s' _ h => ?_
    obtain rfl := Option.some.inj h
    rfl

/-- A part of an entry is written without looking at the entry, or left. -/
def ConstOrSame {α : Type*} (f : Entry → Entry) (p : Entry → α) : Prop :=
  (∃ v, ∀ e, p (f e) = v) ∨ ∀ e, p (f e) = p e

/-- **A step that changes one entry** decides what a part of an entry gets. -/
theorem decides_part {f : Entry → Entry} {p : Entry → ℕ} (hf : ConstOrSame f p) {id' : ℕ} {c : Cell}
    (hcell : ∀ s, n.cell g s c = p (s.entries id'))
    (hget : ∀ s s', Leads g n e s → replay g source e s = some s' →
      s'.entries = Function.update s.entries id (f (s.entries id))) :
    Decides (replay g source) (Leads g n) (n.cell g) e c := by
  by_cases hid : id' = id
  · rcases hf with ⟨v, hv⟩ | hsame
    · refine .inl ⟨v, fun s s' hl h => ?_⟩
      rw [hcell, hget s s' hl h, hid, Function.update_self, hv]
    · refine .inr fun s s' hl h => ?_
      rw [hcell, hcell, hget s s' hl h, hid, Function.update_self, hsame]
  · refine .inr fun s s' hl h => ?_
    rw [hcell, hcell, hget s s' hl h, Function.update_of_ne hid]

/-- Every part of an entry is written without looking at the entry, or left. -/
structure Writes (f : Entry → Entry) : Prop where
  word : ConstOrSame f Entry.word
  flag : ConstOrSame f Entry.flag
  keySize : ConstOrSame f Entry.keySize
  key : ∀ j, ConstOrSame f fun e => e.key j
  value : ∀ j, ConstOrSame f fun e => e.value j

theorem ConstOrSame.map {α β : Type*} {f : Entry → Entry} {p : Entry → α} (h : ConstOrSame f p) (q : α → β) :
    ConstOrSame f fun e => q (p e) := by
  rcases h with ⟨v, hv⟩ | hsame
  · exact .inl ⟨q v, fun e => congrArg q (hv e)⟩
  · exact .inr fun e => congrArg q (hsame e)

/-- The cell is a part of an entry. -/
def Cell.OfEntry : Cell → Prop
  | .word _ | .flag _ | .keySize _ | .key _ _ | .value _ _ => True
  | _ => False

theorem decides_entry {f : Entry → Entry} (hf : Writes f) {c : Cell} (hc : c.OfEntry)
    (hget : ∀ s s', Leads g n e s → replay g source e s = some s' →
      s'.entries = Function.update s.entries id (f (s.entries id))) :
    Decides (replay g source) (Leads g n) (n.cell g) e c := by
  cases c with
  | word id' => exact decides_part hf.word (fun _ => rfl) hget
  | flag id' => exact decides_part hf.flag (fun _ => rfl) hget
  | keySize id' => exact decides_part hf.keySize (fun _ => rfl) hget
  | key id' j =>
    exact decides_part ((hf.key j).map fun b => if n.Outside g id' then 0 else b.toNat) (fun _ => rfl) hget
  | value id' j => exact decides_part ((hf.value j).map UInt8.toNat) (fun _ => rfl) hget
  | _ => exact hc.elim

theorem constOrSame_write (bs : List UInt8) (m : Entry → ℕ → UInt8) (f : Entry → Entry) (j : ℕ)
    (hf : ∀ e, m (f e) = write (m e) 0 bs) : ConstOrSame f fun e => m e j := by
  by_cases hj : j < bs.length
  · refine .inl ⟨bs.getD j 0, fun e => ?_⟩
    show m (f e) j = _
    rw [hf, write, if_pos ⟨Nat.zero_le _, by omega⟩]
    rfl
  · refine .inr fun e => ?_
    show m (f e) j = m e j
    rw [hf]
    exact write_of_not_mem (.inr (by omega))

/-- Preparing a deleted entry writes the entry and the list. -/
theorem decides_resetEntry (id keySize next : ℕ) (c : Cell) :
    Decides (replay g source) (Leads g n) (n.cell g) (.resetEntry id keySize next) c := by
  have hf : Writes fun e => if g.varSize then { e with value := fun _ => 0 } else Entry.zero := by
    cases g.varSize with
    | true => exact ⟨.inr fun _ => rfl, .inr fun _ => rfl, .inr fun _ => rfl, fun _ => .inr fun _ => rfl,
        fun _ => .inl ⟨0, fun _ => rfl⟩⟩
    | false => exact ⟨.inl ⟨0, fun _ => rfl⟩, .inl ⟨0, fun _ => rfl⟩, .inl ⟨0, fun _ => rfl⟩,
        fun _ => .inl ⟨0, fun _ => rfl⟩, fun _ => .inl ⟨0, fun _ => rfl⟩⟩
  have hget : ∀ s s', Leads g n (.resetEntry id keySize next) s →
      replay g source (.resetEntry id keySize next) s = some s' → s'.entries = Function.update s.entries id
        (if g.varSize then { s.entries id with value := fun _ => 0 } else Entry.zero) := fun s s' _ h => by
    obtain rfl := Option.some.inj h
    rw [ioHashResetEntry]
    split_ifs <;> rfl
  have hother : ∀ s s', replay g source (.resetEntry id keySize next) s = some s' →
      s' = { s with garbages := Function.update s.garbages (g.garbageIndex keySize) next, entries := s'.entries } :=
    fun s s' h => by
      obtain rfl := Option.some.inj h
      rw [ioHashResetEntry]
      split_ifs <;> rfl
  cases c with
  | garbages k =>
    by_cases hk : k = g.garbageIndex keySize
    · refine .inl ⟨next, fun s s' _ h => ?_⟩
      rw [hother s s' h, hk]
      exact Function.update_self _ _ _
    · refine .inr fun s s' _ h => ?_
      rw [hother s s' h]
      exact Function.update_of_ne hk _ _
  | word _ | flag _ | keySize _ | key _ _ | value _ _ => exact decides_entry hf trivial hget
  | _ =>
    refine .inr fun s s' _ h => ?_
    rw [hother s s' h]
    rfl

/-- A value is written. -/
theorem decides_setValue (id : ℕ) (value : List UInt8) (c : Cell) :
    Decides (replay g source) (Leads g n) (n.cell g) (.setValue id value) c := by
  have hf : Writes fun e => { e with value := write e.value 0 (value.take g.valueSize) } :=
    ⟨.inr fun _ => rfl, .inr fun _ => rfl, .inr fun _ => rfl, fun _ => .inr fun _ => rfl,
      fun j => constOrSame_write _ Entry.value _ j fun _ => rfl⟩
  have hget : ∀ s s', Leads g n (.setValue id value) s → replay g source (.setValue id value) s = some s' →
      s'.entries = Function.update s.entries id
        { s.entries id with value := write (s.entries id).value 0 (value.take g.valueSize) } := fun s s' _ h => by
    obtain rfl := Option.some.inj h
    rfl
  cases c with
  | word _ | flag _ | keySize _ | key _ _ | value _ _ => exact decides_entry hf trivial hget
  | _ =>
    refine .inr fun s s' _ h => ?_
    obtain rfl := Option.some.inj h
    rfl

/-- A deletion writes the slot, the list, the bit and the counters, and links the entry to the list
that the log remembers. -/
theorem decides_deleteEntry (id keySize i garbageRecordId nGarbages nEntries : ℕ) (c : Cell) :
    Decides (replay g source) (Leads g n) (n.cell g)
      (.deleteEntry id keySize i garbageRecordId nGarbages nEntries) c := by
  have hf : Writes fun e => { e with word := garbageRecordId } :=
    ⟨.inl ⟨_, fun _ => rfl⟩, .inr fun _ => rfl, .inr fun _ => rfl, fun _ => .inr fun _ => rfl,
      fun _ => .inr fun _ => rfl⟩
  have hget : ∀ s s', Leads g n (.deleteEntry id keySize i garbageRecordId nGarbages nEntries) s →
      replay g source (.deleteEntry id keySize i garbageRecordId nGarbages nEntries) s = some s' →
      s'.entries = Function.update s.entries id { s.entries id with word := garbageRecordId } := fun s s' _ h => by
    obtain rfl := Option.some.inj h
    rw [hashDeleteEntry]
    show Function.update s.entries id { s.entries id with
      word := Function.update s.garbages (g.garbageIndex keySize) garbageRecordId (g.garbageIndex keySize) } = _
    rw [Function.update_self]
  cases c with
  | index j =>
    by_cases hj : j = n.idxPos i
    · refine .inl ⟨garbage, fun s s' hl h => ?_⟩
      obtain rfl := Option.some.inj h
      show Function.update s.index (s.idxPos i) garbage j = garbage
      rw [hl.idxPos, hj, Function.update_self]
    · refine .inr fun s s' hl h => ?_
      obtain rfl := Option.some.inj h
      show Function.update s.index (s.idxPos i) garbage j = s.index j
      rw [hl.idxPos, Function.update_of_ne hj]
  | garbages k =>
    by_cases hk : k = g.garbageIndex keySize
    · refine .inl ⟨id, fun s s' _ h => ?_⟩
      obtain rfl := Option.some.inj h
      rw [hk]
      exact Function.update_self _ _ _
    · refine .inr fun s s' _ h => ?_
      obtain rfl := Option.some.inj h
      exact (Function.update_of_ne hk _ _).trans (Function.update_of_ne hk _ _)
  | bitmap id' =>
    by_cases hid : id' = id
    · refine .inl ⟨0, fun s s' _ h => ?_⟩
      obtain rfl := Option.some.inj h
      show (Function.update s.bitmap id false id').toNat = 0
      rw [hid, Function.update_self]
      rfl
    · refine .inr fun s s' _ h => ?_
      obtain rfl := Option.some.inj h
      show (Function.update s.bitmap id false id').toNat = (s.bitmap id').toNat
      rw [Function.update_of_ne hid]
  | nEntries =>
    refine .inl ⟨nEntries - 1, fun s s' _ h => ?_⟩
    obtain rfl := Option.some.inj h
    rfl
  | nGarbages =>
    refine .inl ⟨nGarbages + 1, fun s s' _ h => ?_⟩
    obtain rfl := Option.some.inj h
    rfl
  | word _ | flag _ | keySize _ | key _ _ | value _ _ => exact decides_entry hf trivial hget
  | _ =>
    refine .inr fun s s' _ h => ?_
    obtain rfl := Option.some.inj h
    rfl

end Groonga.Hash
