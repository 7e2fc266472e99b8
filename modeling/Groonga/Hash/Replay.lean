import Groonga.Hash.Wal

/-!
# Replaying keys

The key of an entry is the one thing that the recovery writes at a place that the log does not tell:
it is the place of the entry if there is one, and otherwise the next one of the key area, which the log
does tell. On the hash from before the run this is the place where the run put the key, and on the hash
from after it the entry has this place already.
-/

namespace Groonga.Hash

open Lib

variable {g : Config} {n s s' r : GrnHash} {source : Option ℕ} {e : WalEntry} {id hashValue off : ℕ}
  {key : List UInt8}

/-! ## Places -/

/-- A new place in the key area. -/
theorem ioEntryPutKey_new (hzero : (s.entries id).keySize = 0) (hpos : 0 < key.length)
    (h : ioEntryPutKey g s id key = some s') : ∃ offset, offset ≤ g.maxTotalKeySize ∧
      s' = { s.setEntry id { s.entries id with key := writeNat (s.entries id).key 0 g.offsetSize offset } with
        currKey := offset + key.length, keys := write s.keys offset key } := by
  rw [ioEntryPutKey, if_neg (by omega)] at h
  by_cases hseg : segmentSize ≤ key.length
  · rw [if_pos hseg] at h
    cases h
  · rw [if_neg hseg] at h
    by_cases hfull : g.maxTotalKeySize - s.currKey < key.length
    · rw [if_pos hfull] at h
      cases h
    · rw [if_neg hfull] at h
      obtain rfl := Option.some.inj h
      refine ⟨_, ?_, rfl⟩
      have hdivmod := Nat.div_add_mod (s.currKey + key.length) segmentSize
      rw [Nat.mul_comm] at hdivmod
      split_ifs <;> omega

/-- The place that was written is read. -/
theorem keyOffset_writeNat {en : Entry} {offset : ℕ} (hle : offset ≤ g.maxTotalKeySize) :
    ({ en with key := writeNat en.key 0 g.offsetSize offset } : Entry).keyOffset g = offset := by
  rw [Entry.keyOffset, readNat_writeNat]
  exact Nat.mod_eq_of_lt (Nat.lt_of_le_of_lt hle (maxTotalKeySize_lt g))

/-- **A key in the key area** is written where `n` has it. -/
theorem put_outside (hio : g.io = true) (hvar : g.varSize = true) (hlong : g.bufSize < key.length)
    (hl : Leads g n (.setEntryKey id key hashValue off) s)
    (h : entryPutKey g { s with currKey := off } id hashValue key = some s') :
    ∃ bytes currKey, s' = { s with
        entries := Function.update s.entries id { s.entries id with
          key := bytes, flag := 0, word := hashValue, keySize := key.length }
        currKey := currKey
        keys := write s.keys ((n.entries id).keyOffset g) key } ∧
      readNat bytes 0 g.offsetSize = (n.entries id).keyOffset g := by
  obtain ⟨hsize, hplace⟩ := hl.2.2.2 hvar
  rw [entryPutKey, if_pos hvar, if_neg (by omega), if_pos hio] at h
  by_cases hkept : 0 < (s.entries id).keySize
  · have hoffset := hl.2.2.1 id ⟨hvar, by omega⟩ hkept
    rw [ioEntryPutKey, if_pos hkept] at h
    obtain rfl := Option.some.inj h
    refine ⟨(s.entries id).key, off, ?_, hoffset⟩
    rw [← hoffset]
    rfl
  · have hzero : (s.entries id).keySize = 0 := by omega
    obtain ⟨s₁, hs₁, hoffset⟩ := (hplace hlong).resolve_left hkept
    have hzero' : (({ s with currKey := off } : GrnHash).entries id).keySize = 0 := hzero
    obtain ⟨offset, hle, rfl⟩ := ioEntryPutKey_new hzero' (Nat.lt_of_le_of_lt (Nat.zero_le _) hlong) hs₁
    have hentry : (({ s with currKey := off } : GrnHash).setEntry id { s.entries id with
        key := writeNat (s.entries id).key 0 g.offsetSize offset }).entries id = { s.entries id with
          key := writeNat (s.entries id).key 0 g.offsetSize offset } := setEntry_self _ _ _
    have hoffset' : offset = (n.entries id).keyOffset g := by
      rw [← hoffset]
      show offset = Entry.keyOffset g ((({ s with currKey := off } : GrnHash).setEntry id { s.entries id with
        key := writeNat (s.entries id).key 0 g.offsetSize offset }).entries id)
      rw [hentry, keyOffset_writeNat hle]
    rw [hs₁] at h
    obtain rfl := Option.some.inj h
    refine ⟨writeNat (s.entries id).key 0 g.offsetSize offset, offset + key.length, ?_, ?_⟩
    · rw [← hoffset']
      simp only [GrnHash.setEntry, Function.update_self, Function.update_idem]
    · rw [readNat_writeNat, ← hoffset']
      exact Nat.mod_eq_of_lt (Nat.lt_of_le_of_lt hle (maxTotalKeySize_lt g))

/-- A key in its entry. -/
theorem put_inside (hin : g.varSize = true → key.length ≤ g.bufSize)
    (h : entryPutKey g { s with currKey := off } id hashValue key = some s') :
    s' = { s with
      entries := Function.update s.entries id (if g.varSize then { s.entries id with
          key := write (s.entries id).key 0 key, flag := 1, word := hashValue, keySize := key.length }
        else if g.keySize = 4 then { s.entries id with word := hashValue }
        else { s.entries id with word := hashValue, key := write (s.entries id).key 0 key })
      currKey := off } := by
  rw [entryPutKey] at h
  cases hvar : g.varSize with
  | true =>
    rw [if_pos hvar, if_pos (hin hvar)] at h
    obtain rfl := Option.some.inj h
    simp only [if_true, GrnHash.setEntry, Function.update_self, Function.update_idem]
  | false =>
    rw [if_neg (by simp [hvar])] at h
    simp only [Bool.false_eq_true, if_false]
    split_ifs at h ⊢
    · obtain rfl := Option.some.inj h
      rfl
    · obtain rfl := Option.some.inj h
      rfl

/-! ## What the entry of a key writes -/

/-- The bytes in the key area belong to one entry. -/
theorem area_apart (hA : AreaInv g n) (hio : g.io = true) {id' j : ℕ} (hne : id' ≠ id) (hout : n.Outside g id)
    (hout' : n.Outside g id') (hj : j < (n.entries id').keySize) {m : ℕ → UInt8}
    (hsize : (n.entries id).keySize = key.length) :
    write m ((n.entries id).keyOffset g) key ((n.entries id').keyOffset g + j) =
      m ((n.entries id').keyOffset g + j) := by
  apply write_of_not_mem
  have happart := hA.apart hio hout.1 id id' (Ne.symm hne) hout.2 hout'.2
  omega

/-- **The entry of a key** writes the bytes of the key. -/
theorem decides_setEntryKey (hA : AreaInv g n) (hio : g.io = true) (id : ℕ) (key : List UInt8)
    (hashValue off : ℕ) (c : Cell) :
    Decides (replay g source) (Leads g n) (n.cell g) (.setEntryKey id key hashValue off) c := by
  by_cases hin : g.varSize = true → key.length ≤ g.bufSize
  · have hf : Writes fun e => if g.varSize then
          { e with key := write e.key 0 key, flag := 1, word := hashValue, keySize := key.length }
        else if g.keySize = 4 then { e with word := hashValue }
        else { e with word := hashValue, key := write e.key 0 key } := by
      cases g.varSize with
      | true => exact ⟨.inl ⟨_, fun _ => rfl⟩, .inl ⟨_, fun _ => rfl⟩, .inl ⟨_, fun _ => rfl⟩,
          fun j => constOrSame_write key Entry.key _ j fun _ => rfl, fun _ => .inr fun _ => rfl⟩
      | false =>
        by_cases hfour : g.keySize = 4
        · simp only [Bool.false_eq_true, if_false, if_pos hfour]
          exact ⟨.inl ⟨_, fun _ => rfl⟩, .inr fun _ => rfl, .inr fun _ => rfl, fun _ => .inr fun _ => rfl,
            fun _ => .inr fun _ => rfl⟩
        · simp only [Bool.false_eq_true, if_false, if_neg hfour]
          exact ⟨.inl ⟨_, fun _ => rfl⟩, .inr fun _ => rfl, .inr fun _ => rfl,
            fun j => constOrSame_write key Entry.key _ j fun _ => rfl, fun _ => .inr fun _ => rfl⟩
    have hget := fun s s' (_ : Leads g n (.setEntryKey id key hashValue off) s)
      (h : replay g source (.setEntryKey id key hashValue off) s = some s') =>
        congrArg GrnHash.entries (put_inside hin h)
    cases c with
    | word _ | flag _ | keySize _ | key _ _ | value _ _ => exact decides_entry hf trivial hget
    | _ =>
      refine .inr fun s s' _ h => ?_
      rw [put_inside hin h]
      rfl
  · push Not at hin
    obtain ⟨hvar, hlong⟩ := hin
    have hparts : ∀ (p : Entry → ℕ) (id' : ℕ) (c : Cell), (∀ s, n.cell g s c = p (s.entries id')) →
        ((∃ v, ∀ (e : Entry) (bytes : ℕ → UInt8), p { e with key := bytes, flag := 0, word := hashValue, keySize := key.length } = v) ∨
          ∀ (e : Entry) (bytes : ℕ → UInt8), p { e with key := bytes, flag := 0, word := hashValue, keySize := key.length } = p e) →
        Decides (replay g source) (Leads g n) (n.cell g) (.setEntryKey id key hashValue off) c := by
      intro p id' c hcell hp
      by_cases hid : id' = id
      · rcases hp with ⟨v, hv⟩ | hsame
        · refine .inl ⟨v, fun s s' hl h => ?_⟩
          obtain ⟨bytes, c, rfl, -⟩ := put_outside hio hvar hlong hl h
          rw [hcell, hid, ← hv (s.entries id) bytes]
          exact congrArg p (Function.update_self _ _ _)
        · refine .inr fun s s' hl h => ?_
          obtain ⟨bytes, c, rfl, -⟩ := put_outside hio hvar hlong hl h
          rw [hcell, hcell, hid, ← hsame (s.entries id) bytes]
          exact congrArg p (Function.update_self _ _ _)
      · refine .inr fun s s' hl h => ?_
        obtain ⟨bytes, c, rfl, -⟩ := put_outside hio hvar hlong hl h
        rw [hcell, hcell]
        exact congrArg p (Function.update_of_ne hid _ _)
    cases c with
    | word id' => exact hparts Entry.word id' _ (fun _ => rfl) (.inl ⟨_, fun _ _ => rfl⟩)
    | flag id' => exact hparts Entry.flag id' _ (fun _ => rfl) (.inl ⟨_, fun _ _ => rfl⟩)
    | keySize id' => exact hparts Entry.keySize id' _ (fun _ => rfl) (.inl ⟨_, fun _ _ => rfl⟩)
    | value id' j => exact hparts (fun e => (e.value j).toNat) id' _ (fun _ => rfl) (.inr fun _ _ => rfl)
    | key id' j =>
      refine .inr fun s s' hl h => ?_
      have hsize := (hl.2.2.2 hvar).1
      obtain ⟨bytes, c, rfl, -⟩ := put_outside hio hvar hlong hl h
      show (if n.Outside g id' then 0 else _) = if n.Outside g id' then 0 else _
      by_cases hout : n.Outside g id'
      · rw [if_pos hout, if_pos hout]
      · have hid : id' ≠ id := by
          rintro rfl
          exact hout ⟨hvar, by omega⟩
        rw [if_neg hout, if_neg hout]
        exact congrArg (fun e => (Entry.key e j).toNat) (Function.update_of_ne hid _ _)
    | area id' j =>
      by_cases hout : n.Outside g id' ∧ j < (n.entries id').keySize
      · by_cases hid : id' = id
        · refine .inl ⟨(key.getD j 0).toNat, fun s s' hl h => ?_⟩
          have hsize := (hl.2.2.2 hvar).1
          obtain ⟨bytes, c, rfl, -⟩ := put_outside hio hvar hlong hl h
          subst hid
          show (if n.Outside g id' ∧ j < (n.entries id').keySize then _ else 0) = _
          rw [if_pos hout]
          show (write s.keys ((n.entries id').keyOffset g) key ((n.entries id').keyOffset g + j)).toNat = _
          rw [write, if_pos (by omega), Nat.add_sub_cancel_left]
        · refine .inr fun s s' hl h => ?_
          have hsize := (hl.2.2.2 hvar).1
          obtain ⟨bytes, c, rfl, -⟩ := put_outside hio hvar hlong hl h
          show (if n.Outside g id' ∧ j < (n.entries id').keySize then _ else 0) =
            if n.Outside g id' ∧ j < (n.entries id').keySize then _ else 0
          rw [if_pos hout, if_pos hout]
          exact congrArg UInt8.toNat (area_apart hA hio hid ⟨hvar, by omega⟩ hout.1 hout.2 hsize)
      · refine .inr fun s s' hl h => ?_
        show (if n.Outside g id' ∧ j < (n.entries id').keySize then _ else 0) =
          if n.Outside g id' ∧ j < (n.entries id').keySize then _ else 0
        rw [if_neg hout, if_neg hout]
    | _ =>
      refine .inr fun s s' hl h => ?_
      obtain ⟨bytes, c, rfl, -⟩ := put_outside hio hvar hlong hl h
      rfl

/-- **Every entry of the log decides what it does to a cell.** -/
theorem decides (hA : AreaInv g n) (hio : g.io = true) (e : WalEntry) (c : Cell) :
    Decides (replay g source) (Leads g n) (n.cell g) e c := by
  cases e with
  | addEntry => exact decides_addEntry _ _ _ c
  | reuseEntry => exact decides_reuseEntry _ _ _ _ _ _ c
  | resetEntry => exact decides_resetEntry _ _ _ c
  | enableEntry => exact decides_enableEntry _ c
  | setEntryKey => exact decides_setEntryKey hA hio _ _ _ _ c
  | deleteEntry => exact decides_deleteEntry _ _ _ _ _ _ c
  | rehash => exact .inr fun _ _ hl => hl.2.2.2.elim
  | setValue => exact decides_setValue _ _ c

end Groonga.Hash
