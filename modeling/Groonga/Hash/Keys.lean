import Groonga.Hash.Ledger

/-!
# Putting a key

The key of a new entry goes into the entry or to the key area. It is read again there, and the keys
of the other entries are read as before, also those of deleted entries.
-/

namespace Groonga.Hash

open Lib

variable {g : Config} {s s' : GrnHash} {id : ℕ} {key : List UInt8}

/-! ## Places -/

/-- There is room for the key of an entry: it needs none, the entry has a place for a key of this
size, or the rest of the key area suffices. -/
def GrnHash.KeyRoom (g : Config) (s : GrnHash) (keySize : ℕ) (key : List UInt8) : Prop :=
  g.io = true → g.varSize = true → g.bufSize < key.length →
    0 < keySize ∨ key.length ≤ g.maxTotalKeySize - s.currKey

theorem maxTotalKeySize_lt (g : Config) : g.maxTotalKeySize < 256 ^ g.offsetSize := by
  rw [Config.maxTotalKeySize, Config.offsetSize]
  cases g.keyLarge <;> decide

/-- The total size of keys is a number of segments, less one byte. -/
theorem exists_maxTotalKeySize (g : Config) : ∃ n, g.maxTotalKeySize + 1 = segmentSize * n := by
  rw [Config.maxTotalKeySize, segmentSize]
  cases g.keyLarge
  · exact ⟨0x400, rfl⟩
  · exact ⟨0x40000, rfl⟩

/-- A key that was accepted fits into a segment. -/
theorem Config.Accepts.length_le (h : g.Accepts key) : key.length ≤ 0xffff := by
  have hle := g.keySize_le
  have hlength := h.2
  rw [maxKeySizeLarge] at hle
  rw [Config.Fits] at hlength
  cases hvar : g.varSize with
  | true =>
    rw [if_pos hvar] at hlength
    omega
  | false =>
    rw [if_neg (by simp [hvar])] at hlength
    omega

theorem Config.Accepts.pos (h : g.Accepts key) : 0 < key.length := List.length_pos_of_ne_nil h.1

/-! ## The result -/

/-- The key is in the entry, and nothing else changed. -/
structure KeyPut (g : Config) (s s' : GrnHash) (id : ℕ) (key : List UInt8) : Prop where
  same : s' = { s with entries := s'.entries, currKey := s'.currKey, keys := s'.keys }
  others : ∀ id', id' ≠ id → s'.entries id' = s.entries id'
  word : (s'.entries id).word = g.hashValue key
  value : (s'.entries id).value = (s.entries id).value
  keySize : g.varSize = true → (s'.entries id).keySize = key.length
  getKey : s'.getKey g id = key
  keep : ∀ id', id' ≠ id → s'.getKey g id' = s.getKey g id'
  areas : AreaInv g s'

@[simp] theorem setEntry_self (s : GrnHash) (id : ℕ) (e : Entry) : (s.setEntry id e).entries id = e :=
  Function.update_self _ _ _

theorem setEntry_of_ne {id' : ℕ} (h : id' ≠ id) (e : Entry) : (s.setEntry id e).entries id' = s.entries id' :=
  Function.update_of_ne h _ _

/-- A key of a fixed size, and a key in memory of its own, are put into the entry. -/
theorem keyPut_setEntry (hA : AreaInv g s) (hid : id ≤ s.currRec) {e : Entry}
    (hplain : g.varSize = true → g.io = false)
    (hword : e.word = g.hashValue key) (hvalue : e.value = (s.entries id).value)
    (hsize : g.varSize = true → e.keySize = key.length)
    (himm : g.varSize = true → 0 < e.keySize → (e.isImmediate = true ↔ e.keySize ≤ g.bufSize))
    (hkey : s.keyBytes g e (e.getKeySize g) = key) : KeyPut g s (s.setEntry id e) id key where
  same := rfl
  others id' h := setEntry_of_ne h e
  word := by rw [setEntry_self, hword]
  value := by rw [setEntry_self, hvalue]
  keySize hvar := by rw [setEntry_self, hsize hvar]
  getKey := by
    rw [GrnHash.getKey, setEntry_self]
    exact hkey
  keep id' h := by
    rw [GrnHash.getKey, GrnHash.getKey, setEntry_of_ne h]
    rfl
  areas := by
    refine ⟨fun id' h => ?_, hA.le, fun hvar id' => ?_, fun hio hvar => ?_, fun hio hvar => ?_⟩
    · have hne : id' ≠ id := by
        rintro rfl
        exact Nat.not_lt.mpr hid h
      rw [setEntry_of_ne hne]
      exact hA.fresh id' h
    · by_cases heq : id' = id
      · rw [heq, setEntry_self]
        exact himm hvar
      · rw [setEntry_of_ne heq]
        exact hA.immediate hvar id'
    · rw [hplain hvar] at hio
      cases hio
    · rw [hplain hvar] at hio
      cases hio

/-- **A key of variable size in a hash with a file** is put at its place, when the place is apart from
those of all other entries. -/
theorem keyPut_area (hA : AreaInv g s) (hid : id ≤ s.currRec) (hio : g.io = true)
    (hvar : g.varSize = true) {e : Entry} {offset currKey : ℕ} (hword : e.word = g.hashValue key)
    (hvalue : e.value = (s.entries id).value) (hsize : e.keySize = key.length)
    (hlong : g.bufSize < key.length) (hflag : e.flag = 0) (hplace : e.keyOffset g = offset)
    (hle : s.currKey ≤ currKey) (hmax : currKey ≤ g.maxTotalKeySize) (hin : offset + key.length ≤ currKey)
    (hapart : ∀ id', id' ≠ id → g.bufSize < (s.entries id').keySize →
      (s.entries id').keyOffset g + (s.entries id').keySize ≤ offset ∨
        offset + key.length ≤ (s.entries id').keyOffset g) :
    KeyPut g s { s.setEntry id e with currKey := currKey, keys := write s.keys offset key } id key where
  same := rfl
  others id' h := setEntry_of_ne h e
  word := by
    show ((s.setEntry id e).entries id).word = _
    rw [setEntry_self, hword]
  value := by
    show ((s.setEntry id e).entries id).value = _
    rw [setEntry_self, hvalue]
  keySize _ := by
    show ((s.setEntry id e).entries id).keySize = _
    rw [setEntry_self, hsize]
  getKey := by
    show GrnHash.keyBytes g _ ((s.setEntry id e).entries id) (((s.setEntry id e).entries id).getKeySize g) = key
    rw [setEntry_self, Entry.getKeySize, if_pos hvar, hsize, GrnHash.keyBytes, if_pos hvar,
      if_neg (by simp [Entry.isImmediate, hflag]), if_pos hio, hplace]
    exact read_write _ _ _
  keep id' h := by
    show GrnHash.keyBytes g _ ((s.setEntry id e).entries id') (((s.setEntry id e).entries id').getKeySize g) = _
    rw [setEntry_of_ne h, GrnHash.getKey, GrnHash.keyBytes, GrnHash.keyBytes, if_pos hvar, if_pos hvar,
      if_pos hio, if_pos hio, Entry.getKeySize, if_pos hvar]
    split_ifs with himm
    · rfl
    · refine read_congr fun u hu hu' => write_of_not_mem ?_
      have hbig : g.bufSize < (s.entries id').keySize := by
        by_contra hsmall
        exact himm ((hA.immediate hvar id' (by omega)).mpr (by omega))
      have := hapart id' h hbig
      omega
  areas := by
    refine ⟨fun id' h => ?_, hmax, fun _ id' => ?_, fun _ _ id' => ?_, fun _ _ i j hij => ?_⟩
    · have hne : id' ≠ id := by
        rintro rfl
        exact Nat.not_lt.mpr hid h
      show (s.setEntry id e).entries id' = _
      rw [setEntry_of_ne hne]
      exact hA.fresh id' h
    · show 0 < ((s.setEntry id e).entries id').keySize → (((s.setEntry id e).entries id').isImmediate = true ↔
        ((s.setEntry id e).entries id').keySize ≤ g.bufSize)
      by_cases heq : id' = id
      · rw [heq, setEntry_self, hsize]
        intro _
        refine iff_of_false ?_ (by omega)
        simp [Entry.isImmediate, hflag]
      · rw [setEntry_of_ne heq]
        exact hA.immediate hvar id'
    · show g.bufSize < ((s.setEntry id e).entries id').keySize →
        ((s.setEntry id e).entries id').keyOffset g + ((s.setEntry id e).entries id').keySize ≤ currKey
      by_cases heq : id' = id
      · rw [heq, setEntry_self, hsize, hplace]
        exact fun _ => hin
      · rw [setEntry_of_ne heq]
        exact fun h => Nat.le_trans (hA.below hio hvar id' h) hle
    · show g.bufSize < ((s.setEntry id e).entries i).keySize →
        g.bufSize < ((s.setEntry id e).entries j).keySize →
        ((s.setEntry id e).entries i).keyOffset g + ((s.setEntry id e).entries i).keySize ≤
            ((s.setEntry id e).entries j).keyOffset g ∨
          ((s.setEntry id e).entries j).keyOffset g + ((s.setEntry id e).entries j).keySize ≤
            ((s.setEntry id e).entries i).keyOffset g
      by_cases hi : i = id
      · rw [hi, setEntry_self, setEntry_of_ne (fun h => hij (hi.trans h.symm)), hsize, hplace]
        exact fun _ h => (hapart j (fun h => hij (hi.trans h.symm)) h).symm
      · by_cases hj : j = id
        · rw [hj, setEntry_self, setEntry_of_ne hi, hsize, hplace]
          exact fun h _ => hapart i hi h
        · rw [setEntry_of_ne hi, setEntry_of_ne hj]
          exact hA.apart hio hvar i j hij

/-- A key of variable size that fits into its entry. -/
theorem keyPut_immediate (hA : AreaInv g s) (hid : id ≤ s.currRec) (hvar : g.varSize = true) {e : Entry}
    (hword : e.word = g.hashValue key) (hvalue : e.value = (s.entries id).value)
    (hsize : e.keySize = key.length) (hshort : key.length ≤ g.bufSize) (hflag : e.flag = 1)
    (hbytes : read e.key 0 key.length = key) : KeyPut g s (s.setEntry id e) id key where
  same := rfl
  others id' h := setEntry_of_ne h e
  word := by rw [setEntry_self, hword]
  value := by rw [setEntry_self, hvalue]
  keySize _ := by rw [setEntry_self, hsize]
  getKey := by
    rw [GrnHash.getKey, setEntry_self, Entry.getKeySize, if_pos hvar, hsize, GrnHash.keyBytes, if_pos hvar,
      if_pos (by simp [Entry.isImmediate, hflag]), hbytes]
  keep id' h := by
    rw [GrnHash.getKey, GrnHash.getKey, setEntry_of_ne h]
    rfl
  areas := by
    refine ⟨fun id' h => ?_, hA.le, fun _ id' => ?_, fun hio _ id' => ?_, fun hio _ i j hij => ?_⟩
    · have hne : id' ≠ id := by
        rintro rfl
        exact Nat.not_lt.mpr hid h
      rw [setEntry_of_ne hne]
      exact hA.fresh id' h
    · by_cases heq : id' = id
      · rw [heq, setEntry_self, hsize]
        intro _
        exact iff_of_true (by simp [Entry.isImmediate, hflag]) hshort
      · rw [setEntry_of_ne heq]
        exact hA.immediate hvar id'
    · by_cases heq : id' = id
      · rw [heq, setEntry_self, hsize]
        exact fun h => absurd hshort (by omega)
      · rw [setEntry_of_ne heq]
        exact hA.below hio hvar id'
    · by_cases hi : i = id
      · rw [hi, setEntry_self, hsize]
        exact fun h => absurd hshort (by omega)
      · by_cases hj : j = id
        · rw [hj, setEntry_self, hsize]
          exact fun _ h => absurd hshort (by omega)
        · rw [setEntry_of_ne hi, setEntry_of_ne hj]
          exact hA.apart hio hvar i j hij

/-! ## `grn_hash_entry_put_key` -/

/-- **A key is put** when there is room for it. -/
theorem entryPutKey_spec (hA : AreaInv g s) (hid : id ≤ s.currRec) (haccepts : g.Accepts key)
    (hsize : g.io = true → g.varSize = true →
      (s.entries id).keySize = 0 ∨ (s.entries id).keySize = key.length)
    (hroom : s.KeyRoom g (s.entries id).keySize key) :
    ∃ s', entryPutKey g s id (g.hashValue key) key = some s' ∧ KeyPut g s s' id key := by
  have hlength := haccepts.length_le
  have hpos := haccepts.pos
  cases hvar : g.varSize with
  | true =>
    rw [entryPutKey, if_pos hvar]
    by_cases hshort : key.length ≤ g.bufSize
    · refine ⟨_, if_pos hshort, ?_⟩
      have hput := keyPut_immediate hA hid hvar
        (e := { s.entries id with
          key := write (s.entries id).key 0 key, flag := 1, word := g.hashValue key, keySize := key.length })
        rfl rfl rfl hshort rfl (read_write _ _ _)
      convert hput using 1
      simp only [GrnHash.setEntry, Function.update_self, Function.update_idem]
    · rw [if_neg hshort]
      cases hio : g.io with
      | false =>
        refine ⟨_, if_neg Bool.false_ne_true, ?_⟩
        have hput := keyPut_setEntry hA hid (e := { s.entries id with
            pointed := key, flag := 0, word := g.hashValue key, keySize := key.length })
          (fun _ => hio) rfl rfl (fun _ => rfl)
          (fun _ _ => iff_of_false (by simp [Entry.isImmediate]) hshort) (by
            rw [Entry.getKeySize, if_pos hvar, GrnHash.keyBytes, if_pos hvar,
              if_neg (by simp [Entry.isImmediate]), if_neg (by simp [hio]), List.take_length])
        convert hput using 1
        simp only [GrnHash.setEntry, Function.update_self, Function.update_idem]
      | true =>
        rw [if_pos rfl, ioEntryPutKey]
        by_cases hkept : 0 < (s.entries id).keySize
        · -- the place of the key that was deleted
          have hsame : (s.entries id).keySize = key.length := by
            rcases hsize hio hvar with hzero | hsame
            · omega
            · exact hsame
          refine ⟨_, by rw [if_pos hkept]; rfl, ?_⟩
          have hbelow := hA.below hio hvar id (by omega)
          rw [hsame] at hbelow
          have hput := keyPut_area hA hid hio hvar (e := { s.entries id with
              flag := 0, word := g.hashValue key, keySize := key.length })
            rfl rfl rfl (by omega) rfl rfl (Nat.le_refl _) hA.le hbelow fun id' hne hbig => by
              have := hA.apart hio hvar id' id hne hbig (by omega)
              rwa [hsame] at this
          exact hput
        · have hnew := (hroom hio hvar (by omega)).resolve_left hkept
          have hseg : ¬ segmentSize ≤ key.length := by
            rw [segmentSize]
            omega
          obtain ⟨n, hn⟩ := exists_maxTotalKeySize g
          have hle := hA.le
          -- the place is behind all others and does not cross a border of segments
          have hoffset : ∀ offset, offset = (if s.currKey / segmentSize ≠ (s.currKey + key.length) / segmentSize then
              (s.currKey + key.length) / segmentSize * segmentSize else s.currKey) →
              s.currKey ≤ offset ∧ offset + key.length ≤ g.maxTotalKeySize := by
            intro offset heq
            have hdivmod := Nat.div_add_mod s.currKey segmentSize
            have hdivmod' := Nat.div_add_mod (s.currKey + key.length) segmentSize
            have hmodlt := Nat.mod_lt s.currKey (show 0 < segmentSize by decide)
            rw [Nat.mul_comm] at hdivmod hdivmod'
            split_ifs at heq with hne
            · have hdivle : s.currKey / segmentSize ≤ (s.currKey + key.length) / segmentSize :=
                Nat.div_le_div_right (Nat.le_add_right _ _)
              have hstep : s.currKey / segmentSize + 1 ≤ (s.currKey + key.length) / segmentSize := by omega
              have hmul := Nat.mul_le_mul_right segmentSize hstep
              rw [Nat.add_mul, Nat.one_mul] at hmul
              have hbelow : (s.currKey + key.length) / segmentSize < n := by
                apply Nat.div_lt_of_lt_mul
                rw [← hn]
                omega
              have htop := Nat.mul_le_mul_right segmentSize (Nat.succ_le_of_lt hbelow)
              rw [Nat.succ_eq_add_one, Nat.add_mul, Nat.one_mul, Nat.mul_comm n, ← hn] at htop
              rw [heq]
              constructor
              · omega
              · rw [segmentSize] at htop hseg ⊢
                omega
            · omega
          obtain ⟨hfrom, hto⟩ := hoffset _ rfl
          refine ⟨_, by rw [if_neg hkept, if_neg hseg, if_neg (by omega)]; rfl, ?_⟩
          have hput := keyPut_area hA hid hio hvar
            (e := { s.entries id with
              key := writeNat (s.entries id).key 0 g.offsetSize
                (if s.currKey / segmentSize ≠ (s.currKey + key.length) / segmentSize then
                  (s.currKey + key.length) / segmentSize * segmentSize else s.currKey)
              flag := 0, word := g.hashValue key, keySize := key.length })
            rfl rfl rfl (by omega) rfl
            (by
              rw [Entry.keyOffset, readNat_writeNat]
              exact Nat.mod_eq_of_lt (Nat.lt_of_le_of_lt (by omega) (maxTotalKeySize_lt g)))
            (by omega) hto (Nat.le_refl _) fun id' hne hbig => by
              have := hA.below hio hvar id' hbig
              exact .inl (by omega)
          convert hput using 1
          simp only [GrnHash.setEntry, Function.update_self, Function.update_idem]
  | false =>
    rw [entryPutKey, if_neg (by simp [hvar])]
    have hsizeEq : key.length = g.keySize := by
      have := haccepts.2
      rwa [Config.Fits, if_neg (by simp [hvar])] at this
    have hno : g.varSize = true → False := fun h => by rw [hvar] at h; cases h
    by_cases hfour : g.keySize = 4
    · refine ⟨_, if_pos hfour, keyPut_setEntry hA hid (fun h => (hno h).elim) rfl rfl
        (fun h => (hno h).elim) (fun h => (hno h).elim) ?_⟩
      rw [Entry.getKeySize, if_neg (by simp [hvar]), GrnHash.keyBytes, if_neg (by simp [hvar]), if_pos hfour,
        Config.hashValue, if_pos ⟨by simp [hvar], hsizeEq.trans hfour⟩, ← hfour, ← hsizeEq, leBytes_leNat,
        List.take_length]
    · refine ⟨_, if_neg hfour, keyPut_setEntry hA hid (fun h => (hno h).elim) rfl rfl
        (fun h => (hno h).elim) (fun h => (hno h).elim) ?_⟩
      rw [Entry.getKeySize, if_neg (by simp [hvar]), GrnHash.keyBytes, if_neg (by simp [hvar]), if_neg hfour,
        ← hsizeEq]
      exact read_write _ _ _

end Groonga.Hash
