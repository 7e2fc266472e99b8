import Groonga.Hash.Index
import Groonga.Lib.Chain

/-!
# The invariant of a hash

The bit of an id is on when the id is in the table. The ids whose bits are off are in the lists of
deleted entries, and an entry there has kept the size of its key. The places in the key area do not
overlap. Each entry in the table has a key of its own, and is reached from the hash value of this
key.
-/

namespace Groonga.Hash

open Lib

/-! ## Parts of the invariant -/

/-- The table: it holds the entries, counts them, and a slot is nil. -/
structure TableInv (g : Config) (s : GrnHash) : Prop where
  sized : s.Sized
  offset : s.idxOffset = 0 ∨ (g.io = true ∧ s.idxOffset = maxIndexSize)
  holds : s.slots.Holds garbage (fun id => (s.entries id).word) calculateStep
  entries : s.slots.count (isEntry garbage) = s.nEntries
  tombs : s.slots.count (· == garbage) ≤ s.nGarbages
  nil : ∃ slot < s.slots.n, s.slots.at' slot = 0
  live : ∀ id, isEntry garbage id = true → (s.slots.Has id ↔ s.bitmap id = true)

/-- The lists of deleted entries. Without a file there is one list, and every id that is not in the
table is there. -/
structure ListsInv (g : Config) (s : GrnHash) (lists : ℕ → List ℕ) : Prop where
  chain : ∀ k, Chain (fun id => (s.entries id).word) (s.garbages k) (lists k)
  nodup : ∀ k, (lists k).Nodup
  apart : ∀ k, ∀ id ∈ lists k, ∀ k', id ∈ lists k' → k' = k
  free : ∀ k, ∀ id ∈ lists k, 0 < id ∧ id ≤ s.currRec ∧ s.bitmap id = false
  size : g.io = true → g.varSize = true → ∀ k, ∀ id ∈ lists k, (s.entries id).keySize = k + 1
  total : g.io = false → s.currRec = s.nEntries + (lists 0).length

/-- The places of keys. -/
structure AreaInv (g : Config) (s : GrnHash) : Prop where
  fresh : ∀ id, s.currRec < id → s.entries id = Entry.zero
  le : s.currKey ≤ g.maxTotalKeySize
  immediate : g.varSize = true → ∀ id, 0 < (s.entries id).keySize →
    ((s.entries id).isImmediate = true ↔ (s.entries id).keySize ≤ g.bufSize)
  below : g.io = true → g.varSize = true → ∀ id, g.bufSize < (s.entries id).keySize →
    (s.entries id).keyOffset g + (s.entries id).keySize ≤ s.currKey
  apart : g.io = true → g.varSize = true → ∀ id id', id ≠ id' → g.bufSize < (s.entries id).keySize →
    g.bufSize < (s.entries id').keySize →
    (s.entries id).keyOffset g + (s.entries id).keySize ≤ (s.entries id').keyOffset g ∨
      (s.entries id').keyOffset g + (s.entries id').keySize ≤ (s.entries id).keyOffset g

/-- The entries in the table have keys. -/
structure KeysInv (g : Config) (s : GrnHash) : Prop where
  ids : ∀ id, s.bitmap id = true → 0 < id ∧ id ≤ s.currRec
  length : ∀ id, s.bitmap id = true → (s.getKey g id).length = (s.entries id).getKeySize g
  accepts : ∀ id, s.bitmap id = true → g.Accepts (s.getKey g id)
  word : ∀ id, s.bitmap id = true → (s.entries id).word = g.hashValue (s.getKey g id)
  inj : ∀ id id', s.bitmap id = true → s.bitmap id' = true → s.getKey g id = s.getKey g id' → id = id'

/-- **The invariant of a hash.** -/
structure Inv (g : Config) (s : GrnHash) : Prop where
  table : TableInv g s
  lists : ∃ lists, ListsInv g s lists
  areas : AreaInv g s
  keys : KeysInv g s
  currRec_le : s.currRec ≤ idMax

variable {g : Config} {s s' : GrnHash} {id i k : ℕ} {key : List UInt8}

/-! ## Ids -/

theorem garbage_ne_zero : garbage ≠ 0 := by decide

/-- An id is neither nil nor `GARBAGE`. -/
theorem isEntry_of_le (hpos : 0 < id) (hle : id ≤ 0x7fffffff) : isEntry garbage id = true := by
  rw [isEntry_iff]
  refine ⟨Nat.ne_of_gt hpos, ?_⟩
  rw [garbage]
  omega

/-- The table has at most as many entries as slots. -/
theorem TableInv.nEntries_le (hT : TableInv g s) : s.nEntries ≤ 0x20000000 := by
  obtain ⟨m, hm, hn⟩ := hT.sized
  have hle := Slots.count_le (t := s.slots) (isEntry garbage)
  rw [hT.entries] at hle
  have hpow : 2 ^ m ≤ 2 ^ 29 := Nat.pow_le_pow_right (by decide) hm
  have hn' : s.slots.n = 2 ^ m := hn
  omega

/-- **There is an id for another entry** in a hash without a file when no entry is left over. -/
theorem Inv.currRec_lt (hI : Inv g s) (hio : g.io = false) (hempty : s.garbages 0 = 0) :
    s.currRec < idMax := by
  obtain ⟨lists, hL⟩ := hI.lists
  have hnil : lists 0 = [] := by
    have hchain := hL.chain 0
    rw [hempty] at hchain
    cases hlist : lists 0 with
    | nil => rfl
    | cons x xs =>
      rw [hlist] at hchain
      obtain ⟨rfl, hne, -⟩ := hchain
      exact absurd rfl hne
  have htotal := hL.total hio
  have hle := hI.table.nEntries_le
  rw [hnil, List.length_nil] at htotal
  rw [idMax]
  omega

/-! ## Keys -/

/-- **An entry in the table is compared by its key.** -/
theorem KeysInv.compareKey_iff (hK : KeysInv g s) (hlive : s.bitmap id = true) (hfits : g.Fits key) :
    s.compareKey g id (g.hashValue key) key = true ↔ s.getKey g id = key := by
  have hlength := hK.length id hlive
  have hword := hK.word id hlive
  have hok := hK.accepts id hlive
  rw [GrnHash.compareKey]
  cases hvar : g.varSize with
  | true =>
    simp only [if_true, Bool.and_eq_true, decide_eq_true_eq]
    have hgetSize : (s.entries id).getKeySize g = (s.entries id).keySize := if_pos hvar
    constructor
    · rintro ⟨⟨-, hsize⟩, hbytes⟩
      rw [GrnHash.getKey, hgetSize, hsize]
      exact hbytes
    · rintro rfl
      rw [hgetSize] at hlength
      refine ⟨⟨hword, hlength.symm⟩, ?_⟩
      rw [hlength, GrnHash.getKey, hgetSize]
  | false =>
    have hgetSize : (s.entries id).getKeySize g = g.keySize := if_neg (by simp [hvar])
    have hkeyLength : key.length = g.keySize := by
      rwa [Config.Fits, if_neg (by simp [hvar])] at hfits
    simp only [Bool.false_eq_true, if_false, Bool.and_eq_true, decide_eq_true_eq, Bool.or_eq_true]
    by_cases hfour : g.keySize = 4
    · have hbytes : s.getKey g id = leBytes 4 (s.entries id).word := by
        rw [GrnHash.getKey, hgetSize, GrnHash.keyBytes, if_neg (by simp [hvar]), if_pos hfour, hfour]
        exact List.take_of_length_le (by simp)
      have hvalue : g.hashValue key = leNat key := if_pos ⟨by simp [hvar], hkeyLength.trans hfour⟩
      constructor
      · rintro ⟨heq, -⟩
        rw [hbytes, heq, hvalue, ← hfour, ← hkeyLength, leBytes_leNat]
      · rintro rfl
        exact ⟨hword, .inl (hkeyLength.trans hfour)⟩
    · have hbytes : s.getKey g id = s.keyBytes g (s.entries id) key.length := by
        rw [GrnHash.getKey, hgetSize, hkeyLength]
      constructor
      · rintro ⟨-, hlen | heq⟩
        · exact absurd (hkeyLength.symm.trans hlen) hfour
        · rw [hbytes, heq]
      · rintro rfl
        exact ⟨hword, .inr hbytes.symm⟩

/-! ## Looking for a key -/

/-- A slot of the table. -/
theorem TableInv.has_contentAt (hT : TableInv g s) (key : List UInt8) (k : ℕ) :
    s.slots.Has (s.contentAt g key k) := ⟨_, probeAt_lt hT.sized.n_pos _ _ _, rfl⟩

/-- An entry in the table is live. -/
theorem TableInv.bitmap_of_has (hT : TableInv g s) (hentry : isEntry garbage id = true)
    (hhas : s.slots.Has id) : s.bitmap id = true := (hT.live id hentry).mp hhas

/-- A live id is an entry in the table. -/
theorem Inv.isEntry (hI : Inv g s) (hlive : s.bitmap id = true) : isEntry garbage id = true := by
  obtain ⟨hpos, hle⟩ := hI.keys.ids id hlive
  have hmax := hI.currRec_le
  rw [idMax] at hmax
  exact isEntry_of_le hpos (by omega)

/-- Where the loops stop: at nil or at a live entry with the key. -/
theorem Inv.stopsAtKey_iff (hI : Inv g s) (hfits : g.Fits key) {c : ℕ} (hhas : s.slots.Has c) :
    s.stopsAtKey g key c = true ↔ c = 0 ∨ (s.bitmap c = true ∧ s.getKey g c = key) := by
  by_cases hzero : c = 0
  · simp [GrnHash.stopsAtKey, hzero]
  · by_cases hgarbage : c = garbage
    · subst hgarbage
      have hdead : s.bitmap garbage = false := by
        cases hlive : s.bitmap garbage with
        | false => rfl
        | true => exact absurd rfl (isEntry_iff.mp (hI.isEntry hlive)).2
      simp [GrnHash.stopsAtKey, garbage_ne_zero, hdead]
    · have hlive := hI.table.bitmap_of_has (isEntry_iff.mpr ⟨hzero, hgarbage⟩) hhas
      simp [GrnHash.stopsAtKey, hzero, hgarbage, hlive, hI.keys.compareKey_iff hlive hfits]

/-- **A search for a key that is live ends at its entry.** -/
theorem Inv.contentAt_eq (hI : Inv g s) (hfits : g.Fits key) (hlive : s.bitmap id = true)
    (hkey : s.getKey g id = key) {fuel j : ℕ}
    (hj : firstFrom (fun k => s.stopsAtKey g key (s.contentAt g key k)) fuel 0 = some j) :
    s.contentAt g key j = id := by
  have hentry := hI.isEntry hlive
  have hhas := (hI.table.live id hentry).mpr hlive
  have hreach := hI.table.holds.reach id hentry hhas
  rw [hI.keys.word id hlive, hkey] at hreach
  refine hreach.firstFrom (s.stopsAtKey g key) hI.table.sized.n_pos
    ((hI.stopsAtKey_iff hfits hhas).mpr (.inr ⟨hlive, hkey⟩)) (fun c hc hstop => ?_) hj
  rcases (hI.stopsAtKey_iff hfits hc).mp hstop with hzero | ⟨hlive', hkey'⟩
  · exact .inl hzero
  · exact .inr (hI.keys.inj c id hlive' hlive (hkey'.trans hkey.symm))

/-- **Looking for a key** ends, at the live entry with the key or at nil when there is none. -/
theorem Inv.probe_key (hI : Inv g s) (hfits : g.Fits key) :
    ∃ i id, s.probe (g.hashValue key) (s.stopsAtKey g key) = some (i, id) ∧ s.idxAt i = id ∧
      ((id = 0 ∧ ∀ id', s.bitmap id' = true → s.getKey g id' ≠ key) ∨
        (s.bitmap id = true ∧ s.getKey g id = key)) := by
  obtain ⟨k, i, hfirst, heq, hprobes⟩ :=
    hI.table.sized.probe_ends hI.table.nil (s.stopsAtKey g key) rfl (g.hashValue key)
  refine ⟨i, _, heq, ?_, ?_⟩
  · rw [hI.table.sized.idxAt_eq, hprobes]
  · have hstop := (firstFrom_eq_some_iff.mp hfirst).2.2.1
    rcases (hI.stopsAtKey_iff hfits (hI.table.has_contentAt key k)).mp hstop with hzero | hlive
    · refine .inl ⟨hzero, fun id' hlive' hkey => ?_⟩
      have hid := hI.contentAt_eq hfits hlive' hkey hfirst
      have hne := (isEntry_iff.mp (hI.isEntry hlive')).1
      exact hne (hid.symm.trans hzero)
    · exact .inr hlive

/-- **Looking for a live id** ends at its slot. -/
theorem Inv.probe_id (hI : Inv g s) (hlive : s.bitmap id = true) :
    ∃ i, s.probe (s.entries id).word (stopsAtId id) = some (i, id) ∧ s.idxAt i = id := by
  obtain ⟨k, i, hfirst, heq, hprobes⟩ :=
    hI.table.sized.probe_ends hI.table.nil (stopsAtId id) rfl (s.entries id).word
  have hentry := hI.isEntry hlive
  have hreach := hI.table.holds.reach id hentry ((hI.table.live id hentry).mpr hlive)
  have hat := hreach.firstFrom (stopsAtId id) hI.table.sized.n_pos (by simp [stopsAtId])
    (fun c _ hstop => by simpa [stopsAtId] using hstop) hfirst
  rw [hat] at heq
  refine ⟨i, heq, ?_⟩
  rw [hI.table.sized.idxAt_eq, hprobes]
  exact hat

/-- Looking for an id that is not in the table ends at nil. -/
theorem Inv.probe_id_of_dead (hI : Inv g s) (hdead : s.bitmap id = false) (hne : id ≠ garbage) :
    ∃ i, s.probe (s.entries id).word (stopsAtId id) = some (i, 0) := by
  obtain ⟨k, i, hfirst, heq, hprobes⟩ :=
    hI.table.sized.probe_ends hI.table.nil (stopsAtId id) rfl (s.entries id).word
  have hstop := (firstFrom_eq_some_iff.mp hfirst).2.2.1
  have hzero : s.slots.at' (probeAt s.slots.n (s.entries id).word (calculateStep (s.entries id).word) k) = 0 := by
    by_contra hno
    have hid : s.slots.at' (probeAt s.slots.n (s.entries id).word (calculateStep (s.entries id).word) k) = id := by
      simpa [stopsAtId, hno] using hstop
    have hlive := hI.table.bitmap_of_has (isEntry_iff.mpr ⟨hid ▸ hno, hne⟩)
      ⟨_, probeAt_lt hI.table.sized.n_pos _ _ _, hid⟩
    rw [hdead] at hlive
    cases hlive
  rw [hzero] at heq
  exact ⟨i, heq⟩

end Groonga.Hash
