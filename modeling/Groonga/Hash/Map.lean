import Groonga.Hash.Consecutive

/-!
# Hashes as maps

As long as there is room for what is added, every loop of a hash ends, and the hash is the map that
its operations describe. The room is always there when the domain is no table and the table is not as
large as possible: the table is hashed again when it is half full. With a table as the domain the
last nil slot is taken too, and looking for another key does not end.
-/

namespace Groonga.Hash

open Lib

variable {g : Config} {s : GrnHash} {M : KeyMap}

/-! ## Room -/

/-- **There is always a slot** for a key when the domain is no table, until the table is as large as
possible. -/
theorem slotRoom_of_not_maybeTable (hI : Inv g s) (hplain : g.maybeTable = false) (hpos : 0 < s.maxOffset)
    (hmax : s.maxOffset ≠ maxIndexSize - 1) (key : List UInt8) :
    s.Rehashes (addThreshold g s) ∨ s.SlotRoom g key := by
  by_cases hlt : s.maxOffset < addThreshold g s
  · exact .inl ⟨hlt, hmax⟩
  · have htombs := hI.table.tombs
    rw [addThreshold, if_neg (by simp [hplain])] at hlt
    exact .inr (.inr (.inr (by omega)))

/-! ## Probing -/

/-- **Probing ends**: a slot is nil, the probes of every hash value look at every slot, and every loop
ends. -/
structure ProbingEnds (g : Config) (s : GrnHash) : Prop where
  nil : ∃ slot ≤ s.maxOffset, s.index (slot + s.idxOffset) = 0
  visits : ∀ hashValue, ∀ slot ≤ s.maxOffset, ∃ i ≤ s.maxOffset,
    (hashValue + i * calculateStep hashValue) % (s.maxOffset + 1) = slot
  ends : ∀ hashValue stop, stop 0 = true → (s.probe hashValue stop).isSome
  get : ∀ key, (hashGet g s key).isSome
  add : ∀ key, (s.probe (g.hashValue key) (s.stopsAtKey g key)).isSome
  delete : ∀ key, (hashDelete g s key).isSome
  deleteById : ∀ id, (hashDeleteById g s id).isSome
  entry2id : ∀ id, (entry2id s id).isSome

theorem Inv.probingEnds (hI : Inv g s) : ProbingEnds g s := by
  have hends : ∀ hashValue stop, stop 0 = true → (s.probe hashValue stop).isSome := fun hashValue stop hstop => by
    obtain ⟨k, i, -, heq, -⟩ := hI.table.sized.probe_ends hI.table.nil stop hstop hashValue
    rw [heq]
    rfl
  refine ⟨?_, fun hashValue slot hslot => ?_, hends, fun key => ?_, fun key => hends _ _ rfl, fun key => ?_,
    fun id => ?_, fun id => ?_⟩
  · obtain ⟨slot, hslot, hzero⟩ := hI.table.nil
    exact ⟨slot, Nat.le_of_lt_succ hslot, hzero⟩
  · obtain ⟨k, hk, heq⟩ := hI.table.sized.exists_probe hashValue (Nat.lt_succ_of_le hslot)
    exact ⟨k, Nat.le_of_lt_succ hk, heq⟩
  · obtain ⟨id, heq, -⟩ := hashGet_spec hI key
    rw [heq]
    rfl
  · rcases hashDelete_spec hI key with ⟨heq, -⟩ | ⟨id, s', heq, -⟩
    · rw [heq]
      rfl
    · rw [heq]
      rfl
  · rcases hashDeleteById_spec hI id with ⟨heq, -⟩ | ⟨s', heq, -⟩
    · rw [heq]
      rfl
    · rw [heq]
      rfl
  · rw [Hash.entry2id, Option.isSome_map]
    exact hends _ _ rfl

/-- A set of records of a table: a hash without a file whose keys are ids. -/
def recordSet : Config where
  io := false
  varSize := false
  keyLarge := false
  keySize := 4
  valueSize := 8
  maybeTable := true
  needWal := false
  keySize_le := by decide
  needWal_io := nofun
  entrySize_le := by decide

/-- A new hash has room. -/
theorem slotRoom_hashCreate (g : Config) (key : List UInt8) : (hashCreate g).SlotRoom g key := by
  right
  right
  have hcount : (hashCreate g).slots.count (· == garbage) = 0 :=
    Finset.sum_eq_zero fun j _ => by
      rw [slots_hashCreate]
      rfl
  rw [hcount]
  show 0 + 0 < (if g.io then indexSegmentSize else initialIndexSize) - 1
  split_ifs <;> decide

/-- **The hash is the map**: looking for a key gives its id, and the entry of the id has the key and the
value. Different keys have different ids, as many entries are counted as there are keys, and the lists
of deleted entries have no id of a key. -/
structure IsMap (g : Config) (s : GrnHash) (M : KeyMap) : Prop where
  get : ∀ key, hashGet g s key = some (((M key).map Prod.fst).getD 0)
  entry : ∀ key id value, M key = some (id, value) →
    id ≠ 0 ∧ s.getKey g id = key ∧ hashGetValue g s id = value
  inj : ∀ key key' id value value', M key = some (id, value) → M key' = some (id, value') → key = key'
  nEntries : s.nEntries = Set.ncard {key | M key ≠ none}
  lists : ∃ lists : ℕ → List ℕ, (∀ k, Chain (fun id => (s.entries id).word) (s.garbages k) (lists k)) ∧
    ∀ k, ∀ id ∈ lists k, ∀ key value, M key ≠ some (id, value)

/-- The live ids are counted. -/
theorem Inv.nEntries_eq (hI : Inv g s) : s.nEntries = Set.ncard {id | s.bitmap id = true} := by
  rw [← hI.table.entries, hI.table.holds.count_eq]
  congr 1
  ext id
  constructor
  · rintro ⟨hentry, hhas⟩
    exact hI.table.bitmap_of_has hentry hhas
  · intro hlive
    exact ⟨hI.isEntry hlive, (hI.table.live id (hI.isEntry hlive)).mpr hlive⟩

/-- A hash with the invariant is the map that it stands for. -/
theorem Inv.isMap (hI : Inv g s) (hM : Models g s M) : IsMap g s M := by
  refine ⟨fun key => ?_, fun key id value hsome => ?_, fun key key' id value value' h h' => ?_, ?_, ?_⟩
  · obtain ⟨id, heq, hid⟩ := hashGet_spec hI key
    rw [heq]
    rcases hid with ⟨rfl, hnone⟩ | ⟨hlive, hkey⟩
    · rw [hM.eq_none hnone]
      rfl
    · rw [hM.eq_some hlive hkey]
      rfl
  · obtain ⟨hlive, hkey, hvalue⟩ := (hM key id value).mp hsome
    refine ⟨(isEntry_iff.mp (hI.isEntry hlive)).1, hkey, ?_⟩
    rw [hashGetValue, if_pos ⟨hlive, hI.entryExists hlive⟩]
    exact hvalue
  · rw [← ((hM key id value).mp h).2.1, ← ((hM key' id value').mp h').2.1]
  · have himage : {key | M key ≠ none} = s.getKey g '' {id | s.bitmap id = true} := by
      ext key
      constructor
      · intro hne
        obtain ⟨e, he⟩ := Option.ne_none_iff_exists'.mp hne
        obtain ⟨hlive, hkey, -⟩ := (hM key e.1 e.2).mp he
        exact ⟨e.1, hlive, hkey⟩
      · rintro ⟨id, hlive, rfl⟩ hnone
        rw [hM.eq_some hlive rfl] at hnone
        cases hnone
    have hinj : Set.InjOn (s.getKey g) {id | s.bitmap id = true} := fun id hlive id' hlive' heq =>
      hI.keys.inj id id' hlive hlive' heq
    rw [himage, hinj.ncard_image, hI.nEntries_eq]
  · obtain ⟨lists, hL⟩ := hI.lists
    refine ⟨lists, hL.chain, fun k id hid key value hsome => ?_⟩
    have hlive := ((hM key id value).mp hsome).1
    rw [(hL.free k id hid).2.2] at hlive
    cases hlive

end Groonga.Hash
