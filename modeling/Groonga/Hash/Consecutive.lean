import Groonga.Hash.Runs

/-!
# Consecutive keys

Keys of four bytes are their own hash values. Consecutive ones that begin at a multiple of the
number of slots take the slots one after another, without any collision.
-/

namespace Groonga.Hash

open Lib

variable {g : Config} {base n : ℕ} {w : List WalEntry}

/-- A hash with `n` entries for the keys from `base` on. -/
def filled (g : Config) (base n : ℕ) : GrnHash :=
  { hashCreate g with
    nEntries := n
    currRec := n
    index := fun j => if j < n then j + 1 else 0
    entries := fun id => if 0 < id ∧ id ≤ n then { Entry.zero with word := base + (id - 1) } else Entry.zero
    bitmap := fun id => decide (0 < id ∧ id ≤ n) }

theorem filled_zero (g : Config) (base : ℕ) : filled g base 0 = hashCreate g := by
  have hentries : (fun id => if 0 < id ∧ id ≤ 0 then { Entry.zero with word := base + (id - 1) } else Entry.zero) =
      fun _ => Entry.zero := by
    funext id
    exact if_neg (by omega)
  have hbitmap : (fun id => decide (0 < id ∧ id ≤ 0)) = fun _ => false := by
    funext id
    exact decide_eq_false (by omega)
  have hindex : (fun j => if j < 0 then j + 1 else 0) = fun _ => 0 := by
    funext j
    exact if_neg (Nat.not_lt_zero j)
  rw [filled, hentries, hbitmap, hindex]
  rfl

/-- The hash value of a record key is the number. -/
theorem hashValue_recordKey (hvalid : g.ValidatesRecords) {x : ℕ} (hx : x < 2 ^ 32) :
    g.hashValue (recordKey x) = x := by
  have hlength : (recordKey x).length = 4 := length_leBytes 4 x
  rw [Config.hashValue, if_pos ⟨by simp [hvalid.1], hlength⟩, recordKey, leNat_leBytes]
  exact Nat.mod_eq_of_lt (by omega)

theorem accepts_recordKey (hvalid : g.ValidatesRecords) (x : ℕ) : g.Accepts (recordKey x) := by
  refine ⟨fun h => ?_, ?_⟩
  · have hlength := congrArg List.length h
    simp [recordKey] at hlength
  · rw [Config.Fits, if_neg (by simp [hvalid.1]), hvalid.2, recordKey, length_leBytes]

/-- The number of slots of a new hash is a power of two. -/
theorem sized_filled (g : Config) (base n : ℕ) (w : List WalEntry) :
    ({ filled g base n with wal := w } : GrnHash).Sized := (inv_hashCreate g).table.sized

/-- The slot of a key. -/
theorem idxPos_filled (hbase : (hashCreate g).slots.n ∣ base) (hn : n ≤ (hashCreate g).maxOffset) :
    ({ filled g base n with wal := w } : GrnHash).idxPos (base + n) = n := by
  rw [GrnHash.idxPos, (sized_filled g base n w).and_eq]
  have hslots : ({ filled g base n with wal := w } : GrnHash).slots.n = (hashCreate g).slots.n := rfl
  obtain ⟨c, rfl⟩ := hbase
  rw [hslots, Nat.mul_add_mod]
  exact Nat.mod_eq_of_lt (Nat.lt_succ_of_le hn)

/-- The next key is put into its entry. -/
theorem entries_filled_succ : Function.update (filled g base n).entries (n + 1)
    { (filled g base n).entries (n + 1) with word := base + n } = (filled g base (n + 1)).entries := by
  funext id
  by_cases heq : id = n + 1
  · subst heq
    rw [Function.update_self]
    have hold : (filled g base n).entries (n + 1) = Entry.zero := if_neg (by omega)
    rw [hold]
    exact (if_pos (by omega)).symm
  · rw [Function.update_of_ne heq]
    show (if 0 < id ∧ id ≤ n then _ else _) = if 0 < id ∧ id ≤ n + 1 then _ else _
    by_cases hid : 0 < id ∧ id ≤ n
    · rw [if_pos hid, if_pos (by omega)]
    · rw [if_neg hid, if_neg (by omega)]

theorem index_filled_succ : Function.update (filled g base n).index n (n + 1) = (filled g base (n + 1)).index := by
  funext j
  by_cases heq : j = n
  · subst heq
    rw [Function.update_self]
    exact (if_pos (by omega)).symm
  · rw [Function.update_of_ne heq]
    show (if j < n then _ else _) = if j < n + 1 then _ else _
    by_cases hj : j < n
    · rw [if_pos hj, if_pos (by omega)]
    · rw [if_neg hj, if_neg (by omega)]

theorem bitmap_filled_succ :
    Function.update (filled g base n).bitmap (n + 1) true = (filled g base (n + 1)).bitmap := by
  funext id
  by_cases heq : id = n + 1
  · subst heq
    rw [Function.update_self]
    exact (decide_eq_true (by omega)).symm
  · rw [Function.update_of_ne heq]
    show decide _ = decide _
    apply decide_eq_decide.mpr
    omega

/-- **The next key** gets the next id, in the next slot. -/
theorem hashAddEntry_filled (hvalid : g.ValidatesRecords) (hbase : (hashCreate g).slots.n ∣ base)
    (hn : n ≤ (hashCreate g).maxOffset) (hx : base + n < 2 ^ 32) :
    ∃ w', hashAddEntry g { filled g base n with wal := w } (recordKey (base + n)) =
      (n + 1, true, { filled g base (n + 1) with wal := w' }) := by
  have hhash := hashValue_recordKey hvalid hx
  have hpos := @idxPos_filled g base n w hbase hn
  have hat : ({ filled g base n with wal := w } : GrnHash).idxAt (base + n) = 0 := by
    rw [GrnHash.idxAt, hpos]
    exact if_neg (Nat.lt_irrefl n)
  have hloop : addLoop g { filled g base n with wal := w } (recordKey (base + n)) (calculateStep (base + n))
      maxIndexSize (base + n) none (base + n) = .inr (base + n, false) := by
    rw [show maxIndexSize = 0x1fffffff + 1 from rfl, addLoop, hat, if_pos rfl]
    rfl
  have hmax : (hashCreate g).maxOffset < 0x100000 := by
    rw [hashCreate]
    cases g.io <;> decide
  have hput : ∀ s : GrnHash, entryPutKey g s (n + 1) (base + n) (recordKey (base + n)) =
      some (s.setEntry (n + 1) { s.entries (n + 1) with word := base + n }) := fun s => by
    rw [entryPutKey, if_neg (by simp [hvalid.1]), if_pos hvalid.2]
  have hfinish : ∀ w' k, k = 0 → ({ filled g base n with
      nEntries := n + 1
      nGarbages := k
      currRec := n + 1
      index := Function.update (filled g base n).index n (n + 1)
      bitmap := Function.update (filled g base n).bitmap (n + 1) true
      entries := Function.update (filled g base n).entries (n + 1)
        { (filled g base n).entries (n + 1) with word := base + n }
      wal := w' } : GrnHash) = { filled g base (n + 1) with wal := w' } := fun w' k hk => by
    rw [entries_filled_succ, index_filled_succ, bitmap_filled_succ, hk]
    rfl
  rw [hashAddEntry, hhash]
  simp only [hloop]
  have hfull : ¬ (¬ false = true ∧ ({ filled g base n with wal := w } : GrnHash).nEntries = maxIndexSize) := by
    rintro ⟨-, h⟩
    have hn' : n = maxIndexSize := h
    rw [maxIndexSize] at hn'
    omega
  rw [if_neg hfull]
  have hpos' : ∀ w', ({ filled g base n with wal := w' } : GrnHash).idxPos (base + n) = n := fun w' =>
    idxPos_filled hbase hn
  cases hio : g.io with
  | true =>
    simp only [if_true]
    have hid : ¬ idMax < n + 1 := by
      rw [idMax]
      omega
    rw [ioHashAdd]
    obtain ⟨w₁, hw₁⟩ := log_same g { filled g base n with wal := w } (.addEntry (n + 1) (base + n) n)
    have hw₁' : ({ filled g base n with wal := w } : GrnHash).log g
        (.addEntry (({ filled g base n with wal := w } : GrnHash).currRec + 1) (base + n)
          ({ filled g base n with wal := w } : GrnHash).nEntries) = { filled g base n with wal := w₁ } := hw₁
    simp only [hw₁']
    rw [if_neg (show ¬ ({ filled g base n with wal := w } : GrnHash).garbages _ ≠ 0 from fun h => h rfl)]
    rw [show ({ filled g base n with wal := w } : GrnHash).currRec + 1 = n + 1 from rfl, if_neg hid, ioHashFinish]
    obtain ⟨w₂, hw₂⟩ := log_same g (ioHashAddEntry { filled g base n with wal := w₁ } (n + 1) (base + n))
      (.enableEntry (n + 1))
    simp only [hw₂]
    obtain ⟨w₃, hw₃⟩ := log_same g ({ ioHashAddEntry { filled g base n with wal := w₁ } (n + 1) (base + n) with
      wal := w₂ } : GrnHash) (.setEntryKey (n + 1) (recordKey (base + n)) (base + n) 0)
    have hw₃' : (({ ioHashAddEntry { filled g base n with wal := w₁ } (n + 1) (base + n) with
        wal := w₂ } : GrnHash)).log g (.setEntryKey (n + 1) (recordKey (base + n)) (base + n)
          (ioHashAddEntry { filled g base n with wal := w₁ } (n + 1) (base + n)).currKey) =
        { ioHashAddEntry { filled g base n with wal := w₁ } (n + 1) (base + n) with wal := w₃ } := hw₃
    simp only [hw₃', hput]
    refine ⟨w₃, ?_⟩
    refine Prod.ext rfl (Prod.ext (decide_eq_true (Nat.succ_ne_zero n)) ?_)
    rw [← hfinish w₃ 0 rfl]
    show GrnHash.mk _ _ _ _ _ _ _ _ _ _ _ _ = GrnHash.mk _ _ _ _ _ _ _ _ _ _ _ _
    congr 1
    show Function.update (filled g base n).index (({ filled g base n with wal := w₁ } : GrnHash).idxPos (base + n))
      (n + 1) = _
    rw [hpos']
  | false =>
    simp only [Bool.false_eq_true, if_false]
    rw [tinyHashAdd]
    rw [if_neg (show ¬ ({ filled g base n with wal := w } : GrnHash).garbages 0 ≠ 0 from fun h => h rfl),
      if_neg (show ¬ ({ filled g base n with wal := w } : GrnHash).garbages 0 ≠ 0 from fun h => h rfl)]
    have hcurr : ({ filled g base n with wal := w } : GrnHash).currRec + 1 = n + 1 := rfl
    simp only [hcurr, hput, Option.getD_some]
    refine ⟨w, Prod.ext rfl (Prod.ext (decide_eq_true (Nat.succ_ne_zero n)) ?_)⟩
    rw [← hfinish w 0 rfl]
    show GrnHash.mk _ _ _ _ _ _ _ _ _ _ _ _ = GrnHash.mk _ _ _ _ _ _ _ _ _ _ _ _
    congr 1
    show Function.update (filled g base n).index
      (({ ({ filled g base n with wal := w } : GrnHash) with currRec := n + 1 } : GrnHash).idxPos (base + n)) (n + 1) = _
    exact congrArg (Function.update _ · _) (hpos' w)

/-- **The next key is added** as long as the table need not be hashed again. -/
theorem hashAdd_filled (hvalid : g.ValidatesRecords) (hbase : (hashCreate g).slots.n ∣ base)
    (hn : n * (if g.maybeTable then 1 else 2) ≤ (hashCreate g).maxOffset) (hx : base + n < 2 ^ 32)
    (source : Option ℕ) :
    ∃ w', hashAdd g { filled g base n with wal := w } (recordKey (base + n)) source =
      (n + 1, true, { filled g base (n + 1) with wal := w' }) := by
  have hn' : n ≤ (hashCreate g).maxOffset := by
    split_ifs at hn <;> omega
  rw [hashAdd, if_pos (accepts_recordKey hvalid _), hashEnsureRehash, if_pos (.inl hn)]
  exact hashAddEntry_filled hvalid hbase hn' hx

/-- The keys from `base + n` on are added. -/
def addKeys (base n m : ℕ) : List Op := (List.range' n m).map fun k => .add (recordKey (base + k)) none

/-- **Consecutive keys** take the slots one after another. -/
theorem run_filled (hvalid : g.ValidatesRecords) (hbase : (hashCreate g).slots.n ∣ base) {m : ℕ}
    (hn : ∀ k < m, (n + k) * (if g.maybeTable then 1 else 2) ≤ (hashCreate g).maxOffset)
    (hx : base + (n + m) ≤ 2 ^ 32) :
    ∃ ids w', run g (addKeys base n m) { filled g base n with wal := w } =
      some (ids, { filled g base (n + m) with wal := w' }) := by
  induction m generalizing n w with
  | zero => exact ⟨[], w, rfl⟩
  | succ m ih =>
    rw [addKeys, List.range'_succ, List.map_cons, run, step]
    obtain ⟨w₁, hadd⟩ := @hashAdd_filled g base n w hvalid hbase (hn 0 (Nat.succ_pos m)) (by omega) none
    rw [hadd, Option.bind_some]
    obtain ⟨ids, w₂, hrun⟩ := @ih (n + 1) w₁ (fun k hk => by
      have := hn (k + 1) (by omega)
      rwa [show n + 1 + k = n + (k + 1) by omega]) (by omega)
    refine ⟨(n + 1) :: ids, w₂, ?_⟩
    rw [addKeys] at hrun
    rw [hrun]
    rw [show n + 1 + m = n + (m + 1) by omega]
    rfl

/-- **As many keys as slots**: when the domain may be a table, all slots are taken, and looking for
another key does not end. -/
theorem run_full (hvalid : g.ValidatesRecords) (hmaybe : g.maybeTable = true) :
    ∃ ids s, run g (addKeys 0 0 ((hashCreate g).maxOffset + 1)) (hashCreate g) = some (ids, s) ∧
      (∀ slot ≤ s.maxOffset, s.index (slot + s.idxOffset) ≠ 0) ∧
      hashGet g s (recordKey ((hashCreate g).maxOffset + 1)) = none := by
  have hmax : (hashCreate g).maxOffset < 0x100000 := by
    rw [hashCreate]
    cases g.io <;> decide
  obtain ⟨ids, w, hrun⟩ := @run_filled g 0 0 [] hvalid (Nat.dvd_zero _) ((hashCreate g).maxOffset + 1)
    (fun k hk => by
      rw [if_pos hmaybe]
      omega) (by omega)
  have hstart : ({ filled g 0 0 with wal := [] } : GrnHash) = hashCreate g := by
    rw [filled_zero]
    rfl
  rw [hstart, Nat.zero_add] at hrun
  generalize hs : ({ filled g 0 ((hashCreate g).maxOffset + 1) with wal := w } : GrnHash) = s at hrun
  have hslots : s.slots.n = (hashCreate g).maxOffset + 1 := by rw [← hs]; rfl
  have hat : ∀ slot < (hashCreate g).maxOffset + 1, s.slots.at' slot = slot + 1 := fun slot hslot => by
    rw [← hs]
    exact if_pos hslot
  have hsized : s.Sized := by
    rw [← hs]
    exact sized_filled g 0 _ w
  refine ⟨ids, s, hrun, fun slot hslot => ?_, ?_⟩
  · have hslot' : slot < (hashCreate g).maxOffset + 1 := by
      rw [← hslots]
      exact Nat.lt_succ_of_le hslot
    have hindex : s.index (slot + s.idxOffset) = slot + 1 := hat slot hslot'
    rw [hindex]
    exact Nat.succ_ne_zero slot
  · have hhash := @hashValue_recordKey g hvalid ((hashCreate g).maxOffset + 1) (by omega)
    rw [hashGet, if_pos (accepts_recordKey hvalid _).fits, hhash]
    rcases hsized.probe_eq ((hashCreate g).maxOffset + 1)
      (GrnHash.stopsAtKey g s (recordKey ((hashCreate g).maxOffset + 1))) with ⟨j, i, hfirst, -, -⟩ | ⟨-, hnone⟩
    · -- no slot is nil, and no entry has the key
      obtain ⟨-, -, hstop, -⟩ := firstFrom_eq_some_iff.mp hfirst
      have hslot := probeAt_lt hsized.n_pos ((hashCreate g).maxOffset + 1)
        (calculateStep ((hashCreate g).maxOffset + 1)) j
      generalize probeAt s.slots.n ((hashCreate g).maxOffset + 1)
        (calculateStep ((hashCreate g).maxOffset + 1)) j = slot at hslot hstop
      rw [hslots] at hslot
      have hword : (s.entries (slot + 1)).word = slot := by
        have hentry : s.entries (slot + 1) = { Entry.zero with word := 0 + (slot + 1 - 1) } := by
          rw [← hs]
          exact if_pos (by omega)
        rw [hentry]
        exact Nat.zero_add slot
      have hgarbage : slot + 1 ≠ garbage := by
        rw [garbage]
        omega
      rw [hat slot hslot, GrnHash.stopsAtKey, hhash, GrnHash.compareKey, if_neg (by simp [hvalid.1]), hword] at hstop
      have hne : slot ≠ (hashCreate g).maxOffset + 1 := by omega
      simp [hne] at hstop
    · rw [hnone]
      rfl

end Groonga.Hash
