import Groonga.Hash.Recover

/-!
# Hashing again in the recovery

The log has the old size of the table, but not the half where the old table is. The recovery copies
the first slots of the half that is in use. After the steps of the log this is the half of the new
table, and the entries in its other slots are not copied: they are lost.
-/

namespace Groonga.Hash

open Lib

variable {g : Config} {s s' : GrnHash} {dest newMax x : ℕ} {src : (ℕ → ℕ) → ℕ → ℕ} {index : ℕ → ℕ}

/-! ## Copying nothing -/

/-- **Nil slots are not copied.** -/
theorem copyLoop_nil (hnil : ∀ j ≤ s.maxOffset, src index (j + s.idxOffset) = 0) (fuel srcPos count : ℕ) :
    copyLoop s src dest newMax fuel srcPos count index = some index := by
  induction fuel generalizing srcPos with
  | zero => rfl
  | succ fuel ih =>
    rw [copyLoop]
    by_cases hmore : count < s.nEntries ∧ srcPos ≤ s.maxOffset
    · rw [if_pos hmore]
      simp only [hnil srcPos hmore.2, true_or, if_true]
      exact ih (srcPos + 1)
    · rw [if_neg hmore]

/-- **A table whose first slots are nil** becomes a table of nil slots, whatever is in the others. -/
theorem hashRehash_nil (hio : g.io = true) (hoffset : s.idxOffset = maxIndexSize)
    (hnil : ∀ j ≤ s.maxOffset, s.index (j + s.idxOffset) = 0)
    (hsmall : expectedNEntries g s 0 none < maxIndexSize)
    (hsize : indexSizeLoop (expectedNEntries g s 0 none) 32 initialIndexSize ≤ 2 * indexSegmentSize) :
    hashRehash g s 0 none = some { s with
      maxOffset := indexSizeLoop (expectedNEntries g s 0 none) 32 initialIndexSize - 1
      nGarbages := 0
      index := clearIndex s.index 0 (indexSizeLoop (expectedNEntries g s 0 none) 32 initialIndexSize)
      idxOffset := 0 } := by
  rw [hashRehash]
  generalize expectedNEntries g s 0 none = expected at *
  generalize indexSizeLoop expected 32 initialIndexSize = size at *
  simp only [if_neg (Nat.not_le.mpr hsmall), hio, if_true, hoffset, Nat.sub_self]
  have hclear : (size + (indexSegmentSize - 1)) / indexSegmentSize * indexSegmentSize ≤ maxIndexSize := by
    have hdiv : (size + (indexSegmentSize - 1)) / indexSegmentSize < 3 := by
      apply Nat.div_lt_of_lt_mul
      have hpos : 0 < indexSegmentSize := by decide
      omega
    have hmul := Nat.mul_le_mul_right indexSegmentSize (Nat.le_of_lt_succ hdiv)
    have htwo : 2 * indexSegmentSize ≤ maxIndexSize := by decide
    omega
  rw [copyLoop_nil]
  · rfl
  · intro j hj
    have hout : clearIndex s.index 0 size (j + s.idxOffset) = s.index (j + s.idxOffset) := if_neg (by omega)
    exact hout.trans (hnil j hj)

/-! ## A key at its first probe -/

/-- A key whose first slot has its entry. -/
theorem hashGet_first (hvalid : g.ValidatesRecords) (hx : x < 2 ^ 32) {id : ℕ}
    (hat : s.idxAt x = id) (hid : id = 0 ∨ (id ≠ garbage ∧ (s.entries id).word = x)) :
    hashGet g s (recordKey x) = some id := by
  have hlength : (recordKey x).length = 4 := length_leBytes 4 x
  rw [hashGet, if_pos (accepts_recordKey hvalid x).fits, hashValue_recordKey hvalid hx, GrnHash.probe, probeLoop,
    hat, if_pos]
  · rfl
  · rw [GrnHash.stopsAtKey, hashValue_recordKey hvalid hx]
    rcases hid with hzero | ⟨hgarbage, hword⟩
    · simp [hzero]
    · simp [hgarbage, GrnHash.compareKey, hvalid.1, hword, hlength]

/-- **A new key** whose first slot is nil, in a hash with a log. -/
theorem hashAddEntry_first (hvalid : g.ValidatesRecords) (hio : g.io = true) (hwal : g.needWal = true)
    (hx : x < 2 ^ 32) (hnil : s.idxAt x = 0) (hnone : s.garbages (g.garbageIndex 4) = 0)
    (hlt : s.currRec < idMax) (hfull : s.nEntries ≠ maxIndexSize) :
    hashAddEntry g s (recordKey x) = (s.currRec + 1, true, { s with
      index := Function.update s.index (s.idxPos x) (s.currRec + 1)
      currRec := s.currRec + 1
      nEntries := s.nEntries + 1
      bitmap := Function.update s.bitmap (s.currRec + 1) true
      entries := Function.update s.entries (s.currRec + 1) { s.entries (s.currRec + 1) with word := x }
      wal := s.wal ++ [.addEntry (s.currRec + 1) x s.nEntries, .enableEntry (s.currRec + 1),
        .setEntryKey (s.currRec + 1) (recordKey x) x s.currKey] }) := by
  have hlength : (recordKey x).length = 4 := length_leBytes 4 x
  have hloop : addLoop g s (recordKey x) (calculateStep x) maxIndexSize x none x = .inr (x, false) := by
    rw [show maxIndexSize = 0x1fffffff + 1 from rfl, addLoop, hnil, if_pos rfl]
    rfl
  have hput : ∀ s : GrnHash, ∀ id, entryPutKey g s id x (recordKey x) =
      some (s.setEntry id { s.entries id with word := x }) := fun s id => by
    rw [entryPutKey, if_neg (by simp [hvalid.1]), if_pos hvalid.2]
  have hlog : (s.log g (.addEntry (s.currRec + 1) x s.nEntries)).currRec = s.currRec := by
    rw [log_of_needWal hwal]
  rw [hashAddEntry, hashValue_recordKey hvalid hx]
  simp only [hloop]
  rw [if_neg (fun h => hfull h.2), if_pos hio, ioHashAdd, hlength, if_neg (not_not.mpr hnone), if_neg (by omega)]
  simp only [ioHashFinish, log_of_needWal hwal, hput]
  refine Prod.ext rfl (Prod.ext (decide_eq_true (Nat.succ_ne_zero s.currRec)) ?_)
  show GrnHash.mk _ _ _ _ _ _ _ _ _ _ _ _ = GrnHash.mk _ _ _ _ _ _ _ _ _ _ _ _
  congr 1
  show s.wal ++ [_] ++ [_] ++ [_] = _
  rw [List.append_assoc, List.append_assoc]
  rfl

/-! ## Consecutive keys in the new table -/

/-- The half of the new table when `n` of the keys from `base` on were copied, in slots from `base` on. -/
def movedIndex (index : ℕ → ℕ) (dest base n : ℕ) : ℕ → ℕ := fun p =>
  if dest + base ≤ p ∧ p < dest + base + n then p - (dest + base) + 1 else index p

theorem movedIndex_succ (index : ℕ → ℕ) (dest base n : ℕ) :
    Function.update (movedIndex index dest base n) (base + n + dest) (n + 1) = movedIndex index dest base (n + 1) := by
  funext p
  by_cases hp : p = base + n + dest
  · rw [hp, Function.update_self, movedIndex, if_pos (by omega)]
    omega
  · rw [Function.update_of_ne hp, movedIndex, movedIndex]
    by_cases hin : dest + base ≤ p ∧ p < dest + base + n
    · rw [if_pos hin, if_pos (by omega)]
    · rw [if_neg hin, if_neg (by omega)]

/-- **Consecutive keys are copied** one after another, when their slots in the new table are apart from
the old table. -/
theorem copyLoop_consecutive {n base : ℕ} (hn : s.nEntries = n) (hle : n ≤ s.maxOffset + 1)
    (hgarbage : n < garbage)
    (hword : ∀ c < n, (s.entries (c + 1)).word = base + c)
    (hslot : ∀ c < n, (base + c) &&& newMax = base + c)
    (hsrc : ∀ c < n, ∀ k ≤ n, src (movedIndex index dest base k) (c + s.idxOffset) = c + 1)
    (hnil : ∀ c < n, index (base + c + dest) = 0) {fuel c : ℕ} (hc : c ≤ n) (hfuel : n ≤ c + fuel) :
    copyLoop s src dest newMax fuel c c (movedIndex index dest base c) = some (movedIndex index dest base n) := by
  induction fuel generalizing c with
  | zero =>
    obtain rfl : c = n := by omega
    rfl
  | succ fuel ih =>
    rw [copyLoop]
    by_cases hlt : c < n
    · rw [if_pos (by omega)]
      simp only [hsrc c hlt c hc, hword c hlt]
      rw [if_neg (by omega), destLoop]
      simp only [hslot c hlt]
      have hzero : movedIndex index dest base c (base + c + dest) = 0 := by
        rw [movedIndex, if_neg (by omega)]
        exact hnil c hlt
      rw [if_pos hzero]
      dsimp only
      rw [movedIndex_succ]
      exact ih (by omega) (by omega)
    · obtain rfl : c = n := by omega
      rw [if_neg (by omega)]

/-! ## A lost table -/

/-- How many keys a new hash with a file takes before its table is hashed again. -/
def halfSegment : ℕ := 0x80000

/-- **After the addition that hashes the table again**, the keys from `indexSegmentSize` on are in the
upper slots of the second half. -/
theorem hashAdd_half (hvalid : g.ValidatesRecords) (hio : g.io = true) (hwal : g.needWal = true)
    (hplain : g.maybeTable = false) : ∃ s, hashAdd g (filled g indexSegmentSize halfSegment).flush
        (recordKey (indexSegmentSize + halfSegment)) none = (halfSegment + 1, true, s) ∧
      s.wal = [.rehash halfSegment (indexSegmentSize - 1) 0,
        .addEntry (halfSegment + 1) (indexSegmentSize + halfSegment) halfSegment, .enableEntry (halfSegment + 1),
        .setEntryKey (halfSegment + 1) (recordKey (indexSegmentSize + halfSegment))
          (indexSegmentSize + halfSegment) 0] ∧
      s.maxOffset = 2 * indexSegmentSize - 1 ∧ s.idxOffset = maxIndexSize ∧
      (∀ j < indexSegmentSize, s.index (j + maxIndexSize) = 0) ∧
      s.index (indexSegmentSize + maxIndexSize) = 1 ∧ (s.entries 1).word = indexSegmentSize := by
  have hM : indexSegmentSize = 0x100000 := rfl
  have hN : halfSegment = 0x80000 := rfl
  have hI : maxIndexSize = 0x20000000 := rfl
  generalize hs₀ : (filled g indexSegmentSize halfSegment).flush = s₀
  have hmax : s₀.maxOffset = indexSegmentSize - 1 := by
    rw [← hs₀]
    exact congrArg (· - 1) (if_pos hio)
  have hnEntries : s₀.nEntries = halfSegment := by rw [← hs₀]; rfl
  have hnGarbages : s₀.nGarbages = 0 := by rw [← hs₀]; rfl
  have hidxOffset : s₀.idxOffset = 0 := by rw [← hs₀]; rfl
  have hcurrRec : s₀.currRec = halfSegment := by rw [← hs₀]; rfl
  have hcurrKey : s₀.currKey = 0 := by rw [← hs₀]; rfl
  have hgarbages : s₀.garbages = fun _ => 0 := by rw [← hs₀]; rfl
  have hwal₀ : s₀.wal = [] := by rw [← hs₀]; rfl
  have hindex : ∀ j < halfSegment, s₀.index j = j + 1 := fun j hj => by
    rw [← hs₀]
    exact if_pos hj
  have hword : ∀ c < halfSegment, (s₀.entries (c + 1)).word = indexSegmentSize + c := fun c hc => by
    have hentry : s₀.entries (c + 1) = { Entry.zero with word := indexSegmentSize + (c + 1 - 1) } := by
      rw [← hs₀]
      exact if_pos (by omega)
    rw [hentry]
    rfl
  clear hs₀
  -- the table is hashed again
  have hre : ¬ (addThreshold g s₀ ≤ s₀.maxOffset ∨ s₀.maxOffset = maxIndexSize - 1) := by
    rw [addThreshold, if_neg (by simp [hplain]), hnEntries, hnGarbages, hmax, hM, hN, hI]
    omega
  have hexpected : expectedNEntries g (s₀.log g (.rehash s₀.nEntries s₀.maxOffset 0)) 0 none = indexSegmentSize := by
    rw [log_of_needWal hwal, expectedNEntries, if_pos rfl]
    show (if maxIndexSize ≤ s₀.nEntries * 2 then maxIndexSize - 1 else s₀.nEntries * 2) = indexSegmentSize
    rw [hnEntries, if_neg (by omega)]
    rfl
  have hsize : indexSizeLoop indexSegmentSize 32 initialIndexSize = 2 * indexSegmentSize := by decide
  have hclear : (2 * indexSegmentSize + (indexSegmentSize - 1)) / indexSegmentSize * indexSegmentSize =
      2 * indexSegmentSize := by decide
  have hslot : ∀ c < indexSegmentSize, (indexSegmentSize + c) &&& (2 * indexSegmentSize - 1) =
      indexSegmentSize + c := fun c hc => by
    rw [show 2 * indexSegmentSize - 1 = 2 ^ 21 - 1 from rfl, Nat.and_two_pow_sub_one_eq_mod]
    exact Nat.mod_eq_of_lt (by omega)
  have hcleared : ∀ p, maxIndexSize ≤ p → p < maxIndexSize + 2 * indexSegmentSize →
      clearIndex s₀.index maxIndexSize (2 * indexSegmentSize) p = 0 := fun p hle hlt => by
    rw [clearIndex, hclear, if_pos ⟨hle, hlt⟩]
  have hcopy : copyLoop (s₀.log g (.rehash s₀.nEntries s₀.maxOffset 0)) (fun index => index) maxIndexSize
      (2 * indexSegmentSize - 1) (s₀.maxOffset + 1) 0 0
      (clearIndex s₀.index maxIndexSize (2 * indexSegmentSize)) =
        some (movedIndex (clearIndex s₀.index maxIndexSize (2 * indexSegmentSize)) maxIndexSize indexSegmentSize
          halfSegment) := by
    have hstart : movedIndex (clearIndex s₀.index maxIndexSize (2 * indexSegmentSize)) maxIndexSize
        indexSegmentSize 0 = clearIndex s₀.index maxIndexSize (2 * indexSegmentSize) := by
      funext p
      exact if_neg (by omega)
    rw [log_of_needWal hwal]
    have hconsecutive := @copyLoop_consecutive { s₀ with wal := s₀.wal ++ [.rehash s₀.nEntries s₀.maxOffset 0] }
      maxIndexSize (2 * indexSegmentSize - 1) (fun index => index)
      (clearIndex s₀.index maxIndexSize (2 * indexSegmentSize)) halfSegment indexSegmentSize hnEntries
      (by show halfSegment ≤ s₀.maxOffset + 1; omega) (by rw [garbage]; omega) hword
      (fun c hc => hslot c (by omega)) (fun c hc k hk => by
        show movedIndex _ _ _ _ (c + s₀.idxOffset) = c + 1
        rw [hidxOffset, Nat.add_zero, movedIndex, if_neg (by omega), clearIndex, if_neg (by omega)]
        exact hindex c hc) (fun c hc => hcleared _ (by omega) (by omega)) (s₀.maxOffset + 1) 0 (Nat.zero_le _)
      (by omega)
    rw [hstart] at hconsecutive
    exact hconsecutive
  generalize hs₁ : ({ s₀ with
    wal := s₀.wal ++ [.rehash s₀.nEntries s₀.maxOffset 0]
    maxOffset := 2 * indexSegmentSize - 1
    nGarbages := 0
    index := movedIndex (clearIndex s₀.index maxIndexSize (2 * indexSegmentSize)) maxIndexSize indexSegmentSize
      halfSegment
    idxOffset := maxIndexSize } : GrnHash) = s₁
  have hensure : hashEnsureRehash g s₀ (addThreshold g s₀) none = (true, s₁) := by
    have hoffset : (s₀.log g (.rehash s₀.nEntries s₀.maxOffset 0)).idxOffset = 0 := by
      rw [log_of_needWal hwal]
      exact hidxOffset
    have hindex' : (s₀.log g (.rehash s₀.nEntries s₀.maxOffset 0)).index = s₀.index := by
      rw [log_of_needWal hwal]
    have hmax' : (s₀.log g (.rehash s₀.nEntries s₀.maxOffset 0)).maxOffset = s₀.maxOffset := by
      rw [log_of_needWal hwal]
    have hrehash : hashRehash g (s₀.log g (.rehash s₀.nEntries s₀.maxOffset 0)) 0 none = some s₁ := by
      rw [hashRehash]
      dsimp only
      rw [hexpected, if_neg (by omega), hsize]
      simp only [hio, if_true, hoffset, Nat.sub_zero, hindex', hmax', hcopy, Option.map_some, ← hs₁]
      rw [log_of_needWal hwal]
    rw [hashEnsureRehash, if_neg hre]
    simp only [hrehash]
  have hpos : ∀ c < indexSegmentSize, s₁.idxPos (indexSegmentSize + c) = indexSegmentSize + c + maxIndexSize :=
    fun c hc => by
      rw [GrnHash.idxPos, ← hs₁]
      exact congrArg (· + maxIndexSize) (hslot c hc)
  have hindex₁ : ∀ p, s₁.index p = movedIndex (clearIndex s₀.index maxIndexSize (2 * indexSegmentSize))
      maxIndexSize indexSegmentSize halfSegment p := fun p => by rw [← hs₁]
  have hadd := @hashAddEntry_first g s₁ (indexSegmentSize + halfSegment) hvalid hio hwal (by omega)
    (by
      rw [GrnHash.idxAt, hpos _ (by omega), hindex₁, movedIndex, if_neg (by omega)]
      exact hcleared _ (by omega) (by omega))
    (by rw [← hs₁]; exact congrFun hgarbages _) (by rw [← hs₁]; show s₀.currRec < idMax; rw [idMax]; omega)
    (by rw [← hs₁]; show s₀.nEntries ≠ maxIndexSize; omega)
  have hcurr₁ : s₁.currRec = halfSegment := by rw [← hs₁]; exact hcurrRec
  have hn₁ : s₁.nEntries = halfSegment := by rw [← hs₁]; exact hnEntries
  rw [hcurr₁, hn₁, hpos _ (by omega)] at hadd
  have hall : hashAdd g s₀ (recordKey (indexSegmentSize + halfSegment)) none =
      hashAddEntry g s₁ (recordKey (indexSegmentSize + halfSegment)) := by
    rw [hashAdd, if_pos (accepts_recordKey hvalid _), hensure]
  refine ⟨(hashAddEntry g s₁ (recordKey (indexSegmentSize + halfSegment))).2.2, ?_, ?_⟩
  · rw [hall, hadd]
  have hindex₂ : (hashAddEntry g s₁ (recordKey (indexSegmentSize + halfSegment))).2.2.index =
      Function.update s₁.index (indexSegmentSize + halfSegment + maxIndexSize) (halfSegment + 1) := by rw [hadd]
  have hentries₂ : ∀ id, id ≠ halfSegment + 1 →
      (hashAddEntry g s₁ (recordKey (indexSegmentSize + halfSegment))).2.2.entries id = s₁.entries id :=
    fun id hid => by
      rw [hadd]
      exact Function.update_of_ne hid _ _
  refine ⟨?_, ?_, ?_, fun j hj => ?_, ?_, ?_⟩
  · rw [hadd]
    show s₁.wal ++ _ = _
    rw [← hs₁]
    show (s₀.wal ++ [_]) ++ [_, _, .setEntryKey _ _ _ s₀.currKey] = _
    rw [hwal₀, hcurrKey, hnEntries, hmax]
    rfl
  · rw [hadd, ← hs₁]
  · rw [hadd, ← hs₁]
  · have hne : j + maxIndexSize ≠ indexSegmentSize + halfSegment + maxIndexSize := by omega
    rw [hindex₂, Function.update_of_ne hne, hindex₁, movedIndex, if_neg (by omega)]
    exact hcleared (j + maxIndexSize) (by omega) (by omega)
  · rw [hindex₂, Function.update_of_ne (by omega), hindex₁, movedIndex, if_pos (by omega)]
    omega
  · rw [hentries₂ 1 (by omega), ← hs₁]
    exact hword 0 (by omega)

/-- **The recovery loses the keys** whose slots are not copied. -/
theorem hashWalRecover_half (hvalid : g.ValidatesRecords) (hio : g.io = true)
    (hwal : s.wal = [.rehash halfSegment (indexSegmentSize - 1) 0,
      .addEntry (halfSegment + 1) (indexSegmentSize + halfSegment) halfSegment, .enableEntry (halfSegment + 1),
      .setEntryKey (halfSegment + 1) (recordKey (indexSegmentSize + halfSegment))
        (indexSegmentSize + halfSegment) 0])
    (hoffset : s.idxOffset = maxIndexSize) (hnil : ∀ j < indexSegmentSize, s.index (j + maxIndexSize) = 0) :
    ∃ r, hashWalRecover g none s s.wal = some r ∧ r.idxAt indexSegmentSize = 0 := by
  have hM : indexSegmentSize = 0x100000 := rfl
  have hN : halfSegment = 0x80000 := rfl
  have hI : maxIndexSize = 0x20000000 := rfl
  have hexpected : expectedNEntries g { s with nEntries := halfSegment, maxOffset := indexSegmentSize - 1 } 0 none =
      indexSegmentSize := by
    rw [expectedNEntries, if_pos rfl]
    show (if maxIndexSize ≤ halfSegment * 2 then maxIndexSize - 1 else halfSegment * 2) = indexSegmentSize
    rw [if_neg (by omega)]
    rfl
  have hsize : indexSizeLoop indexSegmentSize 32 initialIndexSize = 2 * indexSegmentSize := by decide
  have hrehash := @hashRehash_nil g { s with nEntries := halfSegment, maxOffset := indexSegmentSize - 1 } hio hoffset
    (fun j hj => by
      have hj' : j < indexSegmentSize := by
        have : j ≤ indexSegmentSize - 1 := hj
        omega
      show s.index (j + s.idxOffset) = 0
      rw [hoffset]
      exact hnil j hj') (by rw [hexpected]; omega) (by rw [hexpected, hsize])
  rw [hexpected, hsize] at hrehash
  obtain ⟨q, hq, hindex, hmax, hoffset'⟩ : ∃ q, hashRehash g { s with
      nEntries := halfSegment, maxOffset := indexSegmentSize - 1 } 0 none = some q ∧
      q.index = clearIndex s.index 0 (2 * indexSegmentSize) ∧ q.maxOffset = 2 * indexSegmentSize - 1 ∧
      q.idxOffset = 0 := ⟨_, hrehash, rfl, rfl, rfl⟩
  have hpos : ∀ c < indexSegmentSize, q.idxPos (indexSegmentSize + c) = indexSegmentSize + c := fun c hc => by
    rw [GrnHash.idxPos, hmax, hoffset']
    show (indexSegmentSize + c) &&& (2 ^ 21 - 1) = indexSegmentSize + c
    rw [Nat.and_two_pow_sub_one_eq_mod]
    exact Nat.mod_eq_of_lt (by omega)
  have hput : ∀ s : GrnHash, ∀ id hashValue, entryPutKey g s id hashValue
      (recordKey (indexSegmentSize + halfSegment)) = some (s.setEntry id { s.entries id with word := hashValue }) :=
    fun s id hashValue => by
      rw [entryPutKey, if_neg (by simp [hvalid.1]), if_pos hvalid.2]
  rw [hashWalRecover, hwal]
  simp only [redoAll, replay, hq, Option.bind_some, if_neg (show ¬ idMax < halfSegment + 1 by rw [idMax]; omega),
    hput, List.foldl, partialRecordId, if_true]
  refine ⟨_, rfl, ?_⟩
  show Function.update q.index (q.idxPos (indexSegmentSize + halfSegment)) (halfSegment + 1)
    (q.idxPos (indexSegmentSize + 0)) = 0
  rw [hpos _ (by omega), hpos 0 (by omega), Function.update_of_ne (by omega), hindex, clearIndex, if_pos]
  refine ⟨Nat.zero_le _, ?_⟩
  show indexSegmentSize + 0 < 0 + 2 * indexSegmentSize
  omega

/-! ## A table of four byte keys -/

/-- A hash with a file whose keys have four bytes, with values of eight bytes and a log. -/
def recordTable : Config where
  io := true
  varSize := false
  keyLarge := false
  keySize := 4
  valueSize := 8
  maybeTable := false
  needWal := true
  keySize_le := recordSet.keySize_le
  needWal_io := fun _ => rfl
  entrySize_le := by decide

/-- A key is added, its value is set and it is deleted. -/
theorem recovers_recordTable : ∃ ids s, run recordTable
    [.add (recordKey 7) none, .setValue 1 [1, 2, 3, 4, 5, 6, 7, 8], .delete (recordKey 7)]
      (hashCreate recordTable).flush = some (ids, s) ∧
    Recovers recordTable none (hashCreate recordTable).flush s := by
  refine recovers_of_steadies recordTable rfl rfl none [] _ trivial rfl ?_ ?_
  · intro op hop
    simp only [List.mem_cons, List.not_mem_nil, or_false] at hop
    rcases hop with rfl | rfl | rfl <;> exact trivial
  · refine ⟨⟨fun _ => ⟨.inr (slotRoom_hashCreate recordTable _), fun _ _ hvar => nomatch hvar⟩, fun _ => ⟨?_, ?_⟩⟩,
      fun _ _ => ⟨trivial, fun _ _ => ⟨trivial, fun _ _ => trivial⟩⟩⟩
    · exact fun h => Nat.not_lt_zero _ h.1
    · exact fun _ => .inr (by decide)

/-- **The recovery loses keys** when the table was hashed again since the log was empty. -/
theorem not_recovers_recordTable : ∃ ids₀ s₀ ids s,
    run recordTable (addKeys indexSegmentSize 0 halfSegment) (hashCreate recordTable) = some (ids₀, s₀) ∧
      run recordTable [.add (recordKey (indexSegmentSize + halfSegment)) none] s₀.flush = some (ids, s) ∧
      ¬ Recovers recordTable none s₀.flush s := by
  have hvalid : recordTable.ValidatesRecords := by decide
  have hM : indexSegmentSize = 0x100000 := rfl
  have hN : halfSegment = 0x80000 := rfl
  have hslots : (hashCreate recordTable).slots.n ∣ indexSegmentSize := Nat.dvd_refl _
  have hmax : (hashCreate recordTable).maxOffset = indexSegmentSize - 1 := rfl
  obtain ⟨ids₀, w, hrun⟩ := @run_filled recordTable indexSegmentSize 0 [] hvalid hslots halfSegment (fun k hk => by
    rw [hmax]
    show (0 + k) * 2 ≤ indexSegmentSize - 1
    omega) (by omega)
  have hstart : ({ filled recordTable indexSegmentSize 0 with wal := [] } : GrnHash) = hashCreate recordTable := by
    rw [filled_zero]
    rfl
  rw [hstart, Nat.zero_add] at hrun
  obtain ⟨s, hadd, hwal, hmax', hoffset, hnil, hfirst, hword⟩ := hashAdd_half hvalid rfl rfl rfl
  refine ⟨ids₀, _, [halfSegment + 1], s, hrun, ?_, ?_⟩
  · have hflush : ({ filled recordTable indexSegmentSize halfSegment with wal := w } : GrnHash).flush =
        (filled recordTable indexSegmentSize halfSegment).flush := rfl
    rw [hflush, run, step, hadd]
    rfl
  · rintro ⟨-, r, hrecover, hsame⟩
    obtain ⟨r', hrecover', hnone⟩ := hashWalRecover_half hvalid rfl hwal hoffset hnil
    obtain rfl := Option.some.inj (hrecover.symm.trans hrecover')
    have hpos : s.idxPos indexSegmentSize = indexSegmentSize + maxIndexSize := by
      rw [GrnHash.idxPos, hmax', hoffset]
      exact congrArg (· + maxIndexSize) (by decide : indexSegmentSize &&& (2 * indexSegmentSize - 1) = indexSegmentSize)
    have hlost := hashGet_first hvalid (by omega : indexSegmentSize < 2 ^ 32) hnone (.inl rfl)
    have hkept := @hashGet_first recordTable s indexSegmentSize hvalid (by omega) 1 (by rw [GrnHash.idxAt, hpos, hfirst])
      (.inr ⟨by decide, hword⟩)
    have heq := hsame.get (recordKey indexSegmentSize)
    rw [hlost, hkept] at heq
    cases heq

end Groonga.Hash
