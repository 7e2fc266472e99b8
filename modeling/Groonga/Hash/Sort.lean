import Groonga.Hash.Map
import Groonga.Lib.QuickSort
import Groonga.Lib.ByteOrder
import Mathlib

/-!
# Sorting a hash

The entries of a hash are packed into an array, beginning in the middle of the ids, and the first one
of them is the pivot of the first partition. Then as many entries are sorted as wanted. What is
compared is the key or the value from an offset on: as bytes, as a number, or by a function. When it
has four bytes, it is put into the array itself, with the id; otherwise the array has pointers to the
entries, and the ids are looked up in the table of the hash at the end.
-/

namespace Groonga.Hash

open Lib

/-! ## What is compared -/

/-- `grn_table_sort_optarg`: its flags, `compar`, which says whether the first bytes belong behind the
others, and `offset`. -/
structure SortArg where
  descending : Bool
  byId : Bool
  byValue : Bool
  asNumber : Bool
  asUnsigned : Bool
  asInt64 : Bool
  compar : Option (List UInt8 → List UInt8 → Bool)
  offset : ℕ

/-- `grn_hash_entry_get_key`: the memory from the key of an entry on. -/
def GrnHash.keyAt (g : Config) (s : GrnHash) (id : ℕ) : ℕ → UInt8 :=
  let e := s.entries id
  if g.varSize then
    if e.isImmediate then e.key
    else if g.io then fun i => s.keys (e.keyOffset g + i)
    else fun i => e.pointed.getD i 0
  else if g.keySize = 4 then fun i => if i < 4 then (leBytes 4 e.word).getD i 0 else e.value (i - 4)
  else fun i => if i < g.keySize then e.key i else e.value (i - g.keySize)

/-- `PREPARE_VAL`: the memory from the value or the key on, and its size. -/
def prepareVal (g : Config) (s : GrnHash) (arg : SortArg) (id : ℕ) : (ℕ → UInt8) × ℕ :=
  let p := if arg.byValue then (s.entries id).value else s.keyAt g id
  let size := if arg.byValue then g.valueSize else (s.entries id).getKeySize g
  (fun i => p (arg.offset + i), (((size : ℤ) - arg.offset) % 0x100000000).toNat)

/-- A number of so many bits with a sign. -/
def signedOf (bits n : ℕ) : ℤ := if n < 2 ^ (bits - 1) then n else (n : ℤ) - 2 ^ bits

/-- `grn_str_greater`. -/
def strGreater : List UInt8 → List UInt8 → Bool
  | [], _ => false
  | _ :: _, [] => true
  | a :: as, b :: bs =>
    if a.toNat < b.toNat then false else if b.toNat < a.toNat then true else strGreater as bs

/-- `COMPARE_VAL_`. -/
def compareVal' (arg : SortArg) (a b : (ℕ → UInt8) × ℕ) : Bool :=
  match arg.compar with
  | some compar => compar (read a.1 0 a.2) (read b.1 0 b.2)
  | none =>
    if arg.asNumber then
      if arg.asUnsigned then
        if arg.asInt64 then decide (readNat b.1 0 8 < readNat a.1 0 8)
        else decide (readNat b.1 0 4 < readNat a.1 0 4)
      else
        if arg.asInt64 then decide (signedOf 64 (readNat b.1 0 8) < signedOf 64 (readNat a.1 0 8))
        else decide (signedOf 32 (readNat b.1 0 4) < signedOf 32 (readNat a.1 0 4))
    else strGreater (read a.1 0 a.2) (read b.1 0 b.2)

/-- `COMPARE_VAL`. -/
def compareVal (arg : SortArg) (a b : (ℕ → UInt8) × ℕ) : Bool :=
  if arg.descending then compareVal' arg b a else compareVal' arg a b

/-- `val32`: the id, and what is compared. -/
structure Val32 where
  id : ℕ
  v : ℕ
deriving DecidableEq, Repr

/-- `PREPARE_VAL32`. -/
def prepareVal32 (g : Config) (s : GrnHash) (arg : SortArg) (id : ℕ) : Val32 :=
  let p := if arg.byValue then (s.entries id).value else s.keyAt g id
  ⟨id, if arg.byId then id % 0x100000000 else readNat p arg.offset 4⟩

/-- `COMPARE_VAL32_`. -/
def compareVal32' (arg : SortArg) (a b : Val32) : Bool :=
  match arg.compar with
  | some compar => compar (leBytes 4 a.v) (leBytes 4 b.v)
  | none =>
    if arg.asNumber then
      if arg.asUnsigned then decide (b.v < a.v) else decide (signedOf 32 b.v < signedOf 32 a.v)
    else memcmp (leBytes 4 a.v) (leBytes 4 b.v) = .gt

/-- `COMPARE_VAL32`. -/
def compareVal32 (arg : SortArg) (a b : Val32) : Bool :=
  if arg.descending then compareVal32' arg b a else compareVal32' arg a b

/-! ## Sorting -/

/-- `id = (id == m) ? 1 : id + 1`. -/
def nextId (m id : ℕ) : ℕ := if id = m then 1 else id + 1

/-- The first id from `id` on that is live. -/
def firstLive (s : GrnHash) (m : ℕ) : ℕ → ℕ → Option ℕ
  | 0, _ => none
  | fuel + 1, id => if s.bitmap id then some id else firstLive s m fuel (nextId m id)

section
variable {α : Type} (item : ℕ → α) (gt : α → α → Bool)

/-- The loop of `pack` and `pack_val32`. -/
def packLoop (s : GrnHash) (pivot : α) : ℕ → ℕ → ℕ → ℕ → (ℕ → α) → Option (ℕ × (ℕ → α))
  | 0, _, head, _, res => some (head, Function.update res head pivot)
  | n + 1, id, head, tail, res =>
    (firstLive s s.currRec s.currRec (nextId s.currRec id)).bind fun id =>
      if gt pivot (item id) then packLoop s pivot n id (head + 1) tail (Function.update res head (item id))
      else packLoop s pivot n id head (tail - 1) (Function.update res tail (item id))

/-- `pack` and `pack_val32`: where the pivot is, unless there are at most two entries. -/
def packEntries (s : GrnHash) (res : ℕ → α) : Option (Option ℕ × (ℕ → α)) :=
  (firstLive s s.currRec (s.currRec + 1) (s.currRec / 2)).bind fun id =>
    (packLoop item gt s (item id) (s.nEntries - 1) id 0 (s.nEntries - 1) res).map fun r =>
      (if 2 < s.nEntries then some r.1 else none, r.2)

/-- `sort` and `sort_val32`. The part before the pivot is always sorted, the part behind it when more
entries are wanted. -/
def sortEntries (s : GrnHash) (limit : ℕ) (res : ℕ → α) : Option (ℕ → α) :=
  (packEntries item gt s res).bind fun r =>
    match r.1 with
    | none => some r.2
    | some c => sortBoth (windowSort gt s.nEntries) 0 (s.nEntries - 1) c (-1) limit r.2

end

/-- The limit, with a negative one counted from the number of entries. -/
def sortLimit (s : GrnHash) (limit : ℤ) : ℤ :=
  let limit := if limit < 0 then limit + s.nEntries + 1 else limit
  if (s.nEntries : ℤ) < limit then s.nEntries else limit

/-- What is compared has four bytes, and is put into the array. -/
def SortArg.usesVal32 (g : Config) (arg : SortArg) : Bool :=
  if arg.byId || arg.byValue then decide ((g.valueSize : ℤ) - arg.offset = 4)
  else !g.varSize && decide (g.keySize = 4)

/-- `grn_table_sort_optarg opt = {0, NULL, NULL, NULL, 0}`. -/
def defaultSortArg : SortArg := ⟨false, false, false, false, false, false, none, 0⟩

/-- The ids of entries are stored, up to the limit. The loop ends behind an id that is nil. -/
def storeIds {α : Type} (toId : α → Option ℕ) : List α → Option (List ℕ)
  | [] => some []
  | e :: es => (toId e).bind fun id => if id = 0 then some [0] else (storeIds toId es).map (id :: ·)

/-- `grn_hash_sort`: the ids that are stored in the result. A pointer to an entry is its id. -/
def hashSort (g : Config) (s : GrnHash) (limit : ℤ) (optarg : Option SortArg) : Option (List ℕ) :=
  if s.nEntries = 0 then some []
  else
    let limit := sortLimit s limit
    if limit < 0 then some []
    else
      let entries (arg : SortArg) : Option (List ℕ) :=
        (sortEntries (fun id => id) (fun a b => compareVal arg (prepareVal g s arg a) (prepareVal g s arg b)) s
          limit.toNat fun _ => 0).bind fun res => storeIds (entry2id s) ((List.range limit.toNat).map res)
      match optarg with
      | some arg =>
        if arg.usesVal32 g then
          (sortEntries (prepareVal32 g s arg) (compareVal32 arg) s limit.toNat fun _ => ⟨0, 0⟩).bind fun res =>
            storeIds (fun r => some r.id) ((List.range limit.toNat).map res)
        else entries arg
      | none => entries defaultSortArg

/-! ## The order -/

/-- What `grn_table_sort_optarg` says about two entries: the first one belongs behind the second. -/
def sortGreater (g : Config) (s : GrnHash) : Option SortArg → ℕ → ℕ → Bool
  | none, a, b => compareVal defaultSortArg (prepareVal g s defaultSortArg a) (prepareVal g s defaultSortArg b)
  | some arg, a, b =>
    if arg.usesVal32 g then compareVal32 arg (prepareVal32 g s arg a) (prepareVal32 g s arg b)
    else compareVal arg (prepareVal g s arg a) (prepareVal g s arg b)

/-- A function that compares is a strict weak order. -/
def SortArg.Weak (arg : SortArg) : Prop := ∀ compar ∈ arg.compar, StrictWeak compar

variable {g : Config} {s : GrnHash} {arg : SortArg}

theorem strGreater_cons (a b : UInt8) (as bs : List UInt8) : strGreater (a :: as) (b :: bs) = true ↔
    b.toNat < a.toNat ∨ (a.toNat = b.toNat ∧ strGreater as bs = true) := by
  rw [strGreater]
  split_ifs with hlt hgt
  · exact iff_of_false not_false (by rintro (h | h) <;> omega)
  · exact iff_of_true rfl (.inl hgt)
  · exact ⟨fun h => .inr ⟨by omega, h⟩, fun h => (h.resolve_left hgt).2⟩

/-- Strings are compared byte by byte. -/
theorem strictWeak_strGreater : StrictWeak strGreater := by
  refine ⟨fun x => ?_, fun x => ?_⟩
  · induction x with
    | nil => exact fun y h => absurd h Bool.false_ne_true
    | cons a as ih =>
      intro y h
      cases y with
      | nil => rfl
      | cons b bs =>
        rw [Bool.eq_false_iff, ne_eq, strGreater_cons]
        rcases (strGreater_cons a b as bs).mp h with hlt | ⟨heq, hrest⟩
        · omega
        · rintro (hlt | ⟨-, hrest'⟩)
          · omega
          · exact Bool.eq_false_iff.mp (ih bs hrest) hrest'
  · induction x with
    | nil => exact fun y z _ _ => rfl
    | cons a as ih =>
      intro y z hxy hyz
      cases y with
      | nil => exact absurd hxy.symm Bool.false_ne_true
      | cons b bs =>
        cases z with
        | nil => exact absurd hyz.symm Bool.false_ne_true
        | cons c cs =>
          rw [Bool.eq_false_iff, ne_eq, strGreater_cons] at hxy hyz ⊢
          obtain ⟨hba, hrest⟩ := not_or.mp hxy
          obtain ⟨hcb, hrest'⟩ := not_or.mp hyz
          rintro (hca | ⟨heq, hgreater⟩)
          · omega
          · have has : strGreater as bs = false := Bool.eq_false_iff.mpr fun h => hrest ⟨by omega, h⟩
            have hbs : strGreater bs cs = false := Bool.eq_false_iff.mpr fun h => hrest' ⟨by omega, h⟩
            exact Bool.eq_false_iff.mp (ih bs cs has hbs) hgreater

/-- Strings of the same length are compared byte by byte, too. -/
theorem memcmp_gt_iff {x y : List UInt8} (hlength : x.length = y.length) :
    memcmp x y = .gt ↔ strGreater x y = true := by
  induction x generalizing y with
  | nil => exact iff_of_false (fun h => by cases h) Bool.false_ne_true
  | cons a as ih =>
    cases y with
    | nil => exact absurd hlength (Nat.succ_ne_zero _)
    | cons b bs =>
      rw [strGreater_cons, memcmp]
      rcases Nat.lt_trichotomy a.toNat b.toNat with hlt | heq | hgt
      · rw [Nat.compare_eq_lt.mpr hlt]
        exact iff_of_false (fun h => by cases h) (by rintro (h | h) <;> omega)
      · rw [Nat.compare_eq_eq.mpr heq, Ordering.eq_then, ih (Nat.succ.inj hlength)]
        exact ⟨fun h => .inr ⟨heq, h⟩, fun h => (h.resolve_left (by omega)).2⟩
      · rw [Nat.compare_eq_gt.mpr hgt]
        exact iff_of_true rfl (.inl hgt)

/-- Numbers are compared by their bytes. -/
theorem strictWeak_memcmp (n : ℕ) :
    StrictWeak fun v w : ℕ => decide (memcmp (leBytes n v) (leBytes n w) = .gt) := by
  have heq : (fun v w : ℕ => decide (memcmp (leBytes n v) (leBytes n w) = .gt)) =
      fun v w => strGreater (leBytes n v) (leBytes n w) := by
    funext v w
    rw [Bool.eq_iff_iff, decide_eq_true_iff]
    exact memcmp_gt_iff (by rw [length_leBytes, length_leBytes])
  rw [heq]
  exact strictWeak_strGreater.comap (leBytes n)

/-- **What is compared in the array** is a strict weak order. -/
theorem SortArg.Weak.compareVal32 (hweak : arg.Weak) : StrictWeak (compareVal32 arg) := by
  have hplain : StrictWeak (compareVal32' arg) := by
    have hcompar := hweak
    rw [SortArg.Weak] at hcompar
    cases hc : arg.compar with
    | some compar =>
      have h := (hcompar compar (by rw [hc]; rfl)).comap fun a : Val32 => leBytes 4 a.v
      have heq : compareVal32' arg = fun a b => compar (leBytes 4 a.v) (leBytes 4 b.v) := by
        funext a b
        rw [compareVal32', hc]
      rw [heq]
      exact h
    | none =>
      have heq : compareVal32' arg = fun a b =>
          if arg.asNumber then
            if arg.asUnsigned then decide (b.v < a.v) else decide (signedOf 32 b.v < signedOf 32 a.v)
          else memcmp (leBytes 4 a.v) (leBytes 4 b.v) = .gt := by
        funext a b
        rw [compareVal32', hc]
      rw [heq]
      split_ifs
      · exact strictWeak_gt fun a : Val32 => a.v
      · exact strictWeak_gt fun a : Val32 => signedOf 32 a.v
      · exact (strictWeak_memcmp 4).comap fun a : Val32 => a.v
  have heq : Hash.compareVal32 arg = fun a b =>
      if arg.descending then compareVal32' arg b a else compareVal32' arg a b := rfl
  rw [heq]
  split_ifs
  · exact hplain.flip
  · exact hplain

/-- **What is compared behind pointers** is a strict weak order. -/
theorem SortArg.Weak.compareVal (hweak : arg.Weak) : StrictWeak (compareVal arg) := by
  have hplain : StrictWeak (compareVal' arg) := by
    have hcompar := hweak
    rw [SortArg.Weak] at hcompar
    cases hc : arg.compar with
    | some compar =>
      have h := (hcompar compar (by rw [hc]; rfl)).comap fun a : (ℕ → UInt8) × ℕ => read a.1 0 a.2
      have heq : compareVal' arg = fun a b => compar (read a.1 0 a.2) (read b.1 0 b.2) := by
        funext a b
        rw [compareVal', hc]
      rw [heq]
      exact h
    | none =>
      have heq : compareVal' arg = fun a b =>
          if arg.asNumber then
            if arg.asUnsigned then
              if arg.asInt64 then decide (readNat b.1 0 8 < readNat a.1 0 8)
              else decide (readNat b.1 0 4 < readNat a.1 0 4)
            else
              if arg.asInt64 then decide (signedOf 64 (readNat b.1 0 8) < signedOf 64 (readNat a.1 0 8))
              else decide (signedOf 32 (readNat b.1 0 4) < signedOf 32 (readNat a.1 0 4))
          else strGreater (read a.1 0 a.2) (read b.1 0 b.2) := by
        funext a b
        rw [compareVal', hc]
      rw [heq]
      split_ifs
      · exact strictWeak_gt fun a : (ℕ → UInt8) × ℕ => readNat a.1 0 8
      · exact strictWeak_gt fun a : (ℕ → UInt8) × ℕ => readNat a.1 0 4
      · exact strictWeak_gt fun a : (ℕ → UInt8) × ℕ => signedOf 64 (readNat a.1 0 8)
      · exact strictWeak_gt fun a : (ℕ → UInt8) × ℕ => signedOf 32 (readNat a.1 0 4)
      · exact strictWeak_strGreater.comap fun a : (ℕ → UInt8) × ℕ => read a.1 0 a.2
  have heq : Hash.compareVal arg = fun a b =>
      if arg.descending then compareVal' arg b a else compareVal' arg a b := rfl
  rw [heq]
  split_ifs
  · exact hplain.flip
  · exact hplain

/-- **The order of a sort** is a strict weak order of the entries. -/
theorem strictWeak_sortGreater {optarg : Option SortArg} (hweak : ∀ arg ∈ optarg, arg.Weak) :
    StrictWeak (sortGreater g s optarg) := by
  cases optarg with
  | none =>
    have hdefault : defaultSortArg.Weak := fun compar hcompar => by cases hcompar
    exact hdefault.compareVal.comap (prepareVal g s defaultSortArg)
  | some arg =>
    have heq : sortGreater g s (some arg) = fun a b =>
        if arg.usesVal32 g then compareVal32 arg (prepareVal32 g s arg a) (prepareVal32 g s arg b)
        else compareVal arg (prepareVal g s arg a) (prepareVal g s arg b) := rfl
    rw [heq]
    split_ifs
    · exact (hweak arg rfl).compareVal32.comap _
    · exact (hweak arg rfl).compareVal.comap _

/-! ## Packing -/

/-- **An intact hash**: the live ids were handed out and are counted, and the probes of the hash value
of each live entry come to its id before they come to nil. -/
structure Intact (s : GrnHash) : Prop where
  ids : ∀ id, s.bitmap id = true → 0 < id ∧ id ≤ s.currRec
  count : s.nEntries = Set.ncard {id | s.bitmap id = true}
  currRec_le : s.currRec ≤ idMax
  indexed : ∀ id, s.bitmap id = true → ∃ k ≤ s.maxOffset,
    s.idxAt ((fun i => nextProbe i (calculateStep (s.entries id).word))^[k] (s.entries id).word) = id ∧
      ∀ j < k, s.idxAt ((fun i => nextProbe i (calculateStep (s.entries id).word))^[j] (s.entries id).word) ≠ 0

/-- The live ids. -/
def GrnHash.liveIds (s : GrnHash) : List ℕ := (List.range' 1 s.currRec).filter fun id => s.bitmap id

theorem Intact.mem_liveIds (hs : Intact s) {id : ℕ} : id ∈ s.liveIds ↔ s.bitmap id = true := by
  rw [GrnHash.liveIds, List.mem_filter, List.mem_range'_1]
  refine ⟨fun h => h.2, fun h => ⟨?_, h⟩⟩
  obtain ⟨hpos, hle⟩ := hs.ids id h
  omega

theorem nodup_liveIds (s : GrnHash) : s.liveIds.Nodup := (List.nodup_range' 1).filter _

theorem Intact.length_liveIds (hs : Intact s) : s.liveIds.length = s.nEntries := by
  rw [hs.count, ← List.toFinset_card_of_nodup (nodup_liveIds s), ← Set.ncard_coe_finset]
  congr 1
  ext id
  rw [Finset.mem_coe, List.mem_toFinset, hs.mem_liveIds]
  rfl

variable {m id n fuel : ℕ}

/-- The ids from an id on, one after another. -/
theorem iterate_nextId {k : ℕ} (hle : id + k ≤ m + 1) : List.iterate (nextId m) id k = List.range' id k := by
  induction k generalizing id with
  | zero => rfl
  | succ k ih =>
    rw [List.iterate, List.range'_succ]
    congr 1
    cases k with
    | zero => rfl
    | succ k =>
      have hnext : nextId m id = id + 1 := if_neg (by omega)
      rw [hnext]
      exact ih (by omega)

/-- Behind the last id comes the first one. -/
theorem iterate_nextId_wrap {k : ℕ} (hle : id ≤ m) : List.iterate (nextId m) id (m + 1 - id + k) =
    List.range' id (m + 1 - id) ++ List.iterate (nextId m) 1 k := by
  obtain ⟨d, hd⟩ : ∃ d, m - id = d := ⟨_, rfl⟩
  induction d generalizing id with
  | zero =>
    obtain rfl : id = m := by omega
    have hone : id + 1 - id = 1 := by omega
    have hnext : nextId id id = 1 := if_pos rfl
    rw [hone, Nat.add_comm 1 k, List.iterate, hnext]
    rfl
  | succ d ih =>
    have hsucc : m + 1 - id = m + 1 - (id + 1) + 1 := by omega
    have hnext : nextId m id = id + 1 := if_neg (by omega)
    rw [hsucc, Nat.add_right_comm, List.iterate, hnext, List.range'_succ, List.cons_append, ih (by omega) (by omega)]

/-- **The ids around**, from behind an id to this id. -/
def around (m id : ℕ) : List ℕ := List.range' (id + 1) (m - id) ++ List.range' 1 id

theorem length_around (hle : id ≤ m) : (around m id).length = m := by
  rw [around, List.length_append, List.length_range', List.length_range']
  omega

theorem around_eq (hle : id ≤ m) :
    around m id = List.iterate (nextId m) (nextId m id) (around m id).length := by
  rw [length_around hle]
  by_cases hlast : id = m
  · have hnext : nextId m id = 1 := if_pos hlast
    rw [hnext, iterate_nextId (by omega), around, hlast, Nat.sub_self]
    rfl
  · have hnext : nextId m id = id + 1 := if_neg hlast
    have hsum : m = m + 1 - (id + 1) + id := by omega
    rw [hnext]
    nth_rewrite 3 [hsum]
    rw [iterate_nextId_wrap (by omega), iterate_nextId (by omega), around, Nat.add_sub_add_right]

/-- **The live ids on a way** are found one after another. -/
theorem firstLive_way {R xs : List ℕ} {x : ℕ} (hway : R = List.iterate (nextId m) id R.length)
    (hfuel : R.length ≤ fuel) (hlive : R.filter s.bitmap = x :: xs) :
    firstLive s m fuel id = some x ∧ ∃ R', R' = List.iterate (nextId m) (nextId m x) R'.length ∧
      R'.length ≤ R.length ∧ R'.filter s.bitmap = xs := by
  induction R generalizing id fuel with
  | nil => cases hlive
  | cons y R ih =>
    rw [List.length_cons, List.iterate] at hway
    obtain ⟨hy, hrest⟩ := List.cons.inj hway
    subst hy
    obtain ⟨fuel', hsucc⟩ := Nat.exists_eq_add_of_le' (Nat.le_trans (Nat.le_add_left 1 _) hfuel)
    subst hsucc
    rw [firstLive]
    cases hbit : s.bitmap y with
    | true =>
      rw [List.filter_cons_of_pos hbit] at hlive
      obtain ⟨hx, hxs⟩ := List.cons.inj hlive
      subst hx
      exact ⟨if_pos rfl, R, hrest, Nat.le_succ _, hxs⟩
    | false =>
      rw [List.filter_cons_of_neg (by rw [hbit]; exact Bool.false_ne_true)] at hlive
      obtain ⟨hfound, R', hR', hle, hfilter⟩ := ih hrest (Nat.le_of_succ_le_succ hfuel) hlive
      exact ⟨(if_neg Bool.false_ne_true).trans hfound, R', hR', hle.trans (Nat.le_succ _), hfilter⟩

section
variable {α : Type} {item : ℕ → α} {gt : α → α → Bool}

/-- **The loop of `pack`** packs the next live entries. -/
theorem packLoop_eq {pivot : α} {n id head tail : ℕ} {res : ℕ → α} {R : List ℕ}
    (hway : R = List.iterate (nextId s.currRec) (nextId s.currRec id) R.length) (hlength : R.length ≤ s.currRec)
    (hn : n ≤ (R.filter s.bitmap).length) : packLoop item gt s pivot n id head tail res =
      some (packItems gt pivot (((R.filter s.bitmap).take n).map item) head tail res) := by
  induction n generalizing id head tail res R with
  | zero => rfl
  | succ n ih =>
    cases hlive : R.filter s.bitmap with
    | nil =>
      rw [hlive] at hn
      exact absurd hn (Nat.not_succ_le_zero n)
    | cons x xs =>
      rw [hlive] at hn
      obtain ⟨hfound, R', hway', hle, hxs⟩ := firstLive_way hway hlength hlive
      subst hxs
      have hrest : ∀ head tail res, packLoop item gt s pivot n x head tail res =
          some (packItems gt pivot (((R'.filter s.bitmap).take n).map item) head tail res) :=
        fun head tail res => ih hway' (hle.trans hlength) (Nat.le_of_succ_le_succ hn)
      rw [packLoop, hfound, Option.bind_some, List.take_succ_cons, List.map_cons, packItems]
      split_ifs
      · exact hrest _ _ _
      · exact hrest _ _ _

/-- The first entry is found from the middle of the ids on. -/
theorem Intact.firstLive_middle (hs : Intact s) (hne : s.nEntries ≠ 0) :
    ∃ id, firstLive s s.currRec (s.currRec + 1) (s.currRec / 2) = some id ∧ s.bitmap id = true := by
  obtain ⟨R, hR⟩ : ∃ R, R = List.range' (s.currRec / 2) (s.currRec + 1 - s.currRec / 2) ++
      List.iterate (nextId s.currRec) 1 (s.currRec / 2) := ⟨_, rfl⟩
  have hlength : R.length = s.currRec + 1 := by
    rw [hR, List.length_append, List.length_range', List.length_iterate]
    omega
  have hway : R = List.iterate (nextId s.currRec) (s.currRec / 2) R.length := by
    have hsum : s.currRec + 1 = s.currRec + 1 - s.currRec / 2 + s.currRec / 2 := by omega
    have hwrap := iterate_nextId_wrap (k := s.currRec / 2) (Nat.div_le_self s.currRec 2)
    rw [← hsum] at hwrap
    rw [hlength, hR, hwrap]
  obtain ⟨x, hx⟩ : ∃ x, x ∈ s.liveIds := by
    refine List.exists_mem_of_length_pos ?_
    rw [hs.length_liveIds]
    exact Nat.pos_of_ne_zero hne
  have hbit := hs.mem_liveIds.mp hx
  obtain ⟨hpos, hle⟩ := hs.ids x hbit
  have hmem : x ∈ R.filter s.bitmap := by
    rw [List.mem_filter]
    refine ⟨?_, hbit⟩
    rw [hR, iterate_nextId (by omega), List.mem_append, List.mem_range'_1, List.mem_range'_1]
    omega
  cases hlive : R.filter s.bitmap with
  | nil =>
    rw [hlive] at hmem
    cases hmem
  | cons id ids =>
    have hid : id ∈ R.filter s.bitmap := by
      rw [hlive]
      exact List.mem_cons_self
    exact ⟨id, (firstLive_way hway (Nat.le_of_eq hlength) hlive).1, (List.mem_filter.mp hid).2⟩

/-- **`pack`** parts the live entries. -/
theorem Intact.packEntries_spec (hs : Intact s) (item : ℕ → α) (gt : α → α → Bool) (hne : s.nEntries ≠ 0) (res : ℕ → α) :
    ∃ pivot items r, Packed gt pivot items (s.nEntries - 1) r ∧ items.Perm (s.liveIds.map item) ∧
      packEntries item gt s res = some (if 2 < s.nEntries then some r.1 else none, r.2) := by
  obtain ⟨id, hfirst, hbit⟩ := hs.firstLive_middle hne
  obtain ⟨hpos, hle⟩ := hs.ids id hbit
  -- the others are around this entry, and the entry itself comes last
  obtain ⟨A, hA⟩ : ∃ A, A = (List.range' (id + 1) (s.currRec - id) ++ List.range' 1 (id - 1)).filter s.bitmap :=
    ⟨_, rfl⟩
  have haround : (around s.currRec id).filter s.bitmap = A ++ [id] := by
    have hlast : List.range' 1 id = List.range' 1 (id - 1) ++ [id] := by
      have hsplit : List.range' 1 (id - 1 + 1) = _ := List.range'_concat
      have hsucc : id - 1 + 1 = id := by omega
      have hid : 1 + 1 * (id - 1) = id := by omega
      rw [hsucc, hid] at hsplit
      exact hsplit
    rw [around, hlast, ← List.append_assoc, List.filter_append, ← hA, List.filter_singleton, hbit]
    rfl
  have hperm : (id :: A).Perm s.liveIds := by
    have hall : (around s.currRec id).Perm (List.range' 1 s.currRec) := by
      have hsplit : List.range' 1 id ++ List.range' (1 + id) (s.currRec - id) = List.range' 1 s.currRec := by
        rw [List.range'_append_1]
        congr 1
        omega
      rw [around, ← hsplit, Nat.add_comm 1 id]
      exact List.perm_append_comm
    have hfilter := hall.filter s.bitmap
    rw [haround] at hfilter
    exact (List.perm_append_singleton id A).symm.trans hfilter
  have hcount : A.length = s.nEntries - 1 := by
    have hlength := hperm.length_eq
    rw [hs.length_liveIds, List.length_cons] at hlength
    omega
  have hpacked := @packItems_spec α gt res (item id) (A.map item) 0 (s.nEntries - 1) (s.nEntries - 1)
    (by rw [List.length_map, hcount, Nat.zero_add]) (Nat.le_refl _) (fun i hi => absurd hi (Nat.not_lt_zero i)) (fun i hi₁ hi₂ => absurd hi₁ (Nat.not_lt.mpr hi₂))
  rw [List.range_zero, List.map_nil, List.nil_append, Nat.sub_self, List.range'_zero, List.map_nil,
    List.append_nil] at hpacked
  refine ⟨item id, _, _, hpacked, hperm.map item, ?_⟩
  have hloop : packLoop item gt s (item id) (s.nEntries - 1) id 0 (s.nEntries - 1) res = _ :=
    packLoop_eq (around_eq hle) (Nat.le_of_eq (length_around hle)) (by rw [haround, List.length_append, hcount]; exact Nat.le_add_right _ _)
  rw [haround, ← hcount, List.take_left] at hloop
  rw [packEntries, hfirst, Option.bind_some, ← hcount, hloop]
  rfl

/-- **`sort`** arranges the live entries so that those up to the limit are sorted. -/
theorem Intact.sortEntries_spec (hs : Intact s) (item : ℕ → α) (hgt : StrictWeak gt) (hne : s.nEntries ≠ 0) (limit : ℕ)
    (res : ℕ → α) : ∃ a, sortEntries item gt s limit res = some a ∧
      ((List.range s.nEntries).map a).Perm (s.liveIds.map item) ∧
        ∀ i j, i < j → j < s.nEntries → i < limit → gt (a i) (a j) = false := by
  obtain ⟨pivot, items, r, hpacked, hperm, heq⟩ := hs.packEntries_spec item gt hne res
  have hsucc : s.nEntries - 1 + 1 = s.nEntries := by omega
  rw [sortEntries, heq, Option.bind_some]
  by_cases hmany : 2 < s.nEntries
  · obtain ⟨a, hsort, hperm', hsorted⟩ := hpacked.sorts hgt (-1) limit
    rw [hsucc] at hsort hperm'
    rw [if_pos hmany]
    refine ⟨a, hsort, hperm'.trans hperm, fun i j hij hj hi => hsorted i j (Nat.zero_le i) hij (by omega) (.inl ?_)⟩
    exact ⟨by omega, by omega⟩
  · -- two entries are sorted when they are parted
    have hall := hpacked.perm
    rw [hsucc] at hall
    rw [if_neg hmany]
    refine ⟨r.2, rfl, hall.trans hperm, fun i j hij hj _ => ?_⟩
    obtain rfl : i = 0 := by omega
    obtain rfl : j = 1 := by omega
    have hle := hpacked.le
    by_cases hzero : r.1 = 0
    · have hmiddle := hpacked.middle
      rw [hzero] at hmiddle
      rw [hmiddle]
      exact hpacked.behind 1 (by omega) (by omega)
    · have hone : r.1 = 1 := by omega
      have hmiddle := hpacked.middle
      rw [hone] at hmiddle
      rw [hmiddle]
      exact hgt.asymm _ _ (hpacked.before 0 (by omega))

end

/-! ## The result -/

/-- **Where the probes stop.** -/
theorem probeLoop_eq_some_iff {step fuel i : ℕ} {stop : ℕ → Bool} {r : ℕ × ℕ} :
    probeLoop s step stop fuel i = some r ↔ ∃ k < fuel,
      r = ((fun i => nextProbe i step)^[k] i, s.idxAt ((fun i => nextProbe i step)^[k] i)) ∧ stop r.2 = true ∧
        ∀ j < k, stop (s.idxAt ((fun i => nextProbe i step)^[j] i)) = false := by
  induction fuel generalizing i with
  | zero => exact iff_of_false (fun h => by cases h) (by rintro ⟨k, hk, -⟩; exact Nat.not_lt_zero k hk)
  | succ fuel ih =>
    rw [probeLoop]
    cases hstop : stop (s.idxAt i) with
    | true =>
      rw [if_pos rfl]
      constructor
      · intro heq
        obtain rfl := Option.some.inj heq
        exact ⟨0, Nat.succ_pos fuel, rfl, hstop, fun j hj => absurd hj (Nat.not_lt_zero j)⟩
      · rintro ⟨k, -, rfl, -, hbefore⟩
        cases k with
        | zero => rfl
        | succ k =>
          have hno := hbefore 0 (Nat.succ_pos k)
          rw [Function.iterate_zero_apply, hstop] at hno
          cases hno
    | false =>
      rw [if_neg Bool.false_ne_true, ih]
      constructor
      · rintro ⟨k, hk, rfl, hend, hbefore⟩
        refine ⟨k + 1, Nat.succ_lt_succ hk, rfl, hend, fun j hj => ?_⟩
        cases j with
        | zero => exact hstop
        | succ j => exact hbefore j (Nat.lt_of_succ_lt_succ hj)
      · rintro ⟨k, hk, rfl, hend, hbefore⟩
        cases k with
        | zero =>
          rw [Function.iterate_zero_apply, hstop] at hend
          cases hend
        | succ k =>
          exact ⟨k, Nat.lt_of_succ_lt_succ hk, rfl, hend, fun j hj => hbefore (j + 1) (Nat.succ_lt_succ hj)⟩

/-- **The id of an entry** is found in the table. -/
theorem Intact.entry2id_eq (hs : Intact s) (hlive : s.bitmap id = true) : entry2id s id = some id := by
  obtain ⟨k, hk, hat, hbefore⟩ := hs.indexed id hlive
  -- the id is found by the first probe that comes to it
  have hex : ∃ k, stopsAtId id (s.idxAt
      ((fun i => nextProbe i (calculateStep (s.entries id).word))^[k] (s.entries id).word)) = true :=
    ⟨k, by rw [hat, stopsAtId, Bool.or_eq_true, decide_eq_true_iff, decide_eq_true_iff]; exact .inr rfl⟩
  have hfirst : Nat.find hex ≤ k := Nat.find_min' hex
    (by rw [hat, stopsAtId, Bool.or_eq_true, decide_eq_true_iff, decide_eq_true_iff]; exact .inr rfl)
  have hstop := Nat.find_spec hex
  have hcontent : s.idxAt ((fun i => nextProbe i (calculateStep (s.entries id).word))^[Nat.find hex]
      (s.entries id).word) = id := by
    rcases Nat.eq_or_lt_of_le hfirst with heq | hlt
    · rw [heq]
      exact hat
    · rw [stopsAtId, Bool.or_eq_true, decide_eq_true_iff, decide_eq_true_iff] at hstop
      exact hstop.resolve_left (hbefore _ hlt)
  have hprobe : s.probe (s.entries id).word (stopsAtId id) = some (_, _) :=
    probeLoop_eq_some_iff.mpr ⟨Nat.find hex, Nat.lt_succ_of_le (hfirst.trans hk), rfl, hstop,
      fun j hj => Bool.eq_false_of_not_eq_true (Nat.find_min hex hj)⟩
  rw [entry2id, hprobe, Option.map_some, hcontent]

/-- The ids of entries that have one are stored. -/
theorem storeIds_eq {α : Type} {toId : α → Option ℕ} {f : α → ℕ} {es : List α}
    (hids : ∀ e ∈ es, toId e = some (f e) ∧ f e ≠ 0) : storeIds toId es = some (es.map f) := by
  induction es with
  | nil => rfl
  | cons e es ih =>
    obtain ⟨heq, hne⟩ := hids e List.mem_cons_self
    rw [storeIds, heq, Option.bind_some, if_neg hne, ih fun e he => hids e (List.mem_cons_of_mem _ he)]
    rfl

/-- How many entries are wanted: with a negative limit, all but so many. -/
def GrnHash.wanted (s : GrnHash) (limit : ℤ) : ℕ :=
  (min (if limit < 0 then limit + s.nEntries + 1 else limit) s.nEntries).toNat

/-- **A sorted list of ids**: it has as many live ids as wanted, in order, and no other entry belongs
before one of them. -/
structure SortedIds (g : Config) (s : GrnHash) (optarg : Option SortArg) (limit : ℤ) (ids : List ℕ) : Prop where
  live : ∀ id ∈ ids, s.bitmap id = true
  nodup : ids.Nodup
  length : ids.length = s.wanted limit
  ordered : ids.Pairwise fun a b => sortGreater g s optarg a b = false
  best : ∀ other, s.bitmap other = true → other ∉ ids → ∀ id ∈ ids, sortGreater g s optarg id other = false

theorem wanted_eq {limit : ℤ} (hpos : 0 ≤ sortLimit s limit) : s.wanted limit = (sortLimit s limit).toNat := by
  rw [GrnHash.wanted]
  rw [sortLimit] at hpos ⊢
  split_ifs at hpos ⊢ <;> omega

theorem wanted_eq_zero {limit : ℤ} (hneg : sortLimit s limit < 0) : s.wanted limit = 0 := by
  rw [GrnHash.wanted]
  rw [sortLimit] at hneg
  split_ifs at hneg ⊢ <;> omega

theorem wanted_le (s : GrnHash) (limit : ℤ) : s.wanted limit ≤ s.nEntries := by
  rw [GrnHash.wanted]
  omega

/-- The ids of the sorted entries are a sorted list of ids. -/
theorem Intact.sortedIds (hs : Intact s) (g : Config) (optarg : Option SortArg) (limit : ℤ) {f : ℕ → ℕ}
    (hperm : ((List.range s.nEntries).map f).Perm s.liveIds) (hsorted : ∀ i j, i < j → j < s.nEntries →
      i < s.wanted limit → sortGreater g s optarg (f i) (f j) = false) :
    SortedIds g s optarg limit ((List.range (s.wanted limit)).map f) := by
  have hle := wanted_le s limit
  have hmem : ∀ id, s.bitmap id = true ↔ ∃ i < s.nEntries, f i = id := by
    intro id
    rw [← hs.mem_liveIds, ← hperm.mem_iff, List.mem_map]
    simp only [List.mem_range]
  have htake : (List.range s.nEntries).take (s.wanted limit) = List.range (s.wanted limit) := by
    rw [List.take_range, Nat.min_eq_left hle]
  refine ⟨fun id hid => ?_, ?_, ?_, ?_, fun other hother hout id hid => ?_⟩
  · obtain ⟨i, hi, rfl⟩ := List.mem_map.mp hid
    exact (hmem _).mpr ⟨i, Nat.lt_of_lt_of_le (List.mem_range.mp hi) hle, rfl⟩
  · have hall : ((List.range s.nEntries).map f).Nodup := hperm.nodup_iff.mpr (nodup_liveIds s)
    rw [← htake, List.map_take]
    exact hall.sublist (List.take_sublist _ _)
  · rw [List.length_map, List.length_range]
  · rw [List.pairwise_map]
    refine (List.pairwise_lt_range).imp_of_mem fun {i j} hi hj hij => ?_
    exact hsorted i j hij (Nat.lt_of_lt_of_le (List.mem_range.mp hj) hle) (List.mem_range.mp hi)
  · obtain ⟨j, hj, rfl⟩ := (hmem other).mp hother
    obtain ⟨i, hi, rfl⟩ := List.mem_map.mp hid
    have hi' := List.mem_range.mp hi
    refine hsorted i j ?_ hj hi'
    by_contra hlt
    exact hout (List.mem_map.mpr ⟨j, List.mem_range.mpr (by omega), rfl⟩)

/-- **A sort behind pointers.** -/
theorem Intact.sort_entries (hs : Intact s) {optarg : Option SortArg} {limit : ℤ} {gt : ℕ → ℕ → Bool}
    (hne : s.nEntries ≠ 0) (hgt : StrictWeak gt) (hsame : sortGreater g s optarg = gt) : ∃ ids,
      (sortEntries (fun id => id) gt s (s.wanted limit) fun _ => 0).bind (fun res =>
        storeIds (entry2id s) ((List.range (s.wanted limit)).map res)) = some ids ∧
        SortedIds g s optarg limit ids := by
  obtain ⟨a, heq, hperm, hsorted⟩ := hs.sortEntries_spec (fun id => id) hgt hne (s.wanted limit) fun _ => 0
  rw [List.map_id'] at hperm
  have hids := hs.sortedIds g optarg limit hperm (fun i j hij hj hi => by
    rw [hsame]
    exact hsorted i j hij hj hi)
  rw [heq, Option.bind_some, storeIds_eq (f := fun id => id) fun id hid => ?_, List.map_id']
  · exact ⟨_, rfl, hids⟩
  · have hlive := hids.live id hid
    exact ⟨hs.entry2id_eq hlive, Nat.ne_of_gt (hs.ids id hlive).1⟩

/-- **A sort in the array.** -/
theorem Intact.sort_val32 (hs : Intact s) {arg : SortArg} {limit : ℤ} (hne : s.nEntries ≠ 0) (hweak : arg.Weak)
    (huses : arg.usesVal32 g = true) : ∃ ids,
      (sortEntries (prepareVal32 g s arg) (compareVal32 arg) s (s.wanted limit) fun _ => ⟨0, 0⟩).bind (fun res =>
        storeIds (fun r => some r.id) ((List.range (s.wanted limit)).map res)) = some ids ∧
        SortedIds g s (some arg) limit ids := by
  obtain ⟨a, heq, hperm, hsorted⟩ := hs.sortEntries_spec (prepareVal32 g s arg) hweak.compareVal32 hne
    (s.wanted limit) fun _ => ⟨0, 0⟩
  -- an item of the array is given by its id
  have hitem : ∀ i < s.nEntries, a i = prepareVal32 g s arg (a i).id := by
    intro i hi
    have hmem : a i ∈ s.liveIds.map (prepareVal32 g s arg) :=
      hperm.mem_iff.mp (List.mem_map_of_mem (List.mem_range.mpr hi))
    obtain ⟨id, -, hid⟩ := List.mem_map.mp hmem
    rw [← hid]
    rfl
  have hpermIds : ((List.range s.nEntries).map fun i => (a i).id).Perm s.liveIds := by
    have hmap := hperm.map Val32.id
    rw [List.map_map, List.map_map] at hmap
    have hid : s.liveIds.map (Val32.id ∘ prepareVal32 g s arg) = s.liveIds := List.map_id' _
    rw [hid] at hmap
    exact hmap
  have hids := hs.sortedIds g (some arg) limit hpermIds (fun i j hij hj hi => by
    have hgreater : sortGreater g s (some arg) (a i).id (a j).id =
        compareVal32 arg (prepareVal32 g s arg (a i).id) (prepareVal32 g s arg (a j).id) := if_pos huses
    rw [hgreater, ← hitem i (hij.trans hj), ← hitem j hj]
    exact hsorted i j hij hj hi)
  rw [heq, Option.bind_some, storeIds_eq (f := Val32.id) fun e he => ?_, List.map_map]
  · exact ⟨_, rfl, hids⟩
  · obtain ⟨i, hi, rfl⟩ := List.mem_map.mp he
    exact ⟨rfl, Nat.ne_of_gt (hs.ids _ (hids.live _ (List.mem_map_of_mem hi))).1⟩

/-- **The result of `grn_hash_sort`** is a sorted list of ids. -/
theorem Intact.hashSort_spec (hs : Intact s) (hne : s.nEntries ≠ 0) {optarg : Option SortArg}
    (hweak : ∀ arg ∈ optarg, arg.Weak) (limit : ℤ) :
    ∃ ids, hashSort g s limit optarg = some ids ∧ SortedIds g s optarg limit ids := by
  rw [hashSort, if_neg hne]
  by_cases hneg : sortLimit s limit < 0
  · have hids := hs.sortedIds g optarg limit (f := fun i => s.liveIds.getD i 0)
      (.of_eq (by
        refine List.ext_getElem (by rw [List.length_map, List.length_range, hs.length_liveIds]) fun i h₁ h₂ => ?_
        rw [List.getElem_map, List.getElem_range, List.getD_eq_getElem _ _ h₂])) (fun i j _ _ hi => by
        rw [wanted_eq_zero hneg] at hi
        exact absurd hi (Nat.not_lt_zero i))
    rw [wanted_eq_zero hneg, List.range_zero, List.map_nil] at hids
    exact ⟨[], if_pos hneg, hids⟩
  · have hwanted := wanted_eq (not_lt.mp hneg)
    simp only [if_neg hneg, ← hwanted]
    have hgt := strictWeak_sortGreater (g := g) (s := s) hweak
    cases optarg with
    | none => exact hs.sort_entries hne hgt rfl
    | some arg =>
      by_cases huses : arg.usesVal32 g = true
      · simp only [if_pos huses]
        exact hs.sort_val32 hne (hweak arg rfl) huses
      · simp only [if_neg huses]
        have hsame : sortGreater g s (some arg) = fun a b =>
            compareVal arg (prepareVal g s arg a) (prepareVal g s arg b) := by
          funext a b
          exact if_neg huses
        rw [hsame] at hgt
        exact hs.sort_entries hne hgt hsame

/-! ## Runs -/

/-- A hash with its invariant is intact. -/
theorem Inv.intact (hI : Inv g s) : Intact s := by
  refine ⟨hI.keys.ids, hI.nEntries_eq, hI.currRec_le, fun id hlive => ?_⟩
  obtain ⟨i, heq, -⟩ := hI.probe_id hlive
  obtain ⟨k, hk, hr, -, hbefore⟩ := probeLoop_eq_some_iff.mp heq
  refine ⟨k, Nat.le_of_lt_succ hk, (Prod.mk.inj hr).2.symm, fun j hj hzero => ?_⟩
  have hno := hbefore j hj
  rw [hzero] at hno
  cases hno

end Groonga.Hash
