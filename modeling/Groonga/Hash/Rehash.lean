import Groonga.Hash.Deleting

/-!
# Hashing again

The entries are copied to a table that has only nil slots, each to the first nil slot of its probes.
The copying stops when it has seen as many entries as there are. In the new table there is no slot
that was left, and every entry is reached from its hash value again.
-/

namespace Groonga.Hash

open Lib

variable {g : Config} {s s' : GrnHash} {id i k m : ℕ} {dest newMax : ℕ} {index : ℕ → ℕ}
  {src : (ℕ → ℕ) → ℕ → ℕ}

/-- The hash with another table. -/
def GrnHash.moved (s : GrnHash) (dest newMax : ℕ) (index : ℕ → ℕ) : GrnHash :=
  { s with maxOffset := newMax, idxOffset := dest, index := index }

/-! ## Copying -/

/-- The slot of a probe stands for the probe. -/
theorem GrnHash.Sized.probes_and (hs : s.Sized) {hashValue step : ℕ} (hi : s.Probes hashValue step k i) :
    s.Probes hashValue step k (i &&& s.maxOffset) := by
  rw [GrnHash.Probes, hs.and_eq, Nat.mod_mod]
  exact hi

/-- The loop that looks for a nil slot is a search along the probes. -/
theorem destLoop_eq (hs : (s.moved dest newMax index).Sized) {hashValue step fuel j : ℕ}
    (hi : (s.moved dest newMax index).Probes hashValue step k i)
    (hfirst : firstFrom (fun k => (s.moved dest newMax index).slots.at'
      (probeAt (newMax + 1) hashValue step k) == 0) fuel k = some j) :
    destLoop index dest newMax step fuel i = some (probeAt (newMax + 1) hashValue step j + dest) := by
  induction fuel generalizing k i with
  | zero => cases hfirst
  | succ fuel ih =>
    have hslot : i &&& newMax = probeAt (newMax + 1) hashValue step k := (hs.and_eq i).trans hi
    rw [firstFrom] at hfirst
    rw [destLoop]
    simp only [hslot]
    by_cases hzero : index (probeAt (newMax + 1) hashValue step k + dest) = 0
    · have hat : ((s.moved dest newMax index).slots.at' (probeAt (newMax + 1) hashValue step k) == 0) = true :=
        beq_iff_eq.mpr hzero
      rw [if_pos hat] at hfirst
      obtain rfl := Option.some.inj hfirst
      rw [if_pos hzero]
    · have hat : ¬ ((s.moved dest newMax index).slots.at' (probeAt (newMax + 1) hashValue step k) == 0) = true :=
        fun h => hzero (beq_iff_eq.mp h)
      rw [if_neg hat] at hfirst
      rw [if_neg hzero]
      refine ih ?_ hfirst
      have hnext := hs.next (hs.probes_and hi)
      rw [show (i &&& (s.moved dest newMax index).maxOffset) = probeAt (newMax + 1) hashValue step k from hslot]
        at hnext
      exact hnext

/-- **The first slots of the old table were copied.** -/
structure Copied (s : GrnHash) (src : (ℕ → ℕ) → ℕ → ℕ) (dest newMax srcPos count : ℕ) (index : ℕ → ℕ) :
    Prop where
  sized : (s.moved dest newMax index).Sized
  holds : (s.moved dest newMax index).slots.Holds garbage (fun id => (s.entries id).word) calculateStep
  clean : (s.moved dest newMax index).slots.count (· == garbage) = 0
  has : ∀ x, isEntry garbage x = true →
    ((s.moved dest newMax index).slots.Has x ↔ ∃ j < srcPos, s.slots.at' j = x)
  copied : (s.moved dest newMax index).slots.count (isEntry garbage) = count
  seen : (s.slots.upTo srcPos).count (isEntry garbage) = count
  srcPos_le : srcPos ≤ s.maxOffset + 1
  source : ∀ j ≤ s.maxOffset, src index (j + s.idxOffset) = s.slots.at' j

/-- What has no entry is not copied. -/
theorem Copied.skip {srcPos count : ℕ} (hc : Copied s src dest newMax srcPos count index)
    (hle : srcPos ≤ s.maxOffset) (hno : isEntry garbage (s.slots.at' srcPos) = false) :
    Copied s src dest newMax (srcPos + 1) count index := by
  refine ⟨hc.sized, hc.holds, hc.clean, fun x hx => ?_, hc.copied, ?_, by omega, hc.source⟩
  · rw [hc.has x hx]
    constructor
    · rintro ⟨j, hj, hat⟩
      exact ⟨j, by omega, hat⟩
    · rintro ⟨j, hj, hat⟩
      refine ⟨j, ?_, hat⟩
      rcases Nat.lt_succ_iff_lt_or_eq.mp hj with hlt | rfl
      · exact hlt
      · rw [hat, hx] at hno
        cases hno
  · rw [Slots.count_upTo_succ, hc.seen, if_neg (by rw [hno]; exact Bool.false_ne_true), Nat.add_zero]

/-- **An entry is copied.** -/
theorem Copied.copy (hinj : s.slots.Holds garbage (fun id => (s.entries id).word) calculateStep)
    {srcPos count : ℕ} (hc : Copied s src dest newMax srcPos count index)
    (hsrc : ∀ index pos x, dest ≤ pos → pos ≤ dest + newMax → ∀ j ≤ s.maxOffset,
      src (Function.update index pos x) (j + s.idxOffset) = src index (j + s.idxOffset))
    (hle : srcPos ≤ s.maxOffset) (hentry : isEntry garbage (s.slots.at' srcPos) = true)
    (hroom : count ≤ newMax) :
    ∃ pos, destLoop index dest newMax (calculateStep (s.entries (s.slots.at' srcPos)).word) (newMax + 1)
        (s.entries (s.slots.at' srcPos)).word = some pos ∧
      Copied s src dest newMax (srcPos + 1) (count + 1) (Function.update index pos (s.slots.at' srcPos)) := by
  generalize hid : s.slots.at' srcPos = id at hentry
  -- fewer slots than there are have been filled
  have hused := (s.moved dest newMax index).slots.count_used garbage_ne_zero
  rw [hc.copied, hc.clean] at hused
  obtain ⟨slot, hslot, hnil⟩ := (s.moved dest newMax index).slots.exists_of_count_lt (q := (· != 0)) (by
    show _ < newMax + 1
    omega)
  have hzero : (s.moved dest newMax index).slots.at' slot = 0 := by simpa using hnil
  obtain ⟨k, hk, hprobe⟩ := hc.sized.exists_probe (s.entries id).word hslot
  have hstop : ((s.moved dest newMax index).slots.at' (probeAt (newMax + 1) (s.entries id).word
      (calculateStep (s.entries id).word) k) == 0) = true := by
    rw [show probeAt (newMax + 1) (s.entries id).word (calculateStep (s.entries id).word) k = slot from hprobe, hzero]
    rfl
  obtain ⟨j, hj⟩ := @exists_firstFrom (fun k => (s.moved dest newMax index).slots.at'
    (probeAt (newMax + 1) (s.entries id).word (calculateStep (s.entries id).word) k) == 0) (newMax + 1) 0 k
    (Nat.zero_le _) (by have : k < newMax + 1 := hk; omega) hstop
  obtain ⟨-, -, hjnil, hbefore⟩ := firstFrom_eq_some_iff.mp hj
  have hdest := destLoop_eq hc.sized (@probes_zero (s.moved dest newMax index) (s.entries id).word
    (calculateStep (s.entries id).word)) hj
  refine ⟨_, hdest, ?_⟩
  generalize htarget : probeAt (newMax + 1) (s.entries id).word (calculateStep (s.entries id).word) j = target at *
  have htargetLt : target < newMax + 1 := by
    rw [← htarget]
    exact probeAt_lt (Nat.succ_pos _) _ _ _
  have hslots : (s.moved dest newMax (Function.update index (target + dest) id)).slots =
      (s.moved dest newMax index).slots.set target id := by
    show Slots.mk _ _ = Slots.mk _ _
    congr 1
    funext l
    show Function.update index (target + dest) id (l + dest) =
      Function.update (fun l => index (l + dest)) target id l
    by_cases hl : l = target
    · rw [hl, Function.update_self, Function.update_self]
    · rw [Function.update_of_ne hl, Function.update_of_ne (by omega)]
  have hold : (s.moved dest newMax index).slots.at' target = 0 := by simpa using hjnil
  have hnew : ¬ (s.moved dest newMax index).slots.Has id := fun hhas => by
    obtain ⟨l, hl, hat⟩ := (hc.has id hentry).mp hhas
    have heq := hinj.inj l (by show l < s.maxOffset + 1; omega) srcPos (by show srcPos < s.maxOffset + 1; omega)
      (by rw [hat]; exact hentry) (hat.trans hid.symm)
    omega
  have hcountEntry := (s.moved dest newMax index).slots.count_set (x := id) (isEntry garbage) htargetLt
  have hcountTomb := (s.moved dest newMax index).slots.count_set (x := id) (· == garbage) htargetLt
  have hid' := isEntry_iff.mp hentry
  rw [hold, if_neg (by decide), if_pos hentry, hc.copied] at hcountEntry
  rw [hold, if_neg (by decide), if_neg (by simp [hid'.2]), hc.clean] at hcountTomb
  refine ⟨hc.sized, ?_, ?_, fun x hx => ?_, ?_, ?_, by omega, fun l hl => ?_⟩
  · rw [hslots]
    refine hc.holds.put htargetLt (by rw [hold]; decide) hentry hnew htarget fun l hl => ?_
    have := hbefore l (Nat.zero_le _) hl
    exact fun hzero' => by
      rw [show (s.moved dest newMax index).slots.at' (probeAt (newMax + 1) (s.entries id).word
        (calculateStep (s.entries id).word) l) = 0 from hzero'] at this
      exact absurd this (by decide)
  · rw [hslots]
    omega
  · rw [hslots, Slots.has_set htargetLt]
    constructor
    · rintro (rfl | ⟨l, hl, -, hat⟩)
      · exact ⟨srcPos, Nat.lt_succ_self _, hid⟩
      · obtain ⟨l', hl', hat'⟩ := (hc.has x hx).mp ⟨l, hl, hat⟩
        exact ⟨l', by omega, hat'⟩
    · rintro ⟨l, hl, hat⟩
      rcases Nat.lt_succ_iff_lt_or_eq.mp hl with hlt | rfl
      · obtain ⟨l', hl', hat'⟩ := (hc.has x hx).mpr ⟨l, hlt, hat⟩
        refine .inr ⟨l', hl', ?_, hat'⟩
        rintro rfl
        rw [hold] at hat'
        rw [← hat'] at hx
        exact absurd hx (by decide)
      · exact .inl (hat.symm.trans hid)
  · rw [hslots]
    omega
  · rw [Slots.count_upTo_succ, hc.seen, hid, if_pos hentry]
  · rw [hsrc index _ _ (by omega) (by omega) l hl]
    exact hc.source l hl

/-- **The copying ends**, and every entry was copied. -/
theorem copyLoop_spec (hinj : s.slots.Holds garbage (fun id => (s.entries id).word) calculateStep)
    (htotal : s.slots.count (isEntry garbage) = s.nEntries)
    (hsrc : ∀ index pos x, dest ≤ pos → pos ≤ dest + newMax → ∀ j ≤ s.maxOffset,
      src (Function.update index pos x) (j + s.idxOffset) = src index (j + s.idxOffset))
    (hroom : s.nEntries ≤ newMax + 1) {fuel srcPos count : ℕ}
    (hc : Copied s src dest newMax srcPos count index) (hfuel : srcPos + fuel = s.maxOffset + 1) :
    ∃ index', copyLoop s src dest newMax fuel srcPos count index = some index' ∧
      Copied s src dest newMax (s.maxOffset + 1) s.nEntries index' := by
  -- when all entries were seen, the rest of the table has none
  have hdone : ∀ {srcPos count index}, Copied s src dest newMax srcPos count index →
      s.nEntries ≤ count → Copied s src dest newMax (s.maxOffset + 1) s.nEntries index := by
    intro srcPos count index hc hall
    have hseen := hc.seen
    have hbound : (s.slots.upTo srcPos).count (isEntry garbage) ≤ s.slots.count (isEntry garbage) :=
      s.slots.count_upTo_mono (isEntry garbage) hc.srcPos_le
    have heq : count = s.nEntries := by omega
    refine ⟨hc.sized, hc.holds, hc.clean, fun x hx => ?_, heq ▸ hc.copied, htotal, Nat.le_refl _, hc.source⟩
    rw [hc.has x hx]
    constructor
    · rintro ⟨j, hj, hat⟩
      exact ⟨j, by have := hc.srcPos_le; omega, hat⟩
    · rintro ⟨j, hj, hat⟩
      have hfirst : s.slots.count (isEntry garbage) ≤ (s.slots.upTo srcPos).count (isEntry garbage) := by omega
      exact ⟨j, Slots.lt_of_count_upTo hfirst hj (by rw [hat]; exact hx), hat⟩
  induction fuel generalizing srcPos count index with
  | zero =>
    refine ⟨index, rfl, hdone hc ?_⟩
    have hseen := hc.seen
    rw [show srcPos = s.maxOffset + 1 by omega] at hseen
    have hall : (s.slots.upTo (s.maxOffset + 1)).count (isEntry garbage) = s.nEntries := htotal
    omega
  | succ fuel ih =>
    rw [copyLoop]
    by_cases hmore : count < s.nEntries ∧ srcPos ≤ s.maxOffset
    · rw [if_pos hmore]
      simp only [hc.source srcPos hmore.2]
      by_cases hno : s.slots.at' srcPos = 0 ∨ s.slots.at' srcPos = garbage
      · rw [if_pos hno]
        refine ih (hc.skip hmore.2 ?_) (by omega)
        rcases hno with hzero | hgarbage
        · rw [hzero]
          decide
        · rw [hgarbage]
          decide
      · rw [if_neg hno]
        push Not at hno
        obtain ⟨pos, hpos, hc'⟩ := hc.copy hinj hsrc hmore.2 (isEntry_iff.mpr hno) (by omega)
        rw [hpos]
        exact ih hc' (by omega)
    · rw [if_neg hmore]
      refine ⟨index, rfl, hdone hc ?_⟩
      by_contra hlt
      omega

/-! ## `grn_hash_rehash` -/

/-- The new size is a power of two and more than the expected number of entries. -/
theorem indexSizeLoop_spec {expected : ℕ} (hlt : expected < 2 ^ 29) (fuel m : ℕ) (hm : m ≤ 29)
    (hfuel : 29 ≤ m + fuel) :
    ∃ m' ≤ 29, indexSizeLoop expected fuel (2 ^ m) = 2 ^ m' ∧ expected < 2 ^ m' ∧ m ≤ m' := by
  induction fuel generalizing m with
  | zero =>
    obtain rfl : m = 29 := by omega
    exact ⟨29, Nat.le_refl _, rfl, hlt, Nat.le_refl _⟩
  | succ fuel ih =>
    rw [indexSizeLoop]
    by_cases hle : 2 ^ m ≤ expected
    · have hm' : m < 29 := by
        by_contra h
        obtain rfl : m = 29 := by omega
        omega
      rw [if_pos hle, ← Nat.pow_succ]
      obtain ⟨m', hm'', heq, hlt', hge⟩ := ih (m + 1) hm' (by omega)
      exact ⟨m', hm'', heq, hlt', by omega⟩
    · rw [if_neg hle]
      exact ⟨m, hm, rfl, by omega, Nat.le_refl _⟩

/-- **The table was replaced.** -/
structure Rehashed (g : Config) (s s' : GrnHash) : Prop where
  inv : Inv g s'
  same : s' = { s with
    maxOffset := s'.maxOffset, nGarbages := 0, index := s'.index, idxOffset := s'.idxOffset }
  clean : s'.slots.count (· == garbage) = 0
  io : g.io = true → s'.idxOffset = maxIndexSize - s.idxOffset

/-- A table of nil slots has no entries. -/
theorem copied_zero (hm : m ≤ 29) (hn : newMax + 1 = 2 ^ m)
    (hnil : ∀ j ≤ newMax, index (j + dest) = 0)
    (hsrc : ∀ j ≤ s.maxOffset, src index (j + s.idxOffset) = s.slots.at' j) :
    Copied s src dest newMax 0 0 index := by
  have hat : ∀ j < (s.moved dest newMax index).slots.n, (s.moved dest newMax index).slots.at' j = 0 :=
    fun j hj => hnil j (by have : j < newMax + 1 := hj; omega)
  have hcount : ∀ q : ℕ → Bool, q 0 = false → (s.moved dest newMax index).slots.count q = 0 := fun q hq => by
    refine Finset.sum_eq_zero fun j hj => ?_
    rw [hat j (Finset.mem_range.mp hj), hq]
    rfl
  refine ⟨⟨m, hm, hn⟩, ⟨fun i hi j _ hentry => ?_, fun content hentry hhas => ?_⟩, hcount _ (by decide),
    fun x hx => ?_, hcount _ (by decide), rfl, Nat.zero_le _, hsrc⟩
  · rw [hat i hi] at hentry
    exact absurd hentry (by decide)
  · obtain ⟨j, hj, rfl⟩ := hhas
    rw [hat j hj] at hentry
    exact absurd hentry (by decide)
  · constructor
    · rintro ⟨j, hj, rfl⟩
      rw [hat j hj] at hx
      exact absurd hx (by decide)
    · rintro ⟨j, hj, -⟩
      exact absurd hj (Nat.not_lt_zero j)

/-- **Hashing again** keeps the entries, in a table that is larger than the expected number. -/
theorem hashRehash_spec (hI : Inv g s) {source : Option ℕ}
    (hexpected : s.nEntries ≤ expectedNEntries g s 0 source) :
    (maxIndexSize ≤ expectedNEntries g s 0 source ∧ hashRehash g s 0 source = none) ∨
    ∃ s', hashRehash g s 0 source = some s' ∧ Rehashed g s s' ∧
      expectedNEntries g s 0 source ≤ s'.maxOffset ∧ 0 < s'.maxOffset := by
  rw [hashRehash]
  generalize expectedNEntries g s 0 source = expected at *
  by_cases hlarge : maxIndexSize ≤ expected
  · exact .inl ⟨hlarge, if_pos hlarge⟩
  · right
    simp only [if_neg hlarge]
    have hpow : (2 : ℕ) ^ 29 = maxIndexSize := rfl
    obtain ⟨m, hm, hsize, hlt, hge⟩ := indexSizeLoop_spec (show expected < 2 ^ 29 by omega) 32 8 (by omega) (by omega)
    have hinit : initialIndexSize = 2 ^ 8 := rfl
    rw [hinit, hsize]
    have hmpow : 2 ^ m ≤ maxIndexSize := by
      rw [← hpow]
      exact Nat.pow_le_pow_right (by decide) hm
    have hn : 2 ^ m - 1 + 1 = 2 ^ m := by
      have := Nat.two_pow_pos m
      omega
    have hold : s.maxOffset < maxIndexSize := by
      obtain ⟨m', hm', hn'⟩ := hI.table.sized
      have : 2 ^ m' ≤ 2 ^ 29 := Nat.pow_le_pow_right (by decide) hm'
      omega
    -- the halves of the area do not overlap
    have hapart : g.io = true → ∀ j ≤ s.maxOffset,
        j + s.idxOffset < maxIndexSize - s.idxOffset ∨
          maxIndexSize - s.idxOffset + maxIndexSize ≤ j + s.idxOffset := fun hio j hj => by
      rcases hI.table.offset with hzero | ⟨-, hhalf⟩
      · rw [hzero]
        omega
      · rw [hhalf]
        omega
    have hclear : (2 ^ m + (indexSegmentSize - 1)) / indexSegmentSize * indexSegmentSize ≤ maxIndexSize := by
      rcases Nat.lt_or_ge 20 m with hgt | hle
      · obtain ⟨d, rfl⟩ := Nat.exists_eq_add_of_lt hgt
        have hseg : indexSegmentSize = 2 ^ 20 := rfl
        have hsplit : 2 ^ (20 + d + 1) = 2 ^ (d + 1) * 2 ^ 20 := by rw [← Nat.pow_add]; congr 1; omega
        have hdiv : (2 ^ (20 + d + 1) + (indexSegmentSize - 1)) / indexSegmentSize = 2 ^ (d + 1) := by
          rw [hsplit, hseg, Nat.add_comm, Nat.add_mul_div_right _ _ (Nat.two_pow_pos 20),
            Nat.div_eq_of_lt (by omega), Nat.zero_add]
        rw [hdiv, hseg, ← hsplit]
        exact hmpow
      · have : 2 ^ m ≤ 2 ^ 20 := Nat.pow_le_pow_right (by decide) hle
        have hseg : indexSegmentSize = 2 ^ 20 := rfl
        have hdiv : (2 ^ m + (indexSegmentSize - 1)) / indexSegmentSize < 2 := by
          apply Nat.div_lt_of_lt_mul
          omega
        have hmul := Nat.mul_le_mul_right indexSegmentSize (Nat.le_of_lt_succ hdiv)
        have hmax : indexSegmentSize ≤ maxIndexSize := by decide
        omega
    have hstart : Copied s (fun index => if g.io then index else s.index)
        (if g.io then maxIndexSize - s.idxOffset else 0) (2 ^ m - 1) 0 0
        (if g.io then clearIndex s.index (if g.io then maxIndexSize - s.idxOffset else 0) (2 ^ m)
          else fun _ => 0) := by
      refine copied_zero hm hn (fun j hj => ?_) fun j hj => ?_
      · cases hio : g.io with
        | false => rfl
        | true =>
          simp only [if_true, clearIndex]
          apply if_pos
          refine ⟨by omega, ?_⟩
          have hge : 2 ^ m ≤ (2 ^ m + (indexSegmentSize - 1)) / indexSegmentSize * indexSegmentSize := by
            have hdivmod := Nat.div_add_mod (2 ^ m + (indexSegmentSize - 1)) indexSegmentSize
            have hmod := Nat.mod_lt (2 ^ m + (indexSegmentSize - 1)) (show 0 < indexSegmentSize by decide)
            rw [Nat.mul_comm] at hdivmod
            omega
          omega
      · cases hio : g.io with
        | false => rfl
        | true =>
          simp only [if_true, clearIndex]
          have := hapart hio j hj
          exact if_neg (by omega)
    have hkept : ∀ (index : ℕ → ℕ) (pos x : ℕ), (if g.io then maxIndexSize - s.idxOffset else 0) ≤ pos →
        pos ≤ (if g.io then maxIndexSize - s.idxOffset else 0) + (2 ^ m - 1) → ∀ j ≤ s.maxOffset,
        (if g.io then Function.update index pos x else s.index) (j + s.idxOffset) =
          (if g.io then index else s.index) (j + s.idxOffset) := fun index pos x hfrom hto j hj => by
      cases hio : g.io with
      | false => rfl
      | true =>
        simp only [hio, if_true] at hfrom hto ⊢
        have := hapart hio j hj
        exact Function.update_of_ne (by omega) _ _
    obtain ⟨index', hcopy, hcopied⟩ := copyLoop_spec hI.table.holds hI.table.entries hkept
      (by omega) hstart (show 0 + (s.maxOffset + 1) = s.maxOffset + 1 from Nat.zero_add _)
    rw [hcopy]
    refine ⟨_, rfl, ⟨⟨?_, ?_, ?_, ?_, hI.currRec_le⟩, rfl, hcopied.clean, fun hio => if_pos hio⟩, ?_⟩
    · refine ⟨hcopied.sized, ?_, hcopied.holds, hcopied.copied, Nat.le_of_eq hcopied.clean, ?_, fun x hx => ?_⟩
      · show (if g.io then maxIndexSize - s.idxOffset else 0) = 0 ∨ _
        cases hio : g.io with
        | false => exact .inl rfl
        | true =>
          rw [if_pos rfl]
          rcases hI.table.offset with hzero | ⟨-, hhalf⟩
          · right
            refine ⟨rfl, ?_⟩
            show (if true = true then maxIndexSize - s.idxOffset else 0) = maxIndexSize
            rw [if_pos rfl, hzero]
            rfl
          · left
            omega
      · have hused := (s.moved (if g.io then maxIndexSize - s.idxOffset else 0) (2 ^ m - 1) index').slots.count_used
          garbage_ne_zero
        rw [hcopied.copied, hcopied.clean] at hused
        obtain ⟨slot, hslot, hnil⟩ := (s.moved (if g.io then maxIndexSize - s.idxOffset else 0)
          (2 ^ m - 1) index').slots.exists_of_count_lt (q := (· != 0)) (by
            show _ < 2 ^ m - 1 + 1
            omega)
        have hzero : (s.moved (if g.io then maxIndexSize - s.idxOffset else 0) (2 ^ m - 1) index').slots.at' slot =
            0 := by simpa using hnil
        exact ⟨slot, hslot, hzero⟩
      · exact (hcopied.has x hx).trans (hI.table.live x hx)
    · obtain ⟨lists, hL⟩ := hI.lists
      exact ⟨lists, hL.congr rfl rfl rfl rfl fun _ _ => ⟨rfl, rfl⟩⟩
    · exact hI.areas.clear (Nat.le_refl _) rfl (fun _ => .inl ⟨rfl, rfl, rfl⟩) fun _ _ => rfl
    · exact ⟨hI.keys.ids, hI.keys.length, hI.keys.accepts, hI.keys.word, hI.keys.inj⟩
    · have hmin : 2 ^ 8 ≤ 2 ^ m := Nat.pow_le_pow_right (by decide) hge
      show expected ≤ 2 ^ m - 1 ∧ 0 < 2 ^ m - 1
      omega

/-! ## `grn_hash_ensure_rehash` -/

theorem Rehashed.getKey {id : ℕ} (hr : Rehashed g s s') : s'.getKey g id = s.getKey g id := by
  rw [hr.same]
  rfl

/-- The expected number of entries is at least twice the number of entries. -/
theorem le_expectedNEntries (g : Config) (s : GrnHash) (source : Option ℕ) :
    min (s.nEntries * 2) (maxIndexSize - 1) ≤ expectedNEntries g s 0 source := by
  have hbase : min (s.nEntries * 2) (maxIndexSize - 1) ≤
      if maxIndexSize ≤ s.nEntries * 2 then maxIndexSize - 1 else s.nEntries * 2 := by
    split_ifs
    · exact Nat.min_le_right _ _
    · exact Nat.min_le_left _ _
  rw [expectedNEntries, if_pos rfl]
  cases source with
  | none => exact hbase
  | some n =>
    dsimp only
    split_ifs at hbase ⊢ with h₁ h₂ h₂ <;> omega

/-- Without a table as the domain, the expected number of entries is not too large. -/
theorem expectedNEntries_none_lt (g : Config) (s : GrnHash) : expectedNEntries g s 0 none < maxIndexSize := by
  rw [expectedNEntries, if_pos rfl]
  dsimp only
  have hmax : maxIndexSize = 0x20000000 := rfl
  split_ifs <;> omega

/-- The table is hashed again when the threshold is above the last slot, unless it is as large as
possible. -/
def GrnHash.Rehashes (s : GrnHash) (threshold : ℕ) : Prop :=
  s.maxOffset < threshold ∧ s.maxOffset ≠ maxIndexSize - 1

/-- **The test before additions**: the table stays, or it has room after it was hashed again, or the
domain has too many records. -/
theorem hashEnsureRehash_spec (hI : Inv g s) (threshold : ℕ) (source : Option ℕ) :
    (¬ s.Rehashes threshold ∧ hashEnsureRehash g s threshold source = (true, s)) ∨
    (s.Rehashes threshold ∧
      ((source ≠ none ∧ ∃ w, hashEnsureRehash g s threshold source = (false, { s with wal := w })) ∨
        ∃ w s', hashEnsureRehash g s threshold source = (true, s') ∧ Rehashed g { s with wal := w } s' ∧
          s'.nEntries < s'.maxOffset)) := by
  rw [hashEnsureRehash]
  by_cases hstay : threshold ≤ s.maxOffset ∨ s.maxOffset = maxIndexSize - 1
  · exact .inl ⟨fun h => by rw [GrnHash.Rehashes] at h; omega, if_pos hstay⟩
  · right
    rw [if_neg hstay]
    push Not at hstay
    refine ⟨hstay, ?_⟩
    obtain ⟨w, hw⟩ := log_same g s (.rehash s.nEntries s.maxOffset 0)
    simp only [hw]
    have hI' : Inv g { s with wal := w } := hI.of_wal
    -- the table is at most half as large as possible, and has a nil slot
    obtain ⟨m, hm, hn⟩ := hI.table.sized
    have hhalf : s.maxOffset + 1 ≤ 2 ^ 28 := by
      have hm' : m ≤ 28 := by
        by_contra h
        obtain rfl : m = 29 := by omega
        exact hstay.2 (by rw [maxIndexSize]; omega)
      rw [hn]
      exact Nat.pow_le_pow_right (by decide) hm'
    have hle : s.nEntries ≤ s.maxOffset := by
      by_contra hfull
      have hcount := s.slots.count_le (isEntry garbage)
      rw [hI.table.entries] at hcount
      have hn' : s.slots.n = s.maxOffset + 1 := rfl
      obtain ⟨slot, hslot, hzero⟩ := hI.table.nil
      have hall := s.slots.all_of_count_eq (q := isEntry garbage)
        (by rw [hI.table.entries]; omega) hslot
      rw [hzero] at hall
      exact absurd hall (by decide)
    have hexp := le_expectedNEntries g { s with wal := w } source
    have hmax : maxIndexSize = 2 ^ 29 := rfl
    have hexp' : s.nEntries * 2 ≤ expectedNEntries g { s with wal := w } 0 source := by
      have : ({ s with wal := w } : GrnHash).nEntries = s.nEntries := rfl
      omega
    have hfit : ({ s with wal := w } : GrnHash).nEntries ≤ expectedNEntries g { s with wal := w } 0 source := by
      show s.nEntries ≤ _
      omega
    rcases hashRehash_spec hI' hfit with ⟨hlarge, hnone⟩ | ⟨s', heq, hr, hbig, hpos⟩
    · refine .inl ⟨?_, w, ?_⟩
      · rintro rfl
        exact absurd hlarge (Nat.not_le.mpr (expectedNEntries_none_lt g _))
      · rw [hnone]
    · refine .inr ⟨w, s', ?_, hr, ?_⟩
      · rw [heq]
      · have hsame : s'.nEntries = s.nEntries := by rw [hr.same]
        omega

end Groonga.Hash
