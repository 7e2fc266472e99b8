import Groonga.Lib.Area
import Mathlib

/-!
# Probing with open addressing

A table has `n` slots, and a key looks at them one after another: it begins at its hash value and
goes on by its step. When `n` is a power of two and the step is odd, every slot is looked at within
`n` probes. A search stops at the first slot whose content satisfies a condition; so a search that
stops at empty slots ends when there is one.

A content is reached from a hash value when no slot before it in the sequence is empty. Filling
slots and exchanging contents that are not empty keep what is reached.
-/

namespace Groonga.Lib

/-! ## The slots of a sequence -/

/-- The slot of the `k`-th probe. -/
def probeAt (n hash step k : ℕ) : ℕ := (hash + k * step) % n

theorem probeAt_lt {n : ℕ} (hn : 0 < n) (hash step k : ℕ) : probeAt n hash step k < n := Nat.mod_lt _ hn

/-- Different probes look at different slots, as long as there are fewer probes than slots. -/
theorem probeAt_inj {n hash step i j : ℕ} (hcoprime : Nat.Coprime n step) (hi : i < n) (hj : j < n)
    (heq : probeAt n hash step i = probeAt n hash step j) : i = j := by
  have hmod : Nat.ModEq n (hash + i * step) (hash + j * step) := heq
  have hmul : Nat.ModEq n (i * step) (j * step) := Nat.ModEq.add_left_cancel' hash hmod
  have hcancel : Nat.ModEq n i j := Nat.ModEq.cancel_right_of_coprime hcoprime hmul
  rwa [Nat.ModEq, Nat.mod_eq_of_lt hi, Nat.mod_eq_of_lt hj] at hcancel

/-- **Every slot is looked at.** -/
theorem exists_probeAt {n hash step slot : ℕ} (hcoprime : Nat.Coprime n step) (hslot : slot < n) :
    ∃ k < n, probeAt n hash step k = slot := by
  have hn : 0 < n := Nat.lt_of_le_of_lt (Nat.zero_le _) hslot
  have hmaps : Set.MapsTo (probeAt n hash step) (Finset.range n) (Finset.range n) := fun k _ =>
    Finset.mem_coe.mpr (Finset.mem_range.mpr (probeAt_lt hn _ _ _))
  have hinj : Set.InjOn (probeAt n hash step) (Finset.range n) := fun i hi j hj heq =>
    probeAt_inj hcoprime (Finset.mem_range.mp hi) (Finset.mem_range.mp hj) heq
  obtain ⟨k, hk, heq⟩ := Finset.surjOn_of_injOn_of_card_le _ hmaps hinj (Nat.le_refl _)
    (Finset.mem_coe.mpr (Finset.mem_range.mpr hslot))
  exact ⟨k, Finset.mem_range.mp hk, heq⟩

/-- A power of two and an odd step. -/
theorem coprime_two_pow {step : ℕ} (m : ℕ) (hodd : step % 2 = 1) : Nat.Coprime (2 ^ m) step := by
  apply Nat.Coprime.pow_left
  rw [Nat.coprime_two_left]
  exact Nat.odd_iff.mpr hodd

/-! ## Searching -/

/-- The first index from `k` on at which the condition holds, within `fuel` indices. -/
def firstFrom (p : ℕ → Bool) : ℕ → ℕ → Option ℕ
  | 0, _ => none
  | fuel + 1, k => if p k then some k else firstFrom p fuel (k + 1)

variable {p : ℕ → Bool} {fuel k j : ℕ}

/-- **What a search finds** is the first index. -/
theorem firstFrom_eq_some_iff : firstFrom p fuel k = some j ↔
    k ≤ j ∧ j < k + fuel ∧ p j = true ∧ ∀ i, k ≤ i → i < j → p i = false := by
  induction fuel generalizing k with
  | zero =>
    constructor
    · intro h
      cases h
    · rintro ⟨hle, hlt, -⟩
      omega
  | succ fuel ih =>
    rw [firstFrom]
    split_ifs with hk
    · constructor
      · intro h
        obtain rfl := Option.some.inj h
        exact ⟨Nat.le_refl _, by omega, hk, fun i hi hi' => absurd hi' (Nat.not_lt.mpr hi)⟩
      · rintro ⟨hle, -, -, hfirst⟩
        rcases Nat.eq_or_lt_of_le hle with heq | hlt
        · rw [heq]
        · rw [hfirst k (Nat.le_refl _) hlt] at hk
          exact (Bool.false_ne_true hk).elim
    · rw [ih]
      constructor
      · rintro ⟨hle, hlt, hj, hfirst⟩
        refine ⟨by omega, by omega, hj, fun i hi hi' => ?_⟩
        rcases Nat.eq_or_lt_of_le hi with heq | hlt'
        · rw [← heq]
          exact Bool.eq_false_of_not_eq_true hk
        · exact hfirst i hlt' hi'
      · rintro ⟨hle, hlt, hj, hfirst⟩
        have hne : k ≠ j := by
          rintro rfl
          exact hk hj
        exact ⟨by omega, by omega, hj, fun i hi hi' => hfirst i (by omega) hi'⟩

theorem firstFrom_eq_none_iff : firstFrom p fuel k = none ↔ ∀ i, k ≤ i → i < k + fuel → p i = false := by
  induction fuel generalizing k with
  | zero =>
    constructor
    · intro _ i hi hi'
      omega
    · exact fun _ => rfl
  | succ fuel ih =>
    rw [firstFrom]
    split_ifs with hk
    · constructor
      · intro h
        cases h
      · intro h
        have hfirst := h k (Nat.le_refl _) (by omega)
        rw [hk] at hfirst
        cases hfirst
    · rw [ih]
      constructor
      · intro h i hi hi'
        rcases Nat.eq_or_lt_of_le hi with heq | hlt
        · rw [← heq]
          exact Bool.eq_false_of_not_eq_true hk
        · exact h i hlt (by omega)
      · exact fun h i hi hi' => h i (by omega) (by omega)

/-- **A search ends** when the condition holds somewhere. -/
theorem exists_firstFrom (hle : k ≤ j) (hlt : j < k + fuel) (hj : p j = true) :
    ∃ i, firstFrom p fuel k = some i := by
  rcases hfirst : firstFrom p fuel k with - | i
  · have hnone := firstFrom_eq_none_iff.mp hfirst j hle hlt
    rw [hj] at hnone
    cases hnone
  · exact ⟨i, rfl⟩

/-! ## Reaching a content -/

/-- The contents of `n` slots, where 0 is empty. -/
structure Slots where
  n : ℕ
  at' : ℕ → ℕ

/-- The content is found from the hash value before an empty slot. -/
def Slots.Reaches (t : Slots) (hash step content : ℕ) : Prop :=
  ∃ k, t.at' (probeAt t.n hash step k) = content ∧ ∀ i < k, t.at' (probeAt t.n hash step i) ≠ 0

/-- A slot gets another content. -/
def Slots.set (t : Slots) (slot content : ℕ) : Slots := { t with at' := Function.update t.at' slot content }

variable {t : Slots} {hash step slot content x : ℕ}

/-- **What is reached stays reached** when a slot gets something that is not empty. -/
theorem Slots.Reaches.set (hreach : t.Reaches hash step content) (hne : t.at' slot ≠ content) (hx : x ≠ 0) :
    (t.set slot x).Reaches hash step content := by
  obtain ⟨k, hk, hbefore⟩ := hreach
  refine ⟨k, ?_, fun i hi => ?_⟩
  · have hslot : probeAt t.n hash step k ≠ slot := by
      rintro rfl
      exact hne hk
    exact (Function.update_of_ne hslot _ _).trans hk
  · by_cases hslot : probeAt t.n hash step i = slot
    · have hself : (t.set slot x).at' (probeAt t.n hash step i) = x := by
        rw [hslot]
        exact Function.update_self _ _ _
      exact fun h => hx (hself.symm.trans h)
    · have hsame : (t.set slot x).at' (probeAt t.n hash step i) = t.at' (probeAt t.n hash step i) :=
        Function.update_of_ne hslot _ _
      rw [show (t.set slot x).n = t.n from rfl, hsame]
      exact hbefore i hi

/-- **A content is reached in its own slot.** -/
theorem Slots.reaches_set {k : ℕ} (hslot : probeAt t.n hash step k = slot)
    (hbefore : ∀ i < k, t.at' (probeAt t.n hash step i) ≠ 0) (hx : x ≠ 0) :
    (t.set slot x).Reaches hash step x := by
  refine ⟨k, ?_, fun i hi => ?_⟩
  · rw [show (t.set slot x).n = t.n from rfl, hslot]
    exact Function.update_self _ _ _
  · by_cases hi' : probeAt t.n hash step i = slot
    · rw [show (t.set slot x).n = t.n from rfl, hi']
      have hself : (t.set slot x).at' slot = x := Function.update_self _ _ _
      rwa [hself]
    · have hsame : (t.set slot x).at' (probeAt t.n hash step i) = t.at' (probeAt t.n hash step i) :=
        Function.update_of_ne hi' _ _
      rw [show (t.set slot x).n = t.n from rfl, hsame]
      exact hbefore i hi

/-! ## Counting contents -/

/-- How many slots have a content that satisfies the condition. -/
def Slots.count (t : Slots) (q : ℕ → Bool) : ℕ := ∑ j ∈ Finset.range t.n, if q (t.at' j) then 1 else 0

/-- **Counting after one slot changed.** -/
theorem Slots.count_set (q : ℕ → Bool) (hslot : slot < t.n) :
    (t.set slot x).count q + (if q (t.at' slot) then 1 else 0) =
      t.count q + if q x then 1 else 0 := by
  have hexchange := @sum_exchange t.n slot (fun j => if q ((t.set slot x).at' j) then 1 else 0)
    (fun j => if q (t.at' j) then 1 else 0) hslot fun j hj => by
      have hsame : (t.set slot x).at' j = t.at' j := Function.update_of_ne hj _ _
      rw [hsame]
  have hself : (t.set slot x).at' slot = x := Function.update_self _ _ _
  rw [hself] at hexchange
  exact hexchange

theorem Slots.count_le (q : ℕ → Bool) : t.count q ≤ t.n := by
  calc t.count q ≤ ∑ _j ∈ Finset.range t.n, 1 := Finset.sum_le_sum fun j _ => by split_ifs <;> simp
    _ = t.n := by simp

/-- A slot is counted. -/
theorem Slots.count_pos {q : ℕ → Bool} (hslot : slot < t.n) (hq : q (t.at' slot) = true) :
    0 < t.count q := by
  refine Finset.sum_pos' (fun _ _ => Nat.zero_le _) ⟨slot, Finset.mem_range.mpr hslot, ?_⟩
  rw [if_pos hq]
  exact Nat.one_pos

/-- **When fewer slots than there are satisfy a condition**, some slot does not. -/
theorem Slots.exists_of_count_lt {q : ℕ → Bool} (hlt : t.count q < t.n) :
    ∃ slot < t.n, q (t.at' slot) = false := by
  by_contra hall
  push Not at hall
  have hfull : t.count q = t.n := by
    calc t.count q = ∑ _j ∈ Finset.range t.n, 1 := Finset.sum_congr rfl fun j hj => by
          rw [if_pos (Bool.eq_true_of_not_eq_false (hall j (Finset.mem_range.mp hj)))]
      _ = t.n := by simp
  omega

/-- When as many slots as there are satisfy a condition, all do. -/
theorem Slots.all_of_count_eq {q : ℕ → Bool} (heq : t.count q = t.n) (hslot : slot < t.n) :
    q (t.at' slot) = true := by
  by_contra hno
  have hset := @Slots.count_set t slot (t.at' slot) q hslot
  have hlt : t.count q < t.n := by
    calc t.count q < ∑ _j ∈ Finset.range t.n, 1 :=
          Finset.sum_lt_sum (fun j _ => by split_ifs <;> simp)
            ⟨slot, Finset.mem_range.mpr hslot, by rw [if_neg hno]; exact Nat.one_pos⟩
      _ = t.n := by simp
  omega

/-- Two conditions that exclude each other are counted apart. -/
theorem Slots.count_or {q r : ℕ → Bool} (hapart : ∀ c, q c = true → r c = false) :
    t.count (fun c => q c || r c) = t.count q + t.count r := by
  rw [Slots.count, Slots.count, Slots.count, ← Finset.sum_add_distrib]
  refine Finset.sum_congr rfl fun j _ => ?_
  cases hq : q (t.at' j) with
  | true => simp [hapart _ hq]
  | false => simp

/-- The first `k` slots. -/
def Slots.upTo (t : Slots) (k : ℕ) : Slots := { t with n := k }

theorem Slots.count_upTo_succ (q : ℕ → Bool) (k : ℕ) :
    (t.upTo (k + 1)).count q = (t.upTo k).count q + if q (t.at' k) then 1 else 0 :=
  Finset.sum_range_succ _ k

theorem Slots.count_upTo_mono (q : ℕ → Bool) {k l : ℕ} (hle : k ≤ l) :
    (t.upTo k).count q ≤ (t.upTo l).count q := by
  induction l, hle using Nat.le_induction with
  | base => exact Nat.le_refl _
  | succ l _ ih =>
    rw [Slots.count_upTo_succ]
    omega

/-- **When the first slots have all that is counted**, the others have nothing of it. -/
theorem Slots.lt_of_count_upTo {q : ℕ → Bool} {k j : ℕ} (hall : t.count q ≤ (t.upTo k).count q)
    (hj : j < t.n) (hq : q (t.at' j) = true) : j < k := by
  by_contra hle
  have hbefore := t.count_upTo_mono q (Nat.le_of_not_lt hle)
  have hself := t.count_upTo_succ q j
  rw [if_pos hq] at hself
  have hafter : (t.upTo (j + 1)).count q ≤ t.count q := t.count_upTo_mono q hj
  omega

/-! ## Tables

A content is 0 for an empty slot, `tomb` for a slot that was left, and an entry otherwise. -/

variable {tomb : ℕ}

/-- The content is an entry. -/
def isEntry (tomb content : ℕ) : Bool := content ≠ 0 && content ≠ tomb

theorem isEntry_iff : isEntry tomb content = true ↔ content ≠ 0 ∧ content ≠ tomb := by
  simp [isEntry]

/-- The slots that are not empty have an entry or were left. -/
theorem Slots.count_used (htomb : tomb ≠ 0) :
    t.count (· != 0) = t.count (isEntry tomb) + t.count (· == tomb) := by
  rw [← Slots.count_or]
  · congr 1
    funext c
    by_cases hc : c = tomb
    · subst hc
      simp [isEntry, htomb]
    · by_cases hzero : c = 0
      · simp [isEntry, hzero, Ne.symm htomb]
      · simp [isEntry, hc, hzero]
  · intro c hc
    simp [(isEntry_iff.mp hc).2]

/-- A slot has the content. -/
def Slots.Has (t : Slots) (content : ℕ) : Prop := ∃ slot < t.n, t.at' slot = content

/-- **A table with open addressing**: each entry is in one slot and is reached from its hash value. -/
structure Slots.Holds (t : Slots) (tomb : ℕ) (hash : ℕ → ℕ) (step : ℕ → ℕ) : Prop where
  inj : ∀ i < t.n, ∀ j < t.n, isEntry tomb (t.at' i) = true → t.at' i = t.at' j → i = j
  reach : ∀ content, isEntry tomb content = true → t.Has content →
    t.Reaches (hash content) (step (hash content)) content

variable {hashOf stepOf : ℕ → ℕ}

theorem Slots.at'_set_self (t : Slots) (slot x : ℕ) : (t.set slot x).at' slot = x :=
  Function.update_self _ _ _

theorem Slots.at'_set_of_ne {i : ℕ} (hi : i ≠ slot) : (t.set slot x).at' i = t.at' i :=
  Function.update_of_ne hi _ _

/-- What the slots have after one of them changed. -/
theorem Slots.has_set (hslot : slot < t.n) {content : ℕ} :
    (t.set slot x).Has content ↔ content = x ∨ ∃ i < t.n, i ≠ slot ∧ t.at' i = content := by
  constructor
  · rintro ⟨i, hi, rfl⟩
    by_cases his : i = slot
    · subst his
      exact .inl (t.at'_set_self i x)
    · exact .inr ⟨i, hi, his, (Slots.at'_set_of_ne his).symm⟩
  · rintro (rfl | ⟨i, hi, his, rfl⟩)
    · exact ⟨slot, hslot, t.at'_set_self slot content⟩
    · exact ⟨i, hi, Slots.at'_set_of_ne his⟩

/-- **As many entries are counted as there are.** -/
theorem Slots.Holds.count_eq (ht : t.Holds tomb hashOf stepOf) :
    t.count (Lib.isEntry tomb) = Set.ncard {content | Lib.isEntry tomb content = true ∧ t.Has content} := by
  have hset : {content | Lib.isEntry tomb content = true ∧ t.Has content} =
      ((Finset.range t.n).filter (fun j => Lib.isEntry tomb (t.at' j) = true)).image t.at' := by
    ext content
    simp only [Set.mem_ofPred_eq, Finset.coe_image, Finset.coe_filter, Finset.mem_range, Set.mem_image]
    constructor
    · rintro ⟨hentry, j, hj, rfl⟩
      exact ⟨j, ⟨hj, hentry⟩, rfl⟩
    · rintro ⟨j, ⟨hj, hentry⟩, rfl⟩
      exact ⟨hentry, j, hj, rfl⟩
  rw [hset, Set.ncard_coe_finset, Finset.card_image_of_injOn, Slots.count, Finset.card_filter]
  intro i hi j hj heq
  simp only [Finset.coe_filter, Finset.mem_range, Set.mem_ofPred_eq] at hi hj
  exact ht.inj i hi.1 j hj.1 hi.2 heq

/-- **An entry is put** into an empty slot or one that was left. -/
theorem Slots.Holds.put {k : ℕ} (ht : t.Holds tomb hashOf stepOf) (hslot : slot < t.n)
    (hold : isEntry tomb (t.at' slot) = false) (hx : isEntry tomb x = true) (hnew : ¬ t.Has x)
    (hprobe : probeAt t.n (hashOf x) (stepOf (hashOf x)) k = slot)
    (hbefore : ∀ i < k, t.at' (probeAt t.n (hashOf x) (stepOf (hashOf x)) i) ≠ 0) :
    (t.set slot x).Holds tomb hashOf stepOf := by
  have hx0 := (isEntry_iff.mp hx).1
  refine ⟨fun i hi j hj hentry heq => ?_, fun content hcontent hhas => ?_⟩
  · by_cases his : i = slot
    · by_cases hjs : j = slot
      · rw [his, hjs]
      · refine absurd ⟨j, hj, ?_⟩ hnew
        rw [← Slots.at'_set_of_ne hjs, ← heq, his, Slots.at'_set_self]
    · by_cases hjs : j = slot
      · refine absurd ⟨i, hi, ?_⟩ hnew
        rw [← Slots.at'_set_of_ne his, heq, hjs, Slots.at'_set_self]
      · rw [Slots.at'_set_of_ne his] at hentry heq
        rw [Slots.at'_set_of_ne hjs] at heq
        exact ht.inj i hi j hj hentry heq
  · rcases (Slots.has_set hslot).mp hhas with rfl | ⟨i, hi, -, rfl⟩
    · exact Slots.reaches_set hprobe hbefore hx0
    · refine (ht.reach _ hcontent ⟨i, hi, rfl⟩).set (fun heq => ?_) hx0
      rw [heq] at hold
      exact Bool.false_ne_true (hold.symm.trans hcontent)

/-- **An entry is removed.** -/
theorem Slots.Holds.remove (ht : t.Holds tomb hashOf stepOf) (hslot : slot < t.n) (htomb : tomb ≠ 0)
    (hentry : isEntry tomb (t.at' slot) = true) : (t.set slot tomb).Holds tomb hashOf stepOf := by
  have hno : isEntry tomb tomb = false := by simp [isEntry]
  refine ⟨fun i hi j hj hlive heq => ?_, fun content hcontent hhas => ?_⟩
  · have his : i ≠ slot := by
      rintro rfl
      rw [Slots.at'_set_self, hno] at hlive
      cases hlive
    have hjs : j ≠ slot := by
      rintro rfl
      rw [heq, Slots.at'_set_self, hno] at hlive
      cases hlive
    rw [Slots.at'_set_of_ne his] at hlive heq
    rw [Slots.at'_set_of_ne hjs] at heq
    exact ht.inj i hi j hj hlive heq
  · rcases (Slots.has_set hslot).mp hhas with rfl | ⟨i, hi, his, rfl⟩
    · rw [hno] at hcontent
      cases hcontent
    · refine (ht.reach _ hcontent ⟨i, hi, rfl⟩).set (fun heq => ?_) htomb
      exact his (ht.inj i hi slot hslot hcontent heq.symm)

/-- What the slots have after an entry was removed. -/
theorem Slots.Holds.has_remove (ht : t.Holds tomb hashOf stepOf) (hslot : slot < t.n)
    (hentry : isEntry tomb (t.at' slot) = true) {content : ℕ} (hcontent : isEntry tomb content = true) :
    (t.set slot tomb).Has content ↔ t.Has content ∧ content ≠ t.at' slot := by
  rw [Slots.has_set hslot]
  constructor
  · rintro (rfl | ⟨i, hi, his, rfl⟩)
    · simp [isEntry] at hcontent
    · exact ⟨⟨i, hi, rfl⟩, fun heq => his (ht.inj i hi slot hslot hcontent heq)⟩
  · rintro ⟨⟨i, hi, rfl⟩, hne⟩
    exact .inr ⟨i, hi, fun heq => hne (heq ▸ rfl), rfl⟩

/-- The entries are found by what they hash to. -/
theorem Slots.Holds.congr {hashOf' : ℕ → ℕ} (ht : t.Holds tomb hashOf stepOf)
    (hsame : ∀ content, isEntry tomb content = true → t.Has content → hashOf' content = hashOf content) :
    t.Holds tomb hashOf' stepOf :=
  ⟨ht.inj, fun content hcontent hhas => by
    rw [hsame content hcontent hhas]
    exact ht.reach content hcontent hhas⟩

/-- **A search finds an entry**: when it stops at empty slots and at this entry only, it stops at
the entry. -/
theorem Slots.Reaches.firstFrom {fuel : ℕ} (hreach : t.Reaches hash step content) (stop : ℕ → Bool)
    (hn : 0 < t.n) (hstop : stop content = true)
    (honly : ∀ c, t.Has c → stop c = true → c = 0 ∨ c = content)
    {j : ℕ} (hj : Lib.firstFrom (fun k => stop (t.at' (probeAt t.n hash step k))) fuel 0 = some j) :
    t.at' (probeAt t.n hash step j) = content := by
  obtain ⟨k, hk, hbefore⟩ := hreach
  obtain ⟨-, -, hstopj, hfirst⟩ := firstFrom_eq_some_iff.mp hj
  rcases honly _ ⟨_, probeAt_lt hn _ _ _, rfl⟩ hstopj with hzero | heq
  · -- the search does not go beyond the entry, and no slot before it is empty
    rcases Nat.lt_trichotomy k j with hlt | rfl | hlt
    · have hno := hfirst k (Nat.zero_le _) hlt
      simp only [hk, hstop] at hno
      cases hno
    · exact hk
    · exact absurd hzero (hbefore j hlt)
  · exact heq

end Groonga.Lib
