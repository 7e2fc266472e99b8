import Groonga.Hash.Table
import Groonga.Lib.Probing

/-!
# The table of a hash

The table takes a power of two slots, and the step of a hash value is odd, so the probes of a key
look at every slot. The loops of the source are searches along these probes: they end when a slot
is nil.
-/

namespace Groonga.Hash

open Lib

/-! ## Slots -/

/-- The slots in use: `max_offset + 1` behind `idx_offset`. -/
def GrnHash.slots (s : GrnHash) : Slots := ⟨s.maxOffset + 1, fun j => s.index (j + s.idxOffset)⟩

/-- The table has a power of two slots. -/
def GrnHash.Sized (s : GrnHash) : Prop := ∃ m ≤ 29, s.maxOffset + 1 = 2 ^ m

variable {g : Config} {s : GrnHash} {hashValue step i k x : ℕ} {stop : ℕ → Bool} {key : List UInt8}

theorem step_odd (hashValue : ℕ) : calculateStep hashValue % 2 = 1 := by
  rw [calculateStep, Nat.or_mod_two_eq_one]
  exact .inr (by decide)

theorem GrnHash.Sized.n_pos (_hs : s.Sized) : 0 < s.slots.n := Nat.succ_pos _

/-- A slot is addressed by a number modulo the number of slots. -/
theorem GrnHash.Sized.and_eq (hs : s.Sized) (i : ℕ) : i &&& s.maxOffset = i % s.slots.n := by
  obtain ⟨m, -, hm⟩ := hs
  have hmax : s.maxOffset = 2 ^ m - 1 := by omega
  rw [hmax, Nat.and_two_pow_sub_one_eq_mod]
  exact congrArg (i % ·) hm.symm

theorem GrnHash.Sized.idxAt_eq (hs : s.Sized) (i : ℕ) : s.idxAt i = s.slots.at' (i % s.slots.n) := by
  rw [GrnHash.idxAt, GrnHash.idxPos, hs.and_eq]
  rfl

theorem GrnHash.Sized.slots_setIdx (hs : s.Sized) (i x : ℕ) :
    (s.setIdx i x).slots = s.slots.set (i % s.slots.n) x := by
  have hat : (s.setIdx i x).slots.at' = (s.slots.set (i % s.slots.n) x).at' := by
    funext j
    have hpos : s.idxPos i = i % s.slots.n + s.idxOffset := by rw [GrnHash.idxPos, hs.and_eq]
    by_cases hj : j = i % s.slots.n
    · subst hj
      rw [Slots.at'_set_self]
      show Function.update s.index (s.idxPos i) x _ = x
      rw [hpos]
      exact Function.update_self _ _ _
    · rw [Slots.at'_set_of_ne hj]
      show Function.update s.index (s.idxPos i) x (j + s.idxOffset) = _
      rw [hpos, Function.update_of_ne (by omega)]
      rfl
  show Slots.mk _ _ = Slots.mk _ _
  exact congrArg (Slots.mk _) hat

/-! ## Probes -/

/-- The number `i` stands for the slot of the `k`-th probe. -/
def GrnHash.Probes (s : GrnHash) (hashValue step k i : ℕ) : Prop :=
  i % s.slots.n = probeAt s.slots.n hashValue step k

theorem probes_zero : s.Probes hashValue step 0 hashValue := by
  rw [GrnHash.Probes, probeAt, Nat.zero_mul, Nat.add_zero]

/-- Adding the step to a `uint32_t` leads to the next probe. -/
theorem GrnHash.Sized.next (hs : s.Sized) (hi : s.Probes hashValue step k i) :
    s.Probes hashValue step (k + 1) (nextProbe i step) := by
  obtain ⟨m, hm, hn⟩ := hs
  have hdvd : s.slots.n ∣ 0x100000000 := by
    rw [show s.slots.n = 2 ^ m from hn, show 0x100000000 = 2 ^ 32 by decide]
    exact Nat.pow_dvd_pow 2 (by omega)
  rw [GrnHash.Probes, nextProbe, Nat.mod_mod_of_dvd _ hdvd, Nat.add_mod, hi, probeAt, probeAt,
    ← Nat.add_mod]
  congr 1
  ring

/-- **A loop is a search** along the probes. -/
theorem GrnHash.Sized.probeLoop_eq (hs : s.Sized) (fuel : ℕ) (hi : s.Probes hashValue step k i) :
    (∃ j i', firstFrom (fun k => stop (s.slots.at' (probeAt s.slots.n hashValue step k))) fuel k = some j ∧
      probeLoop s step stop fuel i = some (i', s.slots.at' (probeAt s.slots.n hashValue step j)) ∧
        s.Probes hashValue step j i') ∨
    (firstFrom (fun k => stop (s.slots.at' (probeAt s.slots.n hashValue step k))) fuel k = none ∧
      probeLoop s step stop fuel i = none) := by
  induction fuel generalizing k i with
  | zero => exact .inr ⟨rfl, rfl⟩
  | succ fuel ih =>
    rw [firstFrom, probeLoop, hs.idxAt_eq, hi]
    split_ifs with hstop
    · exact .inl ⟨k, i, rfl, rfl, hi⟩
    · exact ih (hs.next hi)

/-- The probes of a hash value. -/
theorem GrnHash.Sized.probe_eq (hs : s.Sized) (hashValue : ℕ) (stop : ℕ → Bool) :
    (∃ j i, firstFrom (fun k => stop (s.slots.at'
        (probeAt s.slots.n hashValue (calculateStep hashValue) k))) s.slots.n 0 = some j ∧
      s.probe hashValue stop =
        some (i, s.slots.at' (probeAt s.slots.n hashValue (calculateStep hashValue) j)) ∧
          s.Probes hashValue (calculateStep hashValue) j i) ∨
    (firstFrom (fun k => stop (s.slots.at'
        (probeAt s.slots.n hashValue (calculateStep hashValue) k))) s.slots.n 0 = none ∧
      s.probe hashValue stop = none) :=
  hs.probeLoop_eq (s.maxOffset + 1) probes_zero

/-- **Every slot is looked at** by the probes of every hash value. -/
theorem GrnHash.Sized.exists_probe (hs : s.Sized) (hashValue : ℕ) {slot : ℕ} (hslot : slot < s.slots.n) :
    ∃ k < s.slots.n, probeAt s.slots.n hashValue (calculateStep hashValue) k = slot := by
  obtain ⟨m, -, hm⟩ := hs
  have hn : s.slots.n = 2 ^ m := hm
  refine exists_probeAt ?_ hslot
  rw [hn]
  exact coprime_two_pow m (step_odd hashValue)

/-- **A loop ends** when it stops at nil and a slot is nil. -/
theorem GrnHash.Sized.probe_ends (hs : s.Sized) (hnil : ∃ slot < s.slots.n, s.slots.at' slot = 0)
    (stop : ℕ → Bool) (hstop : stop 0 = true) (hashValue : ℕ) : ∃ k i,
      firstFrom (fun k => stop (s.slots.at'
        (probeAt s.slots.n hashValue (calculateStep hashValue) k))) s.slots.n 0 = some k ∧
      s.probe hashValue stop =
        some (i, s.slots.at' (probeAt s.slots.n hashValue (calculateStep hashValue) k)) ∧
      s.Probes hashValue (calculateStep hashValue) k i := by
  rcases hs.probe_eq hashValue stop with hsome | ⟨hnone, -⟩
  · exact hsome
  · obtain ⟨slot, hslot, hzero⟩ := hnil
    obtain ⟨k, hk, rfl⟩ := hs.exists_probe hashValue hslot
    have hno := firstFrom_eq_none_iff.mp hnone k (Nat.zero_le _) (by omega)
    simp only [hzero, hstop] at hno
    cases hno

/-! ## The loop of an addition -/

/-- The content of the `k`-th probe of a key. -/
def GrnHash.contentAt (g : Config) (s : GrnHash) (key : List UInt8) (k : ℕ) : ℕ :=
  s.slots.at' (probeAt s.slots.n (g.hashValue key) (calculateStep (g.hashValue key)) k)

/-- The loop of an addition ends where that of `grn_hash_get` ends, with the first slot that was
left, if there is one before. -/
theorem GrnHash.Sized.addLoop_eq (hs : s.Sized) {fuel j : ℕ} {garbageIndex : Option ℕ} {last : ℕ}
    (hi : s.Probes (g.hashValue key) (calculateStep (g.hashValue key)) k i)
    (hfirst : firstFrom (fun k => s.stopsAtKey g key (s.contentAt g key k)) fuel k = some j) :
    (s.contentAt g key j ≠ 0 ∧
      addLoop g s key (calculateStep (g.hashValue key)) fuel i garbageIndex last =
        .inl (s.contentAt g key j)) ∨
    (s.contentAt g key j = 0 ∧ ∃ l i' found,
      addLoop g s key (calculateStep (g.hashValue key)) fuel i garbageIndex last = .inr (i', found) ∧
      ((garbageIndex = some i' ∧ found = true) ∨
        (garbageIndex = none ∧ k ≤ l ∧ l ≤ j ∧
          s.Probes (g.hashValue key) (calculateStep (g.hashValue key)) l i' ∧
          s.contentAt g key l = (if found then garbage else 0) ∧
          ∀ l', k ≤ l' → l' < l → s.contentAt g key l' ≠ garbage))) := by
  induction fuel generalizing k i garbageIndex last with
  | zero => cases hfirst
  | succ fuel ih =>
    have hcontent : s.idxAt i = s.contentAt g key k := by rw [hs.idxAt_eq, hi]; rfl
    rw [firstFrom] at hfirst
    rw [addLoop, hcontent]
    by_cases hzero : s.contentAt g key k = 0
    · have hstop : s.stopsAtKey g key (s.contentAt g key k) = true := by simp [GrnHash.stopsAtKey, hzero]
      rw [if_pos hstop] at hfirst
      obtain rfl := Option.some.inj hfirst
      refine .inr ⟨hzero, k, garbageIndex.getD i, garbageIndex.isSome, by rw [if_pos hzero], ?_⟩
      cases garbageIndex with
      | none =>
        exact .inr ⟨rfl, Nat.le_refl _, Nat.le_refl _, hi, hzero, fun l' hle hlt => absurd hlt (by omega)⟩
      | some i' => exact .inl ⟨rfl, rfl⟩
    · rw [if_neg hzero]
      by_cases hgarbage : s.contentAt g key k = garbage
      · have hstop : ¬ s.stopsAtKey g key (s.contentAt g key k) = true := by
          simp [GrnHash.stopsAtKey, hgarbage, show garbage ≠ 0 by decide]
        rw [if_neg hstop] at hfirst
        rw [if_pos hgarbage]
        rcases @ih _ _ (some (garbageIndex.getD i)) i (hs.next hi) hfirst with
          hfound | ⟨hnil, l, i', found, heq, htarget⟩
        · exact .inl hfound
        · refine .inr ⟨hnil, k, i', found, heq, ?_⟩
          rcases htarget with ⟨hi', rfl⟩ | ⟨hnone, -⟩
          · cases garbageIndex with
            | none =>
              obtain rfl := Option.some.inj hi'
              have hle := (firstFrom_eq_some_iff.mp hfirst).1
              exact .inr ⟨rfl, Nat.le_refl _, by omega, hi, hgarbage, fun l' hle' hlt => absurd hlt (by omega)⟩
            | some i'' => exact .inl ⟨hi', rfl⟩
          · cases hnone
      · rw [if_neg hgarbage]
        by_cases hmatch : s.compareKey g (s.contentAt g key k) (g.hashValue key) key = true
        · have hstop : s.stopsAtKey g key (s.contentAt g key k) = true := by
            simp [GrnHash.stopsAtKey, hgarbage, hmatch]
          rw [if_pos hstop] at hfirst
          obtain rfl := Option.some.inj hfirst
          exact .inl ⟨hzero, by rw [if_pos hmatch]⟩
        · have hstop : ¬ s.stopsAtKey g key (s.contentAt g key k) = true := by
            simp [GrnHash.stopsAtKey, hzero, hmatch]
          rw [if_neg hstop] at hfirst
          rw [if_neg hmatch]
          rcases @ih _ _ garbageIndex i (hs.next hi) hfirst with
            hfound | ⟨hnil, l, i', found, heq, htarget⟩
          · exact .inl hfound
          · refine .inr ⟨hnil, l, i', found, heq, htarget.imp_right ?_⟩
            rintro ⟨hnone, hle, hlj, hprobes, hcontent', hno⟩
            refine ⟨hnone, by omega, hlj, hprobes, hcontent', fun l' hle' hlt => ?_⟩
            rcases Nat.eq_or_lt_of_le hle' with rfl | hlt'
            · exact hgarbage
            · exact hno l' hlt' hlt

/-- **Where an entry is added**: at an entry with the key, or in a slot that is nil or was left and
has no nil slot before it. -/
theorem GrnHash.Sized.addLoop_spec (hs : s.Sized) (hnil : ∃ slot < s.slots.n, s.slots.at' slot = 0)
    (key : List UInt8) :
    (∃ k id, addLoop g s key (calculateStep (g.hashValue key)) maxIndexSize (g.hashValue key) none
        (g.hashValue key) = .inl id ∧ s.contentAt g key k = id ∧ id ≠ 0 ∧ id ≠ garbage ∧
        s.compareKey g id (g.hashValue key) key = true) ∨
    (∃ k i found, addLoop g s key (calculateStep (g.hashValue key)) maxIndexSize (g.hashValue key) none
        (g.hashValue key) = .inr (i, found) ∧
      s.Probes (g.hashValue key) (calculateStep (g.hashValue key)) k i ∧
      s.contentAt g key k = (if found then garbage else 0) ∧
      (∀ l < k, s.contentAt g key l ≠ 0) ∧
      (∀ l < k, s.contentAt g key l ≠ garbage) ∧
      ∃ j, firstFrom (fun k => s.stopsAtKey g key (s.contentAt g key k)) maxIndexSize 0 = some j ∧
        s.contentAt g key j = 0) := by
  obtain ⟨m, hm, hn⟩ := id hs
  obtain ⟨slot, hslot, hzero⟩ := hnil
  obtain ⟨k', hk', hprobe⟩ := hs.exists_probe (g.hashValue key) hslot
  have hfuel : s.slots.n ≤ maxIndexSize := by
    have hle : 2 ^ m ≤ 2 ^ 29 := Nat.pow_le_pow_right (by decide) hm
    have hn' : s.slots.n = 2 ^ m := hn
    rw [hn', maxIndexSize]
    omega
  have hstop : s.stopsAtKey g key (s.contentAt g key k') = true := by
    have hcontent : s.contentAt g key k' = 0 := by rw [GrnHash.contentAt, hprobe, hzero]
    simp [GrnHash.stopsAtKey, hcontent]
  obtain ⟨j, hj⟩ := @exists_firstFrom (fun k => s.stopsAtKey g key (s.contentAt g key k)) maxIndexSize 0 k'
    (Nat.zero_le _) (by omega) hstop
  obtain ⟨-, -, hstopj, hbefore⟩ := firstFrom_eq_some_iff.mp hj
  rcases @GrnHash.Sized.addLoop_eq g s _ 0 key hs _ j none (g.hashValue key) probes_zero hj with
    ⟨hne, heq⟩ | ⟨hnil, l, i, found, heq, htarget⟩
  · simp only [GrnHash.stopsAtKey, Bool.or_eq_true, decide_eq_true_eq, Bool.and_eq_true] at hstopj
    rcases hstopj with hzero | ⟨hgarbage, hmatch⟩
    · exact absurd hzero hne
    · exact .inl ⟨j, _, heq, rfl, hne, hgarbage, hmatch⟩
  · rcases htarget with ⟨hnone, -⟩ | ⟨-, -, hle, hprobes, hcontent, hno⟩
    · cases hnone
    · refine .inr ⟨l, i, found, heq, hprobes, hcontent, fun l' hl' hzero => ?_,
        fun l' hl' => hno l' (Nat.zero_le _) hl', j, hj, hnil⟩
      have hno := hbefore l' (Nat.zero_le _) (by omega)
      simp [GrnHash.stopsAtKey, hzero] at hno

end Groonga.Hash
