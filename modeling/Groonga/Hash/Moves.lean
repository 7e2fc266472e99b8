import Groonga.Hash.Ledger

/-!
# Moves of the table

An addition writes an id into a slot, and a deletion writes `GARBAGE` there. Each keeps the
invariant of the table; only an addition that takes a nil slot has to leave another one.
-/

namespace Groonga.Hash

open Lib

variable {g : Config} {s s' : GrnHash} {id i k : ℕ} {key : List UInt8}

/-- The table of a hash whose slot was written. -/
theorem GrnHash.Sized.slots_of_update (hs : s.Sized) {x : ℕ}
    (hindex : s'.index = Function.update s.index (s.idxPos i) x) (hmax : s'.maxOffset = s.maxOffset)
    (hoffset : s'.idxOffset = s.idxOffset) : s'.slots = s.slots.set (i % s.slots.n) x := by
  rw [← hs.slots_setIdx]
  show Slots.mk _ _ = Slots.mk _ _
  rw [hindex, hmax, hoffset]
  rfl

/-- The invariant of the table is about the slots and the words of live entries. -/
theorem TableInv.congr (hT : TableInv g s) (hslots : s'.slots = s.slots) (hmax : s'.maxOffset = s.maxOffset)
    (hoffset : s'.idxOffset = s.idxOffset) (hbitmap : s'.bitmap = s.bitmap)
    (hentries : s'.nEntries = s.nEntries) (hgarbages : s'.nGarbages = s.nGarbages)
    (hword : ∀ id, s.bitmap id = true → (s'.entries id).word = (s.entries id).word) : TableInv g s' where
  sized := by
    rw [GrnHash.Sized, hmax]
    exact hT.sized
  offset := by
    rw [hoffset]
    exact hT.offset
  holds := by
    rw [hslots]
    exact hT.holds.congr fun id hentry hhas => hword id ((hT.live id hentry).mp hhas)
  entries := by
    rw [hslots, hentries]
    exact hT.entries
  tombs := by
    rw [hslots, hgarbages]
    exact hT.tombs
  nil := by
    rw [hslots]
    exact hT.nil
  live := by
    rw [hslots, hbitmap]
    exact hT.live

/-- **An id gets the slot of a probe of its key.** -/
theorem TableInv.fill (hT : TableInv g s) {found : Bool}
    (hprobes : s.Probes (g.hashValue key) (calculateStep (g.hashValue key)) k i)
    (hcontent : s.contentAt g key k = if found then garbage else 0)
    (hbefore : ∀ l < k, s.contentAt g key l ≠ 0)
    (hroom : found = true ∨ s.nEntries + s.slots.count (· == garbage) < s.maxOffset)
    (hid : isEntry garbage id = true) (hnew : s.bitmap id = false)
    (hindex : s'.index = Function.update s.index (s.idxPos i) id) (hmax : s'.maxOffset = s.maxOffset)
    (hoffset : s'.idxOffset = s.idxOffset) (hbitmap : s'.bitmap = Function.update s.bitmap id true)
    (hentries : s'.nEntries = s.nEntries + 1)
    (hgarbages : (if found then s.nGarbages - 1 else s.nGarbages) ≤ s'.nGarbages)
    (hword : (s'.entries id).word = g.hashValue key)
    (hothers : ∀ id', s.bitmap id' = true → (s'.entries id').word = (s.entries id').word) :
    TableInv g s' := by
  have hslots := hT.sized.slots_of_update hindex hmax hoffset
  have hslot : i % s.slots.n < s.slots.n := Nat.mod_lt _ hT.sized.n_pos
  have hold : s.slots.at' (i % s.slots.n) = if found then garbage else 0 := by
    rw [hprobes]
    exact hcontent
  have hfree : isEntry garbage (s.slots.at' (i % s.slots.n)) = false := by
    rw [hold]
    cases found <;> decide
  have hnotHas : ¬ s.slots.Has id := fun hhas => by
    rw [(hT.live id hid).mp hhas] at hnew
    cases hnew
  have hid' := isEntry_iff.mp hid
  have hcountEntry := s.slots.count_set (x := id) (isEntry garbage) hslot
  rw [if_neg (by rw [hfree]; exact Bool.false_ne_true), if_pos hid] at hcountEntry
  have hcountTomb := s.slots.count_set (x := id) (· == garbage) hslot
  rw [if_neg (show ¬ (id == garbage) = true by simp [hid'.2]), hold] at hcountTomb
  constructor
  · rw [GrnHash.Sized, hmax]
    exact hT.sized
  · rw [hoffset]
    exact hT.offset
  · rw [hslots]
    have hold' : s.slots.Holds garbage
        (fun id' => if id' = id then g.hashValue key else (s'.entries id').word) calculateStep := by
      refine hT.holds.congr fun id' hentry hhas => ?_
      have hlive := (hT.live id' hentry).mp hhas
      rw [if_neg (by rintro rfl; exact hnotHas hhas)]
      exact hothers id' hlive
    refine (hold'.put hslot hfree hid hnotHas (k := k) ?_ fun l hl => ?_).congr fun id' _ _ => ?_
    · rw [if_pos rfl]
      exact hprobes.symm
    · rw [if_pos rfl]
      exact hbefore l hl
    · by_cases heq : id' = id
      · rw [if_pos heq, heq, hword]
      · rw [if_neg heq]
  · rw [hslots, hentries, ← hT.entries]
    exact hcountEntry
  · rw [hslots]
    refine Nat.le_trans ?_ hgarbages
    have htombs := hT.tombs
    cases found with
    | true =>
      rw [if_pos rfl]
      simp only [if_true, beq_self_eq_true] at hcountTomb
      omega
    | false =>
      rw [if_neg Bool.false_ne_true]
      have hzero : ((if false = true then garbage else 0) == garbage) = false := by decide
      rw [if_neg (by rw [hzero]; exact Bool.false_ne_true)] at hcountTomb
      omega
  · rw [hslots]
    rcases hroom with rfl | hroom
    · -- the nil slot is another one
      obtain ⟨slot, hlt, hzero⟩ := hT.nil
      have hne : slot ≠ i % s.slots.n := by
        rintro rfl
        rw [hold] at hzero
        exact garbage_ne_zero hzero
      exact ⟨slot, hlt, (Slots.at'_set_of_ne hne).trans hzero⟩
    · have hused := (s.slots.set (i % s.slots.n) id).count_used garbage_ne_zero
      have htomb : (s.slots.set (i % s.slots.n) id).count (· == garbage) ≤ s.slots.count (· == garbage) := by
        omega
      have hn : s.slots.n = s.maxOffset + 1 := rfl
      have hentries' := hT.entries
      obtain ⟨slot, hlt, hnil⟩ := (s.slots.set (i % s.slots.n) id).exists_of_count_lt (q := (· != 0)) (by
        show _ < s.slots.n
        omega)
      exact ⟨slot, hlt, by simpa using hnil⟩
  · intro id' hentry'
    rw [hslots, hbitmap, Slots.has_set hslot]
    by_cases heq : id' = id
    · subst heq
      rw [Function.update_self]
      exact iff_of_true (.inl rfl) rfl
    · rw [Function.update_of_ne heq, ← hT.live id' hentry']
      constructor
      · rintro (rfl | ⟨j, hj, -, hat⟩)
        · exact absurd rfl heq
        · exact ⟨j, hj, hat⟩
      · rintro ⟨j, hj, hat⟩
        refine .inr ⟨j, hj, fun hjs => ?_, hat⟩
        rw [hjs] at hat
        rw [hat, hentry'] at hfree
        cases hfree

/-- **The slot of an id is left.** -/
theorem TableInv.leave (hT : TableInv g s) (hid : isEntry garbage id = true) (hat : s.idxAt i = id)
    (hindex : s'.index = Function.update s.index (s.idxPos i) garbage) (hmax : s'.maxOffset = s.maxOffset)
    (hoffset : s'.idxOffset = s.idxOffset) (hbitmap : s'.bitmap = Function.update s.bitmap id false)
    (hentries : s'.nEntries = s.nEntries - 1) (hgarbages : s'.nGarbages = s.nGarbages + 1)
    (hothers : ∀ id', id' ≠ id → s.bitmap id' = true → (s'.entries id').word = (s.entries id').word) :
    TableInv g s' := by
  have hslots := hT.sized.slots_of_update hindex hmax hoffset
  have hslot : i % s.slots.n < s.slots.n := Nat.mod_lt _ hT.sized.n_pos
  rw [hT.sized.idxAt_eq] at hat
  have hentry : isEntry garbage (s.slots.at' (i % s.slots.n)) = true := by rw [hat]; exact hid
  have hid' := isEntry_iff.mp hid
  have hcountEntry := s.slots.count_set (x := garbage) (isEntry garbage) hslot
  rw [if_pos hentry, if_neg (by decide)] at hcountEntry
  have hcountTomb := s.slots.count_set (x := garbage) (· == garbage) hslot
  rw [if_neg (show ¬ (s.slots.at' (i % s.slots.n) == garbage) = true by simp [hat, hid'.2]),
    if_pos (show (garbage == garbage) = true by simp)] at hcountTomb
  constructor
  · rw [GrnHash.Sized, hmax]
    exact hT.sized
  · rw [hoffset]
    exact hT.offset
  · rw [hslots]
    refine (hT.holds.remove hslot garbage_ne_zero hentry).congr fun id' hentry' hhas => ?_
    obtain ⟨hhas', hne⟩ := (hT.holds.has_remove hslot hentry hentry').mp hhas
    rw [hat] at hne
    exact hothers id' hne ((hT.live id' hentry').mp hhas')
  · rw [hslots, hentries, ← hT.entries]
    omega
  · have htombs := hT.tombs
    rw [hslots, hgarbages]
    omega
  · obtain ⟨slot, hlt, hzero⟩ := hT.nil
    have hne : slot ≠ i % s.slots.n := by
      rintro rfl
      exact hid'.1 (hat.symm.trans hzero)
    rw [hslots]
    exact ⟨slot, hlt, (Slots.at'_set_of_ne hne).trans hzero⟩
  · intro id' hentry'
    rw [hslots, hT.holds.has_remove hslot hentry hentry', hat, hbitmap]
    by_cases heq : id' = id
    · subst heq
      rw [Function.update_self]
      exact iff_of_false (fun h => h.2 rfl) Bool.false_ne_true
    · rw [Function.update_of_ne heq, ← hT.live id' hentry']
      exact ⟨fun h => h.1, fun h => ⟨h, heq⟩⟩

end Groonga.Hash
