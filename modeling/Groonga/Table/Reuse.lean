import Groonga.Table.Array
import Mathlib

/-!
# Ids that are handed out again

An id is free when it was handed out and its bit is off. The ids that are linked by the values, or
that the header remembers, are free and different from each other; then an addition returns an id
that is not live. Deletions and additions keep this, and so do lookups in a table whose values have
room for a link.

In the other tables a read keeps it only when it is harmless: the id is nil, or it was handed out
and is not remembered yet, or there is no room to remember it.
-/

namespace Groonga.Table

open Lib

/-! ## Reads -/

/-- The ids that the header remembers. -/
def ArrayHeader.remembered (h : ArrayHeader) : List ℕ :=
  (h.garbages :: h.garbagesBuffer).filter (· ≠ 0)

/-- Reading the bit of the id remembers only a free id, and only once. -/
def GrnArray.HarmlessRead (s : GrnArray) (id : ℕ) : Prop :=
  s.canUseValueForGarbage = true ∨ s.bitAt id ≠ some false ∨ id = 0 ∨
    (id ≤ s.header.currRec ∧ id ∉ s.header.remembered) ∨
    (s.header.garbages ≠ 0 ∧ garbagesBufferSize ≤ s.header.nGarbagesInBuffer)

instance (s : GrnArray) (id : ℕ) : Decidable (s.HarmlessRead id) :=
  inferInstanceAs (Decidable (_ ∨ _))

/-- The bits of the ids are read one after another. -/
def GrnArray.readAll (s : GrnArray) (ids : List ℕ) : GrnArray :=
  ids.foldl (fun s id => (s.bitmapAt id).2) s

/-- Every read is harmless when it is made. -/
def GrnArray.HarmlessReads : GrnArray → List ℕ → Prop
  | _, [] => True
  | s, id :: ids => s.HarmlessRead id ∧ HarmlessReads (s.bitmapAt id).2 ids

instance GrnArray.decidableHarmlessReads : (s : GrnArray) → (ids : List ℕ) →
    Decidable (s.HarmlessReads ids)
  | _, [] => isTrue trivial
  | s, id :: ids =>
    have := decidableHarmlessReads (s.bitmapAt id).2 ids
    inferInstanceAs (Decidable (_ ∧ _))

variable {s : GrnArray} {h : ArrayHeader} {id : ℕ} {ids : List ℕ} {f : Failures}

theorem bitmapAt_eq : s.bitmapAt id = (s.bitAt id, { s with header := (s.bitmapAt id).2.header }) := by
  rw [GrnArray.bitmapAt]
  split_ifs
  · rfl
  · rfl

theorem bitmapAt_fst : (s.bitmapAt id).1 = s.bitAt id := by rw [bitmapAt_eq]

theorem bits_bitmapAt : (s.bitmapAt id).2.bits = s.bits := by rw [bitmapAt_eq]

/-- A read does not change any bit. -/
theorem bitAt_bitmapAt : (s.bitmapAt id).2.bitAt = s.bitAt := by
  funext i
  rw [bitmapAt_eq]
  rfl

/-! ## What the header remembers -/

theorem putToBuffer_filter {buffer buffer' : List ℕ} (hid : id ≠ 0)
    (hput : putToBuffer id buffer = some buffer') :
    (buffer'.filter (· ≠ 0)).Perm (id :: buffer.filter (· ≠ 0)) := by
  induction buffer generalizing buffer' with
  | nil => cases hput
  | cons b bs ih =>
    rw [putToBuffer] at hput
    split_ifs at hput with hb
    · obtain rfl := Option.some.inj hput
      subst hb
      simp [hid]
    · obtain ⟨bs', hbs, rfl⟩ := Option.map_eq_some_iff.mp hput
      have htail := ih hbs
      simp only [List.filter_cons, hb, decide_not, decide_false, Bool.not_false, if_true] at htail ⊢
      exact (htail.cons b).trans (List.Perm.swap id b _)

theorem takeFromBuffer_filter {buffer buffer' : List ℕ} {garbage : ℕ}
    (htake : takeFromBuffer buffer = some (garbage, buffer')) :
    garbage ≠ 0 ∧ (buffer.filter (· ≠ 0)).Perm (garbage :: buffer'.filter (· ≠ 0)) := by
  induction buffer generalizing buffer' with
  | nil => cases htake
  | cons b bs ih =>
    rw [takeFromBuffer] at htake
    split_ifs at htake with hb
    · obtain ⟨rfl, rfl⟩ := Prod.mk.inj (Option.some.inj htake)
      refine ⟨hb, ?_⟩
      simp [hb]
    · obtain ⟨⟨_, bs'⟩, hbs, heq⟩ := Option.map_eq_some_iff.mp htake
      obtain ⟨rfl, rfl⟩ := Prod.mk.inj heq
      obtain ⟨hne, hperm⟩ := ih hbs
      refine ⟨hne, ?_⟩
      have hb' : b = 0 := not_not.mp hb
      simpa [hb'] using hperm

/-- The buffer gets what was remembered: the same ids are remembered, and there is room for one
more, unless there is no room at all. -/
theorem makeRoom_spec (h : ArrayHeader) :
    h.makeRoom = h ∨ (h.makeRoom.garbages = 0 ∧ h.makeRoom.currRec = h.currRec ∧
      h.makeRoom.nEntries = h.nEntries ∧ h.makeRoom.remembered.Perm h.remembered) := by
  rw [ArrayHeader.makeRoom]
  split_ifs with hroom
  · cases hput : putToBuffer h.garbages h.garbagesBuffer with
    | none => exact .inl rfl
    | some buffer =>
      refine .inr ⟨rfl, rfl, rfl, ?_⟩
      have hfilter := putToBuffer_filter hroom.1 hput
      simpa [ArrayHeader.remembered, hroom.1] using hfilter
  · exact .inl rfl

/-- **An id is put to the buffer**: it is remembered behind the others, or not at all. -/
theorem putGarbageToBuffer_spec (h : ArrayHeader) (id : ℕ) :
    (h.putGarbageToBuffer id).currRec = h.currRec ∧ (h.putGarbageToBuffer id).nEntries = h.nEntries ∧
      ((h.putGarbageToBuffer id).remembered.Perm h.remembered ∨
        (id ≠ 0 ∧ (h.putGarbageToBuffer id).remembered.Perm (id :: h.remembered))) := by
  have hempty : ∀ h' : ArrayHeader, h'.garbages = 0 → h'.remembered.Perm h.remembered →
      ({ h' with garbages := id } : ArrayHeader).remembered.Perm h.remembered ∨
        (id ≠ 0 ∧ ({ h' with garbages := id } : ArrayHeader).remembered.Perm (id :: h.remembered)) := by
    intro h' hzero hperm
    by_cases hid : id = 0
    · subst hid
      refine .inl ?_
      rwa [← hzero]
    · refine .inr ⟨hid, ?_⟩
      simpa [ArrayHeader.remembered, hid, hzero] using hperm
  rw [ArrayHeader.putGarbageToBuffer]
  rcases makeRoom_spec h with hsame | ⟨hzero, hcurr, hentries, hperm⟩
  · simp only [hsame]
    split_ifs with hzero
    · exact ⟨rfl, rfl, hempty h hzero (.refl _)⟩
    · exact ⟨rfl, rfl, .inl (.refl _)⟩
  · simp only [hzero, if_true]
    exact ⟨hcurr, hentries, hempty _ hzero hperm⟩

theorem nGarbages_makeRoom (h : ArrayHeader) : h.makeRoom.nGarbages = h.nGarbages := by
  rw [ArrayHeader.makeRoom]
  split_ifs
  · cases putToBuffer h.garbages h.garbagesBuffer with
    | none => rfl
    | some buffer => rfl
  · rfl

theorem nGarbages_putGarbageToBuffer (h : ArrayHeader) (id : ℕ) :
    (h.putGarbageToBuffer id).nGarbages = h.nGarbages := by
  have hroom := nGarbages_makeRoom h
  simp only [ArrayHeader.putGarbageToBuffer]
  split_ifs
  · exact hroom
  · exact hroom

/-- A read does not change how many garbages there are. -/
theorem nGarbages_bitmapAt : (s.bitmapAt id).2.header.nGarbages = s.header.nGarbages := by
  rw [GrnArray.bitmapAt]
  split_ifs
  · exact nGarbages_putGarbageToBuffer _ _
  · rfl

/-- Nothing is remembered when there is no room. -/
theorem putGarbageToBuffer_of_full (hne : h.garbages ≠ 0)
    (hfull : garbagesBufferSize ≤ h.nGarbagesInBuffer) : h.putGarbageToBuffer id = h := by
  have hsame : h.makeRoom = h := if_neg fun hroom => Nat.not_lt.mpr hfull hroom.2
  rw [ArrayHeader.putGarbageToBuffer, hsame]
  exact if_neg hne

/-! ## The invariant -/

/-- The ids of live records. -/
def GrnArray.setBits (s : GrnArray) : Set ℕ := {id | s.bits id = true}

/-- The id was handed out and is not live. -/
def GrnArray.IsFree (s : GrnArray) (id : ℕ) : Prop :=
  0 < id ∧ id ≤ s.header.currRec ∧ s.bits id = false

/-- The deleted records that additions can find. -/
def GrnArray.FreeIds (s : GrnArray) (ids : List ℕ) : Prop :=
  if s.canUseValueForGarbage then Chain s.link s.header.garbages ids
  else ids.Perm s.header.remembered

theorem freeIds_of_small (hsmall : ¬ s.canUseValueForGarbage = true)
    (hperm : ids.Perm s.header.remembered) : s.FreeIds ids := by
  rw [GrnArray.FreeIds, if_neg hsmall]
  exact hperm

theorem freeIds_of_linked (hlinked : s.canUseValueForGarbage = true)
    (hchain : Chain s.link s.header.garbages ids) : s.FreeIds ids := by
  rw [GrnArray.FreeIds, if_pos hlinked]
  exact hchain

/-- **The invariant of the array.** -/
structure GrnArray.Sound (s : GrnArray) : Prop where
  le_max : s.header.currRec ≤ arrayMax
  live : ∀ id, s.bits id = true → 0 < id ∧ id ≤ s.header.currRec
  entries : s.header.nEntries = s.setBits.ncard
  total : s.header.nEntries + s.header.nGarbages = s.header.currRec
  free : ∃ ids, s.FreeIds ids ∧ ids.Nodup ∧ ∀ id ∈ ids, s.IsFree id

theorem sound_arrayCreate (valueSize : ℕ) : (arrayCreate valueSize).Sound := by
  refine ⟨Nat.zero_le _, fun id hid => (Bool.false_ne_true hid).elim, ?_, rfl, [], ?_, List.nodup_nil,
    fun id hid => absurd hid List.not_mem_nil⟩
  · have hempty : (arrayCreate valueSize).setBits = ∅ :=
      Set.eq_empty_iff_forall_notMem.mpr fun id hid => Bool.false_ne_true hid
    rw [hempty, Set.ncard_empty]
    rfl
  · rw [GrnArray.FreeIds]
    split_ifs
    · exact rfl
    · exact .refl _

theorem GrnArray.Sound.finite (hs : s.Sound) : s.setBits.Finite :=
  (Finset.range (s.header.currRec + 1)).finite_toSet.subset fun id hid =>
    Finset.mem_coe.mpr (Finset.mem_range.mpr (Nat.lt_succ_of_le (hs.live id hid).2))

/-- The first free id. -/
theorem GrnArray.Sound.isFree_garbages (hs : s.Sound) (hne : s.header.garbages ≠ 0) :
    s.IsFree s.header.garbages := by
  obtain ⟨ids, hfree, -, hdead⟩ := hs.free
  apply hdead
  rw [GrnArray.FreeIds] at hfree
  split_ifs at hfree
  · obtain ⟨ids', rfl, -⟩ := hfree.pop hne
    exact List.mem_cons_self
  · refine hfree.mem_iff.mpr ?_
    simp [ArrayHeader.remembered, hne]

/-- **A harmless read keeps the invariant.** -/
theorem GrnArray.Sound.bitmapAt (hs : s.Sound) (hread : s.HarmlessRead id) :
    (s.bitmapAt id).2.Sound := by
  rw [GrnArray.bitmapAt]
  split_ifs with hbit
  · obtain ⟨hoff, hsmall⟩ := hbit
    obtain ⟨hcurr, hentries, hremembered⟩ := putGarbageToBuffer_spec s.header id
    obtain ⟨ids, hfree, hnodup, hdead⟩ := hs.free
    rw [GrnArray.FreeIds, if_neg hsmall] at hfree
    have hdead' : ∀ i, s.IsFree i →
        ({ s with header := s.header.putGarbageToBuffer id } : GrnArray).IsFree i :=
      fun i hi => ⟨hi.1, by rw [hcurr]; exact hi.2.1, hi.2.2⟩
    refine ⟨by rw [hcurr]; exact hs.le_max, fun i hi => by rw [hcurr]; exact hs.live i hi,
      by rw [hentries]; exact hs.entries,
      by rw [hentries, hcurr, nGarbages_putGarbageToBuffer]; exact hs.total, ?_⟩
    rcases hremembered with hsame | ⟨hne, hmore⟩
    · exact ⟨ids, freeIds_of_small hsmall (hfree.trans hsame.symm), hnodup, fun i hi => hdead' i (hdead i hi)⟩
    · rcases hread with hcan | hon | hzero | ⟨hle, hnot⟩ | ⟨hgarbages, hfull⟩
      · exact absurd hcan hsmall
      · exact absurd hoff hon
      · exact absurd hzero hne
      · have hbits : s.bits id = false := by
          rw [GrnArray.bitAt] at hoff
          split_ifs at hoff
          exact Option.some.inj hoff
        refine ⟨id :: ids, freeIds_of_small hsmall ((hfree.cons id).trans hmore.symm),
          List.nodup_cons.mpr ⟨fun hmem => hnot (hfree.mem_iff.mp hmem), hnodup⟩, fun i hi => ?_⟩
        rcases List.mem_cons.mp hi with rfl | hi
        · exact hdead' i ⟨Nat.pos_of_ne_zero hne, hle, hbits⟩
        · exact hdead' i (hdead i hi)
      · refine ⟨ids, freeIds_of_small hsmall ?_, hnodup, fun i hi => hdead' i (hdead i hi)⟩
        simp only [putGarbageToBuffer_of_full hgarbages hfull]
        exact hfree
  · exact hs

theorem GrnArray.Sound.readAll (hs : s.Sound) (hreads : s.HarmlessReads ids) :
    (s.readAll ids).Sound := by
  induction ids generalizing s with
  | nil => exact hs
  | cons id ids ih => exact ih (hs.bitmapAt hreads.1) hreads.2

theorem bits_readAll : (s.readAll ids).bits = s.bits := by
  induction ids generalizing s with
  | nil => rfl
  | cons id ids ih => exact ih.trans bits_bitmapAt

/-! ## Deletions -/

theorem setBits_on (s : GrnArray) (id : ℕ) : (s.bitOn id).setBits = insert id s.setBits := by
  ext i
  by_cases hi : i = id
  · subst hi
    simp [GrnArray.setBits, GrnArray.bitOn]
  · simp [GrnArray.setBits, GrnArray.bitOn, hi]

theorem setBits_off (s : GrnArray) (id : ℕ) : (s.bitOff id).setBits = s.setBits \ {id} := by
  ext i
  by_cases hi : i = id
  · subst hi
    simp [GrnArray.setBits, GrnArray.bitOff]
  · simp [GrnArray.setBits, GrnArray.bitOff, hi]

theorem link_setLink (s : GrnArray) (id link : ℕ) : (s.setLink id link).link id = link % 256 ^ 4 := by
  rw [GrnArray.link, GrnArray.setLink]
  simp only [Function.update_self]
  exact readNat_writeNat _ _ _ _

theorem link_setLink_of_ne {i : ℕ} (hne : i ≠ id) (link : ℕ) : (s.setLink id link).link i = s.link i := by
  rw [GrnArray.link, GrnArray.setLink]
  simp only [Function.update_of_ne hne]
  rfl

/-- An id fits into a link. -/
theorem GrnArray.Sound.garbages_lt (hs : s.Sound) : s.header.garbages % 256 ^ 4 = s.header.garbages := by
  by_cases hzero : s.header.garbages = 0
  · rw [hzero]
    rfl
  · have hle := (hs.isFree_garbages hzero).2.1
    have hmax := hs.le_max
    rw [arrayMax] at hmax
    omega

/-- The deleted record becomes the first free one, or is remembered, or forgotten. -/
theorem GrnArray.Sound.free_deleteLive (hs : s.Sound) (hid : s.bits id = true) :
    ∃ ids, (s.deleteLive id).FreeIds ids ∧ ids.Nodup ∧ ∀ i ∈ ids, s.IsFree i ∨ i = id := by
  obtain ⟨ids, hfree, hnodup, hdead⟩ := hs.free
  have hnot : id ∉ ids := fun hmem => Bool.false_ne_true ((hdead id hmem).2.2.symm.trans hid)
  have hcons : ∀ i ∈ id :: ids, s.IsFree i ∨ i = id := by
    intro i hi
    rcases List.mem_cons.mp hi with rfl | hi
    · exact .inr rfl
    · exact .inl (hdead i hi)
  rw [GrnArray.FreeIds] at hfree
  rw [GrnArray.deleteLive]
  split_ifs at hfree ⊢ with hcan
  · refine ⟨id :: ids, freeIds_of_linked hcan ?_, List.nodup_cons.mpr ⟨hnot, hnodup⟩, hcons⟩
    refine hfree.push (Nat.ne_of_gt (hs.live id hid).1) ?_ fun i hi => ?_
    · exact (link_setLink s id _).trans hs.garbages_lt
    · have hne : i ≠ id := fun heq => hnot (heq ▸ hi)
      exact link_setLink_of_ne hne _
  · rcases (putGarbageToBuffer_spec s.header id).2.2 with hsame | ⟨-, hmore⟩
    · exact ⟨ids, freeIds_of_small hcan (hfree.trans hsame.symm), hnodup, fun i hi => .inl (hdead i hi)⟩
    · exact ⟨id :: ids, freeIds_of_small hcan ((hfree.cons id).trans hmore.symm),
        List.nodup_cons.mpr ⟨hnot, hnodup⟩, hcons⟩

theorem bits_deleteLive (s : GrnArray) (id : ℕ) :
    (s.deleteLive id).bits = Function.update s.bits id false := by
  rw [GrnArray.deleteLive]
  split_ifs
  · rfl
  · rfl

theorem header_deleteLive (s : GrnArray) (id : ℕ) :
    (s.deleteLive id).header.currRec = s.header.currRec ∧
      (s.deleteLive id).header.nEntries = s.header.nEntries - 1 ∧
        (s.deleteLive id).header.nGarbages = s.header.nGarbages + 1 := by
  rw [GrnArray.deleteLive]
  split_ifs
  · exact ⟨rfl, rfl, rfl⟩
  · obtain ⟨hcurr, hentries, -⟩ := putGarbageToBuffer_spec s.header id
    exact ⟨hcurr, congrArg (· - 1) hentries, congrArg (· + 1) (nGarbages_putGarbageToBuffer _ _)⟩

/-- **A live record is deleted.** -/
theorem GrnArray.Sound.deleteLive (hs : s.Sound) (hid : s.bits id = true) : (s.deleteLive id).Sound := by
  obtain ⟨hcurr, hentries, hgarbages⟩ := header_deleteLive s id
  have hbits := bits_deleteLive s id
  refine ⟨by rw [hcurr]; exact hs.le_max, fun i hi => ?_, ?_, ?_, ?_⟩
  · rw [hbits] at hi
    rw [hcurr]
    by_cases hii : i = id
    · subst hii
      rw [Function.update_self] at hi
      exact (Bool.false_ne_true hi).elim
    · rw [Function.update_of_ne hii] at hi
      exact hs.live i hi
  · have hset : (s.deleteLive id).setBits = s.setBits \ {id} := by
      rw [← setBits_off, GrnArray.setBits, hbits]
      rfl
    have hmem : id ∈ s.setBits := hid
    rw [hentries, hset, Set.ncard_sdiff_singleton_of_mem hmem, hs.entries]
  · have hpos : 0 < s.setBits.ncard := (Set.ncard_pos hs.finite).mpr ⟨id, hid⟩
    have htotal := hs.total
    have hcount := hs.entries
    rw [hentries, hgarbages, hcurr]
    omega
  · obtain ⟨ids, hfree, hnodup, hdead⟩ := hs.free_deleteLive hid
    refine ⟨ids, hfree, hnodup, fun i hi => ?_⟩
    rw [GrnArray.IsFree, hcurr, hbits]
    rcases hdead i hi with hi | rfl
    · refine ⟨hi.1, hi.2.1, ?_⟩
      have hne : i ≠ id := fun heq => Bool.false_ne_true (hi.2.2.symm.trans (heq ▸ hid))
      rw [Function.update_of_ne hne]
      exact hi.2.2
    · exact ⟨(hs.live i hid).1, (hs.live i hid).2, Function.update_self _ _ _⟩

/-! ## Additions -/

theorem refill_spec (hzero : h.garbages = 0) :
    h.refill.currRec = h.currRec ∧ h.refill.nEntries = h.nEntries ∧ h.refill.nGarbages = h.nGarbages ∧
      h.refill.remembered.Perm h.remembered := by
  rw [ArrayHeader.refill]
  split_ifs with hany
  · cases htake : takeFromBuffer h.garbagesBuffer with
    | none => exact ⟨rfl, rfl, rfl, .refl _⟩
    | some r =>
      obtain ⟨hne, hperm⟩ := takeFromBuffer_filter htake
      refine ⟨rfl, rfl, rfl, ?_⟩
      simpa [ArrayHeader.remembered, hzero, hne] using hperm.symm
  · exact ⟨rfl, rfl, rfl, .refl _⟩

/-- The remembered id is taken, the others stay. -/
theorem takeGarbage_spec (hne : h.garbages ≠ 0) :
    h.takeGarbage.currRec = h.currRec ∧ h.takeGarbage.nEntries = h.nEntries ∧
      h.takeGarbage.nGarbages = decrement h.nGarbages ∧
        h.remembered.Perm (h.garbages :: h.takeGarbage.remembered) := by
  obtain ⟨hcurr, hentries, hgarbages, hperm⟩ :=
    @refill_spec { h with garbages := 0, nGarbages := decrement h.nGarbages } rfl
  refine ⟨hcurr, hentries, hgarbages, .trans (.of_eq ?_) (hperm.symm.cons _)⟩
  simp [ArrayHeader.remembered, hne]

/-- What an addition does: nothing, or the record gets live. -/
structure GrnArray.Adds (s s' : GrnArray) (id : ℕ) : Prop where
  failed : id = 0 → s'.bits = s.bits ∧ s'.Sound
  added : id ≠ 0 → s.bits id = false ∧ id ≤ s.header.currRec + 1 ∧
    s'.bits = Function.update s.bits id true ∧ s'.Sound

/-- A record gets live. -/
theorem GrnArray.Sound.bitOn {s' : GrnArray} (hs : s.Sound) (hoff : s.bits id = false)
    (hbits : s'.bits = Function.update s.bits id true) (hentries : s'.header.nEntries = s.header.nEntries + 1)
    (hle : s.header.currRec ≤ s'.header.currRec) (hmax : s'.header.currRec ≤ arrayMax)
    (hid : 0 < id ∧ id ≤ s'.header.currRec)
    (htotal : s'.header.nEntries + s'.header.nGarbages = s'.header.currRec)
    (hfree : ∃ ids, s'.FreeIds ids ∧ ids.Nodup ∧ ∀ i ∈ ids, s.IsFree i ∧ i ≠ id) : s'.Sound := by
  obtain ⟨ids, hids, hnodup, hdead⟩ := hfree
  refine ⟨hmax, fun i hi => ?_, ?_, htotal, ids, hids, hnodup, fun i hi => ?_⟩
  · rw [hbits] at hi
    by_cases hii : i = id
    · subst hii
      exact hid
    · rw [Function.update_of_ne hii] at hi
      exact ⟨(hs.live i hi).1, (hs.live i hi).2.trans hle⟩
  · have hset : s'.setBits = insert id s.setBits := by
      rw [← setBits_on, GrnArray.setBits, hbits]
      rfl
    have hnot : id ∉ s.setBits := fun hmem => Bool.false_ne_true (hoff.symm.trans hmem)
    rw [hentries, hset, Set.ncard_insert_of_notMem hnot hs.finite, hs.entries]
  · obtain ⟨⟨hpos, hlei, hoffi⟩, hne⟩ := hdead i hi
    refine ⟨hpos, hlei.trans hle, ?_⟩
    rw [hbits, Function.update_of_ne hne]
    exact hoffi

/-- A free record is counted as a garbage. -/
theorem GrnArray.Sound.nGarbages_pos (hs : s.Sound) (hid : s.IsFree id) : 0 < s.header.nGarbages := by
  have hsub : s.setBits ⊆ Finset.Icc 1 s.header.currRec \ {id} := by
    intro i hi
    obtain ⟨hpos, hle⟩ := hs.live i hi
    have hne : i ≠ id := fun heq => Bool.false_ne_true (hid.2.2.symm.trans (heq ▸ hi))
    simp only [Finset.coe_Icc, Set.mem_sdiff, Set.mem_Icc, Set.mem_singleton_iff]
    exact ⟨⟨hpos, hle⟩, hne⟩
  have hcard : s.setBits.ncard ≤ (Finset.Icc 1 s.header.currRec \ {id}).card := by
    rw [← Set.ncard_coe_finset]
    refine Set.ncard_le_ncard ?_ (Finset.finite_toSet _)
    rw [Finset.coe_sdiff, Finset.coe_singleton]
    exact hsub
  rw [Finset.card_sdiff_of_subset (Finset.singleton_subset_iff.mpr (Finset.mem_Icc.mpr ⟨hid.1, hid.2.1⟩)),
    Nat.card_Icc, Finset.card_singleton] at hcard
  have htotal := hs.total
  have hentries := hs.entries
  have hle := hid.2.1
  have hpos := hid.1
  omega

theorem decrement_of_pos {n : ℕ} (hn : 0 < n) : decrement n = n - 1 := if_neg (Nat.ne_of_gt hn)

/-- **The first free record is used again.** -/
theorem GrnArray.Sound.reuse (hs : s.Sound) (hne : s.header.garbages ≠ 0) :
    s.Adds (s.reuse s.header.garbages f).2 (s.reuse s.header.garbages f).1 := by
  have hfirst := hs.isFree_garbages hne
  have hpos := hs.nGarbages_pos hfirst
  have htotal : s.header.nEntries + 1 + decrement s.header.nGarbages = s.header.currRec := by
    have htotal := hs.total
    rw [decrement_of_pos hpos]
    omega
  obtain ⟨ids, hfree, hnodup, hdead⟩ := hs.free
  have hnothing : s.Adds s 0 := ⟨fun _ => ⟨rfl, hs⟩, fun hzero => absurd rfl hzero⟩
  rw [GrnArray.FreeIds] at hfree
  rw [GrnArray.reuse]
  split_ifs with hentry hcan hbit hbit
  · exact hnothing
  · rw [if_pos hcan] at hfree
    -- the link is written back
    refine ⟨fun _ => ⟨rfl, hs.le_max, hs.live, hs.entries, hs.total, ids, freeIds_of_linked hcan ?_, hnodup,
      hdead⟩,
      fun hzero => absurd rfl hzero⟩
    refine hfree.congr fun i _ => ?_
    by_cases hi : i = s.header.garbages
    · subst hi
      exact (link_setLink _ _ _).trans (Nat.mod_eq_of_lt (readNat_lt _ _ _))
    · refine (link_setLink_of_ne hi _).trans ?_
      rw [GrnArray.link, GrnArray.link]
      simp only [Function.update_of_ne hi]
  · rw [if_pos hcan] at hfree
    obtain ⟨ids', rfl, hrest⟩ := hfree.pop hne
    obtain ⟨hnot, hnodup'⟩ := List.nodup_cons.mp hnodup
    refine ⟨fun hzero => absurd hzero hne, fun _ => ⟨hfirst.2.2, hfirst.2.1.trans (Nat.le_succ _), rfl, ?_⟩⟩
    refine hs.bitOn hfirst.2.2 rfl rfl (Nat.le_refl _) hs.le_max ⟨hfirst.1, hfirst.2.1⟩ htotal
      ⟨ids', freeIds_of_linked hcan ?_, hnodup', fun i hi => ?_⟩
    · refine hrest.congr fun i hi => ?_
      have hii : i ≠ s.header.garbages := fun heq => hnot (heq ▸ hi)
      refine congrArg (fun value => readNat value 0 4) ?_
      exact Function.update_of_ne hii _ _
    · exact ⟨hdead i (List.mem_cons_of_mem _ hi), fun heq => hnot (heq ▸ hi)⟩
  · exact hnothing
  · rw [if_neg hcan] at hfree
    refine ⟨fun hzero => absurd hzero hne, fun _ => ⟨hfirst.2.2, hfirst.2.1.trans (Nat.le_succ _), rfl, ?_⟩⟩
    obtain ⟨hcurr, hentries, hgarbages, hperm⟩ := takeGarbage_spec hne
    generalize s.header.takeGarbage = h at *
    have hrest := hfree.trans hperm
    obtain ⟨hnot, hnodup'⟩ := List.nodup_cons.mp (hrest.nodup_iff.mp hnodup)
    refine hs.bitOn hfirst.2.2 rfl (congrArg (· + 1) hentries) (Nat.le_of_eq hcurr.symm)
      ((Nat.le_of_eq hcurr).trans hs.le_max) ⟨hfirst.1, hfirst.2.1.trans (Nat.le_of_eq hcurr.symm)⟩
      (show h.nEntries + 1 + h.nGarbages = h.currRec by rw [hentries, hgarbages, hcurr]; exact htotal)
      ⟨_, freeIds_of_small hcan (.refl _), hnodup', fun i hi => ?_⟩
    exact ⟨hdead i (hrest.mem_iff.mpr (List.mem_cons_of_mem _ hi)), fun heq => hnot (heq ▸ hi)⟩

/-- **A new record.** -/
theorem GrnArray.Sound.addNew (hs : s.Sound) :
    s.Adds (s.addNew f).2 (s.addNew f).1 := by
  have hoff : s.bits (s.header.currRec + 1) = false := by
    by_contra hon
    have hle := (hs.live _ (Bool.not_eq_false _ ▸ hon)).2
    omega
  have hnothing : s.Adds s 0 := ⟨fun _ => ⟨rfl, hs⟩, fun hzero => absurd rfl hzero⟩
  rw [GrnArray.addNew]
  split_ifs with hfull hbit hentry
  · exact hnothing
  · exact hnothing
  · have hbits : ((s.bitOn (s.header.currRec + 1)).bitOff (s.header.currRec + 1)).bits = s.bits := by
      funext i
      by_cases hi : i = s.header.currRec + 1
      · subst hi
        exact (Function.update_self _ _ _).trans hoff.symm
      · exact (Function.update_of_ne hi _ _).trans (Function.update_of_ne hi _ _)
    refine ⟨fun _ => ⟨hbits, hs.le_max, fun i hi => hs.live i (by rwa [hbits] at hi), ?_, hs.total, ?_⟩,
      fun hzero => absurd rfl hzero⟩
    · rw [GrnArray.setBits, hbits]
      exact hs.entries
    · obtain ⟨ids, hfree, hnodup, hdead⟩ := hs.free
      exact ⟨ids, hfree, hnodup, fun i hi => ⟨(hdead i hi).1, (hdead i hi).2.1, by rw [hbits]; exact (hdead i hi).2.2⟩⟩
  · refine ⟨fun hzero => absurd hzero (Nat.succ_ne_zero _),
      fun _ => ⟨hoff, Nat.le_refl _, rfl, ?_⟩⟩
    obtain ⟨ids, hfree, hnodup, hdead⟩ := hs.free
    refine hs.bitOn hoff rfl rfl (Nat.le_succ _) (Nat.lt_of_not_le hfull)
      ⟨Nat.succ_pos _, Nat.le_refl _⟩ ?_ ⟨ids, hfree, hnodup, fun i hi => ⟨hdead i hi, fun heq => ?_⟩⟩
    · have htotal := hs.total
      show s.header.nEntries + 1 + s.header.nGarbages = s.header.currRec + 1
      omega
    have hle := (hdead i hi).2.1
    omega

/-- **An addition** returns an id that is not live, at most one more than the last one. -/
theorem GrnArray.Sound.add (hs : s.Sound) : s.Adds (s.add f).2 (s.add f).1 := by
  rw [GrnArray.add]
  split_ifs with htouch hempty
  · exact ⟨fun _ => ⟨rfl, hs⟩, fun hzero => absurd rfl hzero⟩
  · exact hs.reuse hempty
  · exact hs.addNew

end Groonga.Table
