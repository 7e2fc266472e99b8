import Groonga.Ja.SegmentSteps
import Mathlib

/-!
# Giving a place back

The place in `hand` is given back by `grn_ja_free`. Either all steps are done and no one has the
place any more, or an entry could not be added to the log or there is no segment for a garbage
info.
-/

namespace Groonga.Ja

open Lib

variable {g : Config} {L L' L'' : Ledger} {c c' c'' : Ctx} {s : GrnJa} {v seg pos size id e n : ℕ}

/-! ## Runs of steps -/

/-- A column that is sound, and whose garbage infos all have chunks. -/
structure Good (g : Config) (s : GrnJa) (L : Ledger) : Prop where
  sound : Sound g s L
  filled : Filled s L

/-- **Steps that all were done.** The column is good again, and the records hold what they held. -/
structure Moved (g : Config) (c c' : Ctx) (L L' : Ledger) : Prop where
  good : Good g c'.ja L'
  keeps : Keeps c.ja c'.ja L
  own : ∀ id < idLimit, L'.own id = L.own id
  rc : c'.rc = c.rc
  fails : c'.fails = c.fails

theorem Moved.refl (hG : Good g c.ja L) : Moved g c c L L :=
  ⟨hG, .refl _ _, fun _ _ => rfl, rfl, rfl⟩

theorem Moved.trans (h : Moved g c c' L L') (h' : Moved g c' c'' L' L'') : Moved g c c'' L L'' :=
  ⟨h'.good, h.keeps.trans h'.keeps h.own, fun id hid => (h'.own id hid).trans (h.own id hid),
    h'.rc.trans h.rc, h'.fails.trans h.fails⟩

/-- Steps of which the last one was not done. An entry with `P` could not be added to the log, or
no segment is left. -/
structure Stopped (P : SegmentEntry → Prop) (c c' : Ctx) : Prop where
  rc : c'.rc ≠ .success
  fails : c'.fails = c.fails
  reason : (∃ n e, P e ∧ c.fails n (.segment e) = true) ∨ c'.rc = .notEnoughSpace ∨
    c'.rc = .noMemoryAvailable

theorem Stopped.of_fails {P : SegmentEntry → Prop} (h : Stopped P c' c'') (hfails : c'.fails = c.fails) :
    Stopped P c c'' :=
  ⟨h.rc, h.fails.trans hfails, h.reason.imp_left fun ⟨n, e, hP, hn⟩ => ⟨n, e, hP, hfails ▸ hn⟩⟩

theorem Stopped.of_entry {P : SegmentEntry → Prop} {e : SegmentEntry} (hP : P e)
    (hrc : c'.rc = .walError) (hfails : c'.fails = c.fails) (hentry : c.fails n (.segment e) = true) :
    Stopped P c c' :=
  ⟨by rw [hrc]; decide, hfails, .inl ⟨n, e, hP, hentry⟩⟩

theorem Stopped.of_full {P : SegmentEntry → Prop} (hrc : c'.rc = .notEnoughSpace)
    (hfails : c'.fails = c.fails) : Stopped P c c' :=
  ⟨by rw [hrc]; decide, hfails, .inr (.inl hrc)⟩

/-- An entry is added to the log and done, or it is not added. -/
theorem perform_cases (g : Config) (c : Ctx) (e : SegmentEntry) :
    (∃ c', c.perform g e = (true, c') ∧ c'.ja = e.apply g c.ja ∧ c'.rc = c.rc ∧ c'.fails = c.fails) ∨
      ∃ c', c.perform g e = (false, c') ∧ c'.ja = c.ja ∧ c'.rc = .walError ∧ c'.fails = c.fails ∧
        c.fails c.attempts (.segment e) = true := by
  cases hfails : c.fails c.attempts (.segment e) with
  | true =>
    refine .inr ⟨{ c with rc := .walError, attempts := c.attempts + 1 }, ?_, rfl, rfl, rfl, rfl⟩
    simp only [Ctx.perform, Ctx.walAddEntry, hfails, if_true]
  | false =>
    refine .inl ⟨{ c with
      wal := c.wal ++ [.segment e]
      attempts := c.attempts + 1
      ja := e.apply g c.ja }, ?_, rfl, rfl, rfl⟩
    simp only [Ctx.perform, Ctx.walAddEntry, hfails, Bool.false_eq_true, if_false]

/-! ## Free segments -/

theorem findFreeFrom_spec (h : Header) (fuel seg : ℕ) :
    findFreeFrom h fuel seg = seg + fuel ∨
      (findFreeFrom h fuel seg < seg + fuel ∧ h.segmentInfos (findFreeFrom h fuel seg) = 0) := by
  induction fuel generalizing seg with
  | zero => exact .inl rfl
  | succ fuel ih =>
    rw [findFreeFrom]
    split_ifs with hfree
    · exact .inr ⟨by omega, hfree⟩
    · rcases ih (seg + 1) with h' | ⟨hlt, hinfo⟩
      · left
        omega
      · exact .inr ⟨by omega, hinfo⟩

/-- A segment that is found is free. -/
theorem findFreeSegment_spec {h : Header} (hne : findFreeSegment g h ≠ g.nDataSegments) :
    findFreeSegment g h < g.nDataSegments ∧ h.segmentInfos (findFreeSegment g h) = 0 := by
  rcases findFreeFrom_spec h g.nDataSegments 0 with h' | ⟨hlt, hinfo⟩
  · exact absurd (h'.trans (Nat.zero_add _)) hne
  · exact ⟨(Nat.zero_add g.nDataSegments) ▸ hlt, hinfo⟩

/-! ## Huge values -/

/-- The entries that giving back a place adds to the log. -/
def SegmentEntry.Frees : SegmentEntry → Prop
  | .newGinfo _ _ _ => True
  | .useGinfo _ _ _ _ _ _ _ => True
  | .freeSequential _ _ _ _ => True
  | .freeHuge _ => True
  | _ => False

theorem freeHugeLoop_spec (hG : Good g c.ja L)
    (hfree : ∀ x, seg ≤ x → x < seg + n → c.ja.header.segmentInfos x = segHuge ∧
      ∀ i < nOwners, ¬ (L.own i).Touches x) :
    Moved g c (freeHugeLoop g n seg c) L L ∨
      Stopped SegmentEntry.Frees c (freeHugeLoop g n seg c) := by
  induction n generalizing seg c with
  | zero => exact .inl (.refl hG)
  | succ n ih =>
    rw [freeHugeLoop]
    rcases perform_cases g c (.freeHuge seg) with ⟨c₁, hrun, hja, hrc, hfails⟩ |
      ⟨c₁, hrun, hja, hrc, hfails, hentry⟩
    · simp only [hrun]
      obtain ⟨hinfo, hnone⟩ := hfree seg (Nat.le_refl _) (by omega)
      obtain ⟨hS, hk⟩ := hG.sound.freeHuge hinfo hnone
      have hja' : c₁.ja = hugeSegmentFree c.ja seg := hja
      have hmove : Moved g c c₁ L L := by
        refine ⟨⟨?_, ?_⟩, ?_, fun _ _ => rfl, hrc, hfails⟩
        · rw [hja']
          exact hS
        · rw [hja']
          exact hG.filled
        · rw [hja']
          exact hk
      rcases @ih _ (seg + 1) hmove.good (fun x hle hlt => by
          obtain ⟨hinfo', hnone'⟩ := hfree x (by omega) (by omega)
          refine ⟨?_, hnone'⟩
          rw [hja', ← hinfo']
          exact setInfo_of_ne (by omega)) with h | h
      · exact .inl (hmove.trans h)
      · exact .inr (h.of_fails hfails)
    · simp only [hrun]
      exact .inr (.of_entry (e := .freeHuge seg) trivial hrc hfails hentry)

/-! ## Chunks -/

/-- The search ends at the first garbage info with room, or at the last one. -/
theorem findRoom_spec {start previous fuel : ℕ} {cs : List ℕ}
    (hpath : Path (fun d => ginfo (s.memory d)) start cs) (hfuel : cs.length < fuel) :
    (∃ p, ∃ d ∈ cs, findRoom g s fuel previous start = (p, some d) ∧
      (ginfo (s.memory d)).nrecs < g.nGarbagesInASegment) ∨
        findRoom g s fuel previous start = (cs.getLastD previous, none) := by
  induction cs generalizing start previous fuel with
  | nil =>
    obtain rfl : start = 0 := hpath
    obtain ⟨fuel, rfl⟩ := Nat.exists_eq_succ_of_ne_zero (Nat.ne_zero_of_lt hfuel)
    exact .inr rfl
  | cons d ds ih =>
    obtain ⟨rfl, hne, hrest⟩ := hpath
    obtain ⟨fuel, rfl⟩ := Nat.exists_eq_succ_of_ne_zero (Nat.ne_zero_of_lt hfuel)
    rw [findRoom, if_neg hne]
    split_ifs with hroom
    · exact .inl ⟨previous, start, List.mem_cons_self, rfl, hroom⟩
    · rw [List.length_cons] at hfuel
      rcases @ih _ start fuel hrest (by omega) with ⟨p, d, hd, hrun, hlt⟩ | hrun
      · exact .inl ⟨p, d, List.mem_cons_of_mem _ hd, hrun, hlt⟩
      · rw [hrun, List.getLastD_cons]
        exact .inr rfl

/-- The garbage infos of a size are not more than the segments. -/
theorem Sound.length_chain_le (hS : Sound g s L) (hv : v < nVariations) :
    (L.chain v).length ≤ g.nDataSegments := by
  have hsub : (L.chain v).toFinset ⊆ Finset.range g.nDataSegments := fun d hd =>
    Finset.mem_range.mpr (hS.inv.chains.info v hv d (List.mem_toFinset.mp hd)).1
  have hcard := Finset.card_le_card hsub
  rwa [List.toFinset_card_of_nodup (hS.inv.chains.nodup v hv), Finset.card_range] at hcard

/-- The chunk in `hand` is recorded in a garbage info that may have none yet. -/
theorem useGinfo_spec {a : Pos} {d : ℕ} (hS : Sound g c.ja L) (hv : v < nVariations)
    (hhand : L.own hand = .chunk a v) (hsize : chunkVariation size = v) (hd : d ∈ L.chain v)
    (hroom : (ginfo (c.ja.memory d)).nrecs < g.nGarbagesInASegment)
    (hfilled : ∀ w < nVariations, ∀ d' ∈ L.chain w, d' ≠ d → 0 < (ginfo (c.ja.memory d')).nrecs) :
    let info := ginfo (c.ja.memory d)
    let c' := (c.perform g (.useGinfo size a.seg a.pos d ((info.head + 1) % g.nGarbagesInASegment)
      (info.nrecs + 1) ((c.ja.header.nGarbages (chunkVariation size) + 1) % 0x100000000))).2
    (∃ L', Moved g c c' L L' ∧ L'.own hand = .none) ∨ Stopped SegmentEntry.Frees c c' := by
  intro info c'
  have hcount := hS.nGarbages_lt hv
  have hmod : (c.ja.header.nGarbages (chunkVariation size) + 1) % 0x100000000 =
      c.ja.header.nGarbages v + 1 := by
    rw [hsize]
    omega
  obtain ⟨hS', hk, hn⟩ := hS.useGinfo hv hhand hd hroom hsize
  simp only [c', hmod]
  rcases perform_cases g c (.useGinfo size a.seg a.pos d ((info.head + 1) % g.nGarbagesInASegment)
    (info.nrecs + 1) (c.ja.header.nGarbages v + 1)) with
    ⟨c₁, hrun, hja, hrc, hfails⟩ | ⟨c₁, hrun, hja, hrc, hfails, hentry⟩
  · have hja' : c₁.ja = ginfoSegmentUse g c.ja d a.seg a.pos
      ((info.head + 1) % g.nGarbagesInASegment) (info.nrecs + 1) (c.ja.header.nGarbages v + 1) size :=
      hja
    rw [hrun]
    rw [← hja'] at hS' hk hn
    refine .inl ⟨_, ⟨⟨hS', fun w hw d' hd' => ?_⟩, hk, fun id hid => own_update_hand _ hid, hrc,
      hfails⟩, by simp only [Function.update_self]⟩
    by_cases hdd : d' = d
    · rw [hdd, hn]
      exact Nat.succ_pos _
    · have hsame : c₁.ja.memory d' = c.ja.memory d' := by
        rw [hja']
        exact Function.update_of_ne hdd _ _
      rw [hsame]
      exact hfilled w hw d' hd' hdd
  · rw [hrun]
    exact .inr (.of_entry (e := .useGinfo _ _ _ _ _ _ _) trivial hrc hfails hentry)

/-- **A chunk is recorded** in the first garbage info with room or in a new one. -/
theorem freeChunk_spec {a : Pos} (hG : Good g c.ja L) (hv : v < nVariations)
    (hhand : L.own hand = .chunk a v) (hsize : chunkVariation size = v) :
    (∃ L', Moved g c (freeChunk g c a.seg a.pos size) L L' ∧ L'.own hand = .none) ∨
      Stopped SegmentEntry.Frees c (freeChunk g c a.seg a.pos size) := by
  rw [freeChunk, garbageSegmentFor]
  have hpath := hG.sound.inv.chains.path v hv
  have hlen := hG.sound.length_chain_le hv
  rw [← hsize] at hpath hlen
  have hfuel : (L.chain (chunkVariation size)).length < g.nDataSegments + 1 := by omega
  rcases @findRoom_spec g c.ja _ 0 _ _ hpath hfuel with ⟨p, d, hd, hrun, hroom⟩ | hrun
  · simp only [hrun]
    exact useGinfo_spec hG.sound hv hhand hsize (hsize ▸ hd) hroom
      fun w hw d' hd' _ => hG.filled w hw d' hd'
  · simp only [hrun]
    split_ifs with hfull
    · exact .inr (.of_full rfl rfl)
    · obtain ⟨hlt, hfree⟩ := findFreeSegment_spec hfull
      rw [hsize]
      rcases perform_cases g c (.newGinfo size (findFreeSegment g c.ja.header)
        ((L.chain v).getLastD 0)) with ⟨c₁, hrun₁, hja, hrc, hfails⟩ |
        ⟨c₁, hrun₁, hja, hrc, hfails, hentry⟩
      · simp only [hrun₁]
        obtain ⟨hS₁, hk₁, hzero, hsame⟩ := hG.sound.newGinfo hv hlt hfree hsize
        have hja' : c₁.ja = ginfoSegmentNew c.ja ((L.chain v).getLastD 0)
          (findFreeSegment g c.ja.header) size := hja
        rw [← hja'] at hS₁ hk₁ hzero hsame
        have hfilled : ∀ w < nVariations,
            ∀ d' ∈ Function.update L.chain v (L.chain v ++ [findFreeSegment g c.ja.header]) w,
              d' ≠ findFreeSegment g c.ja.header → 0 < (ginfo (c₁.ja.memory d')).nrecs := by
          intro w hw d' hd' hne
          rw [hsame d' hne]
          refine hG.filled w hw d' ?_
          by_cases hwv : w = v
          · subst hwv
            rw [Function.update_self, List.mem_append, List.mem_singleton] at hd'
            exact hd'.resolve_right hne
          · rwa [Function.update_of_ne hwv] at hd'
        have huse := useGinfo_spec hS₁ hv hhand hsize (d := findFreeSegment g c.ja.header) (by simp)
          (by rw [hzero]; exact g.nGarbagesInASegment_pos) hfilled
        rw [hsize] at huse
        refine huse.imp (fun ⟨L', hmove, hnone⟩ => ⟨L', ?_, hnone⟩) fun h => h.of_fails hfails
        exact ⟨hmove.good, hk₁.trans hmove.keeps fun _ _ => rfl, hmove.own, hmove.rc.trans hrc,
          hmove.fails.trans hfails⟩
      · simp only [hrun₁]
        exact .inr (.of_entry (e := .newGinfo _ _ _) trivial hrc hfails hentry)

/-! ## All places -/

/-- A part of a sequential segment is given back. -/
theorem freeSequential_spec (hG : Good g c.ja L)
    (hhand : L.own hand = .sequential seg pos (computeSequenceAlignedElementSize size)) :
    (∃ L', Moved g c (freeSequential g c seg pos size) L L' ∧ L'.own hand = .none) ∨
      Stopped SegmentEntry.Frees c (freeSequential g c seg pos size) := by
  obtain ⟨hS, hk⟩ := hG.sound.freeSequential hhand
  rw [freeSequential]
  rcases perform_cases g c (.freeSequential size seg pos
    ((c.ja.header.segmentInfos seg + 0x100000000 - computeSequenceAlignedDataSize size) %
      0x100000000)) with ⟨c₁, hrun, hja, hrc, hfails⟩ | ⟨c₁, hrun, hja, hrc, hfails, hentry⟩
  · have hja' : c₁.ja = sequentialSegmentFree c.ja seg pos
      ((c.ja.header.segmentInfos seg + 0x100000000 - computeSequenceAlignedDataSize size) %
        0x100000000) size := hja
    simp only [hrun]
    rw [← hja'] at hS hk
    refine .inl ⟨_, ⟨⟨hS, fun w hw d hd => ?_⟩, hk, fun id hid => own_update_hand _ hid, hrc, hfails⟩,
      by simp only [Function.update_self]⟩
    -- the chains do not have the segment
    have hne : d ≠ seg := by
      rintro rfl
      have hfits := hG.sound.inv.owned.fits hand hand_lt
      rw [hhand] at hfits
      have hlt := hfits.info_lt (show (Place.sequential d _ _).Touches d from rfl)
      have hle := hG.sound.info_chain hw hd
      unfold segEinfo at hlt
      unfold segGinfo at hle
      omega
    have hsame : c₁.ja.memory d = c.ja.memory d := by
      rw [hja', sequentialSegmentFree]
      split_ifs
      · exact Function.update_of_ne hne _ _
      · exact Function.update_of_ne hne _ _
    rw [hsame]
    exact hG.filled w hw d hd
  · simp only [hrun]
    exact .inr (.of_entry (e := .freeSequential _ _ _ _) trivial hrc hfails hentry)

/-- **The place in `hand` is given back.** -/
theorem free_spec (hG : Good g c.ja L) (hhand : L.own hand = place g e) :
    (∃ L', Moved g c (free g c e) L L' ∧ L'.own hand = .none) ∨
      Stopped SegmentEntry.Frees c (free g c e) := by
  rw [free]
  rw [place] at hhand
  cases htiny : etinyP e with
  | true =>
    simp only [htiny, if_true] at hhand ⊢
    exact .inl ⟨L, .refl hG, hhand⟩
  | false =>
    simp only [htiny, Bool.false_eq_true, if_false] at hhand ⊢
    cases hhuge : ehugeP e with
    | true =>
      simp only [hhuge, if_true] at hhand ⊢
      have hfits := hG.sound.inv.owned.fits hand hand_lt
      rw [hhand] at hfits
      obtain ⟨hI, hnone⟩ := hG.sound.inv.dropHuge hhand
      have hS : Sound g c.ja { L with own := Function.update L.own hand .none } :=
        ⟨hI, fun id hid => (own_update_hand _ hid).trans (hG.sound.own id hid), hG.sound.whole⟩
      have hG' : Good g c.ja { L with own := Function.update L.own hand .none } := ⟨hS, hG.filled⟩
      refine (freeHugeLoop_spec hG' fun x hle hlt => ⟨hfits.2.2 x hle hlt, hnone x hle hlt⟩).imp_left ?_
      intro hmove
      refine ⟨_, ⟨hmove.good, ⟨hmove.keeps.einfo, fun id hid x u hu => ?_⟩,
        fun id hid => own_update_hand _ hid, hmove.rc, hmove.fails⟩, by simp only [Function.update_self]⟩
      exact hmove.keeps.places id hid x u (by simpa only [own_update_hand _ hid] using hu)
    | false =>
      simp only [hhuge, Bool.false_eq_true, if_false] at hhand ⊢
      generalize einfoDec e = d at hhand ⊢
      obtain ⟨seg, pos, size⟩ := d
      simp only at hhand ⊢
      split_ifs at hhand ⊢ with hzero hchunk
      · exact .inl ⟨L, .refl hG, hhand⟩
      · have hfits := hG.sound.inv.owned.fits hand hand_lt
        rw [hhand] at hfits
        exact freeChunk_spec hG hfits.1 hhand rfl
      · exact freeSequential_spec hG hhand

end Groonga.Ja
