import Groonga.Vector.Codec

/-!
# What is unpacked of any bytes

Bytes that are no packed vector can end in an error, and a vector has to be as before then. They
can declare lengths that add up to more than 32 bits. The body is written before the footer is
read, so that a footer that is too short leaves bytes of no section in the body; and lengths that
wrap around give sections that are not in the body.
-/

namespace Groonga.Vector

open Ii Lib

/-! ## Reading without a bound -/

/-- A value is read when five bytes are there. -/
theorem grnDecByteCheck_enough {p : List ℕ} (h : 5 ≤ p.length) :
    ∃ v q, grnDecByteCheck p = .ok (v, q) ∧ p.length ≤ q.length + 5 := by
  match p, h with
  | x :: a :: b :: c :: d :: p, _ =>
    rw [grnDecByteCheck.eq_def]
    dsimp only
    split
    · split
      · exact ⟨_, _, rfl, by simp⟩
      · exact ⟨_, _, rfl, by simp⟩
    all_goals exact ⟨_, _, rfl, by simp⟩

section Loops

variable {form : WeightForm} {p q : List ℕ} {lengths : List ℕ} {b capacity n i : ℕ}

/-- The lengths are read without a fault. -/
theorem lengthsLoop_no_fault (hb : 4 ≤ b) (hcapacity : i + n ≤ capacity) :
    lengthsLoop b capacity n i p ≠ .fault := by
  induction n generalizing i p with
  | zero =>
    intro h
    cases h
  | succ n ih =>
    rw [lengthsLoop]
    split
    · intro h
      cases h
    · rename_i hlen
      obtain ⟨v, q, hdec, -⟩ := grnDecByteCheck_enough (p := p) (by omega)
      rw [hdec]
      dsimp only
      rw [if_neg (by omega)]
      have hrest := @ih q (i + 1) (by omega)
      cases hloop : lengthsLoop b capacity n (i + 1) q with
      | fault => exact absurd hloop hrest
      | short =>
        intro h
        cases h
      | done =>
        intro h
        cases h

/-- The places of the array do not matter when they are enough. -/
theorem lengthsLoop_capacity {capacity' : ℕ} (h : i + n ≤ capacity) (h' : i + n ≤ capacity') :
    lengthsLoop b capacity n i p = lengthsLoop b capacity' n i p := by
  induction n generalizing i p with
  | zero => rfl
  | succ n ih =>
    rw [lengthsLoop, lengthsLoop]
    split
    · rfl
    · split
      · rfl
      · rw [if_neg (by omega), if_neg (by omega), ih (by omega) (by omega)]

/-- As many lengths are read as there are. -/
theorem length_of_lengthsLoop (h : lengthsLoop b capacity n i p = .done lengths q) :
    lengths.length = n := by
  induction n generalizing i p lengths with
  | zero =>
    obtain ⟨rfl, -⟩ := Loop.done.inj h
    rfl
  | succ n ih =>
    rw [lengthsLoop] at h
    split at h
    · cases h
    split at h
    · cases h
    split at h
    · cases h
    rename_i length p' _ _
    cases hloop : lengthsLoop b capacity n (i + 1) p' with
    | fault => rw [hloop] at h; cases h
    | short => rw [hloop] at h; cases h
    | done lengths' q' =>
      rw [hloop] at h
      obtain ⟨rfl, rfl⟩ := Loop.done.inj h
      rw [List.length_cons, ih hloop]

/-- What is left of the data is not longer than the data. -/
theorem length_le_of_lengthsLoop (h : lengthsLoop b capacity n i p = .done lengths q) :
    q.length ≤ p.length := by
  induction n generalizing i p lengths with
  | zero =>
    obtain ⟨-, rfl⟩ := Loop.done.inj h
    exact le_rfl
  | succ n ih =>
    rw [lengthsLoop] at h
    split at h
    · cases h
    split at h
    · cases h
    split at h
    · cases h
    rename_i length p' hdec _
    cases hloop : lengthsLoop b capacity n (i + 1) p' with
    | fault => rw [hloop] at h; cases h
    | short => rw [hloop] at h; cases h
    | done lengths' q' =>
      rw [hloop] at h
      obtain ⟨rfl, rfl⟩ := Loop.done.inj h
      exact Nat.le_trans (ih hloop) (length_le_of_grnDecByteCheck hdec)

theorem readWeight_enough (h : 5 ≤ p.length) :
    ∃ w q, readWeight form p = some (w, q) ∧ p.length ≤ q.length + 5 := by
  cases form with
  | integer =>
    obtain ⟨v, q, hdec, hlen⟩ := grnDecByteCheck_enough h
    exact ⟨_, q, by rw [readWeight, hdec], hlen⟩
  | float32 =>
    rcases p with - | ⟨x, - | ⟨a, - | ⟨b, - | ⟨c, - | ⟨d, p⟩⟩⟩⟩⟩ <;> simp at h
    exact ⟨_, _, rfl, by simp⟩
  | bfloat16 =>
    rcases p with - | ⟨x, - | ⟨a, - | ⟨b, - | ⟨c, - | ⟨d, p⟩⟩⟩⟩⟩ <;> simp at h
    exact ⟨_, _, rfl, by simp⟩

/-- The footer is read without a fault. -/
theorem footerLoop_no_fault (hb : 9 ≤ b) : footerLoop form b n p ≠ .fault := by
  induction n generalizing p with
  | zero =>
    intro h
    cases h
  | succ n ih =>
    rw [footerLoop]
    split
    · intro h
      cases h
    · rename_i hlen
      obtain ⟨w, q, hweight, hq⟩ := @readWeight_enough form p (by omega)
      obtain ⟨d, r, hdomain, -⟩ := grnDecByteCheck_enough (p := q) (by omega)
      rw [hweight]
      dsimp only
      rw [hdomain]
      dsimp only
      have hrest := @ih r
      cases hloop : footerLoop form b n r with
      | fault => exact absurd hloop hrest
      | short =>
        intro h
        cases h
      | done =>
        intro h
        cases h

theorem length_of_footerLoop {pairs : List (ℕ × ℕ)}
    (h : footerLoop form b n p = .done pairs q) : pairs.length = n := by
  induction n generalizing p pairs with
  | zero =>
    obtain ⟨rfl, -⟩ := Loop.done.inj h
    rfl
  | succ n ih =>
    rw [footerLoop] at h
    split at h
    · cases h
    split at h
    · cases h
    split at h
    · cases h
    rename_i domain p' _
    cases hloop : footerLoop form b n p' with
    | fault => rw [hloop] at h; cases h
    | short => rw [hloop] at h; cases h
    | done pairs' q' =>
      rw [hloop] at h
      obtain ⟨rfl, rfl⟩ := Loop.done.inj h
      rw [List.length_cons, ih hloop]

end Loops

/-! ## New sections -/

section NewSections

variable {start : ℕ} {lengths : List ℕ} {pairs : List (ℕ × ℕ)}

/-- New sections are in the bytes that their lengths add up to. -/
theorem newSections_inside {s : Section} (hs : s ∈ newSections start lengths pairs) :
    s.offset + s.length ≤ start + lengths.sum := by
  induction lengths generalizing start pairs with
  | nil => cases hs
  | cons length lengths ih =>
    cases pairs with
    | nil => cases hs
    | cons pair pairs =>
      rw [List.sum_cons]
      rcases List.mem_cons.mp hs with rfl | hs
      · have hmod := Nat.mod_le start (2 ^ 32)
        dsimp only
        omega
      · have hle := ih hs
        omega

/-- A section reaches over 32 bits when the lengths do. -/
theorem exists_newSections_over (hp : pairs.length = lengths.length) (hstart : start < 2 ^ 32)
    (hover : 2 ^ 32 ≤ start + lengths.sum) :
    ∃ s ∈ newSections start lengths pairs, 2 ^ 32 ≤ s.offset + s.length := by
  induction lengths generalizing start pairs with
  | nil =>
    rw [List.sum_nil] at hover
    omega
  | cons length lengths ih =>
    obtain ⟨⟨weight, domain⟩, pairs, rfl⟩ := List.exists_cons_of_length_eq_add_one hp
    rw [List.sum_cons] at hover
    rcases Nat.lt_or_ge (start + length) (2 ^ 32) with hlt | hge
    · obtain ⟨s, hs, hle⟩ := ih (Nat.succ.inj hp) hlt (by omega)
      exact ⟨s, List.mem_cons_of_mem _ hs, hle⟩
    · refine ⟨_, List.mem_cons_self .., ?_⟩
      rw [Nat.mod_eq_of_lt hstart]
      exact hge

end NewSections

/-! ## Errors -/

/-- An element that is added later has exactly its bytes. -/
def AddsItsBytes (v : GrnVector) : Prop :=
  ∀ str weight domain, v.body.length + str.length < 2 ^ 32 →
    ∃ s v', v.addElementFloat str weight domain = some v' ∧ v'.sections = v.sections ++ [s] ∧
      v'.body = v.body ++ str ∧ v'.element s = (str.length, str, weight, domain)

/-- What unpacking has to do: an error leaves the vector as it was, so that an element that is added
later has its own bytes, and otherwise every new section is in the body. -/
def Harmless (w : GrnVector) : Outcome → Prop
  | .fault => False
  | .error w' => w'.sections = w.sections ∧ w'.body = w.body ∧ AddsItsBytes w'
  | .ok w' _ => ∃ new, w'.sections = w.sections ++ new ∧
      ∀ s ∈ new, s.offset + s.length ≤ w'.body.length

/-- The weights and the domains behind the bytes of the elements are there, but not all of them. -/
def FooterShort (form : WeightForm) (behind n : ℕ) (p : List ℕ) : Prop :=
  behind < p.length ∧ footerLoop form behind n p = .short

/-- When the declared lengths are there and the bytes that they add up to in 32 bits: they add up to
nothing when the footer is short, and to less than 32 bits when it is not. -/
def Benign (form : WeightForm) (places : ℕ) (data behind : List ℕ) : Prop :=
  ∀ n p lengths q, grnDecByteCheck (data ++ behind) = .ok (n, p) →
    lengthsLoop behind.length (places + n) n places p = .done lengths q →
    behind.length + lengths.sum % 2 ^ 32 ≤ q.length →
    (FooterShort form behind.length n (q.drop (lengths.sum % 2 ^ 32)) →
      lengths.sum % 2 ^ 32 = 0) ∧
    (¬FooterShort form behind.length n (q.drop (lengths.sum % 2 ^ 32)) → lengths.sum < 2 ^ 32)

section Errors

variable {w : GrnVector} {data behind p : List ℕ} {form : WeightForm} {n capacity : ℕ}

/-- The place behind the last section is the end of the body. -/
theorem nextOffset_of_contiguous {e : ℕ} {ss : List Section} (h : Contiguous 0 ss e)
    (hlt : e < 2 ^ 32) : nextOffset ss = e := by
  rcases List.eq_nil_or_concat ss with rfl | ⟨rest, s, rfl⟩
  · exact h
  · rw [List.concat_eq_append, contiguous_append] at h
    obtain ⟨m, -, hs, hend⟩ := h
    have hlast : s.offset + s.length = e := by rwa [hs]
    rw [nextOffset, List.concat_eq_append, List.getLast?_append, List.getLast?_singleton]
    dsimp only [Option.some_or]
    rw [hlast, Nat.mod_eq_of_lt hlt]

/-- **An element is added to a vector whose sections are its body.** -/
theorem addsItsBytes (hw : w.Roomy) (hcontiguous : Contiguous 0 w.sections w.body.length) :
    AddsItsBytes w := by
  intro str weight domain hlt
  have hoffset := nextOffset_of_contiguous hcontiguous (by omega)
  have hroom : ¬(if w.sections.length % sSectionsUnit = 0 then w.sections.length + sSectionsUnit
      else w.capacity) ≤ w.sections.length := by
    rw [GrnVector.Roomy] at hw
    rw [sSectionsUnit]
    split
    · omega
    · omega
  have hlength : (w.body.length + str.length + 2 ^ 32 - w.body.length) % 2 ^ 32 = str.length := by
    omega
  refine ⟨⟨w.body.length, str.length, weight, domain⟩, ⟨w.sections ++
    [⟨w.body.length, str.length, weight, domain⟩], if w.sections.length % sSectionsUnit = 0 then
      w.sections.length + sSectionsUnit else w.capacity, w.body ++ str⟩, ?_, rfl, rfl, ?_⟩
  · rw [GrnVector.addElementFloat, GrnVector.delimit]
    dsimp only
    rw [if_neg hroom, hoffset, List.length_append, hlength]
  · rw [GrnVector.element]
    dsimp only
    rw [List.drop_left, List.take_length]

/-- **An error or new sections.** -/
theorem unpackSections_harmless_iff
    (hcontiguous : Contiguous 0 w.sections w.body.length) (hbehind : 9 ≤ behind.length)
    (hbody : w.body.length + data.length < 2 ^ 32)
    (hcapacity : (w.sections.length + n + 0xff) / 0x100 * 0x100 ≤ capacity)
    (hp : p.length ≤ data.length + behind.length) :
    Harmless w ({ w with capacity := capacity }.unpackSections data behind form n p) ↔
      ∀ lengths q,
        lengthsLoop behind.length (w.sections.length + n) n w.sections.length p =
          .done lengths q →
        behind.length + lengths.sum % 2 ^ 32 ≤ q.length →
        (FooterShort form behind.length n (q.drop (lengths.sum % 2 ^ 32)) →
          lengths.sum % 2 ^ 32 = 0) ∧
        (¬FooterShort form behind.length n (q.drop (lengths.sum % 2 ^ 32)) →
          lengths.sum < 2 ^ 32) := by
  have hroomy : ∀ body, GrnVector.Roomy ⟨w.sections, capacity, body⟩ := by
    intro body
    exact Nat.le_trans (Nat.mul_le_mul_right _ (Nat.div_le_div_right (Nat.add_le_add_right
      (Nat.le_add_right _ _) _))) hcapacity
  have hunchanged : Harmless w (.error ⟨w.sections, capacity, w.body⟩) :=
    ⟨rfl, rfl, addsItsBytes (hroomy _) hcontiguous⟩
  have hplaces : lengthsLoop behind.length capacity n w.sections.length p =
      lengthsLoop behind.length (w.sections.length + n) n w.sections.length p :=
    lengthsLoop_capacity (by omega) le_rfl
  rw [GrnVector.unpackSections]
  dsimp only
  rw [hplaces]
  cases hloop : lengthsLoop behind.length (w.sections.length + n) n w.sections.length p with
  | fault => exact absurd hloop (lengthsLoop_no_fault (by omega) le_rfl)
  | short =>
    refine iff_of_true hunchanged fun lengths q h => ?_
    cases h
  | done lengths q =>
    have hq := length_le_of_lengthsLoop hloop
    have hn := length_of_lengthsLoop hloop
    dsimp only
    by_cases hshort : q.length < behind.length + lengths.sum % 2 ^ 32
    · rw [if_pos hshort]
      refine iff_of_true hunchanged fun lengths' q' h hle => ?_
      obtain ⟨rfl, rfl⟩ := Loop.done.inj h
      omega
    rw [if_neg hshort]
    have hiff : (∀ lengths' q', Loop.done lengths q = .done lengths' q' →
        behind.length + lengths'.sum % 2 ^ 32 ≤ q'.length →
        (FooterShort form behind.length n (q'.drop (lengths'.sum % 2 ^ 32)) →
          lengths'.sum % 2 ^ 32 = 0) ∧
        (¬FooterShort form behind.length n (q'.drop (lengths'.sum % 2 ^ 32)) →
          lengths'.sum < 2 ^ 32)) ↔
        (FooterShort form behind.length n (q.drop (lengths.sum % 2 ^ 32)) →
          lengths.sum % 2 ^ 32 = 0) ∧
        (¬FooterShort form behind.length n (q.drop (lengths.sum % 2 ^ 32)) →
          lengths.sum < 2 ^ 32) := by
      constructor
      · exact fun h => h lengths q rfl (by omega)
      · intro h lengths' q' heq _
        obtain ⟨rfl, rfl⟩ := Loop.done.inj heq
        exact h
    rw [hiff]
    generalize hrest : q.drop (lengths.sum % 2 ^ 32) = rest
    have htake : (q.take (lengths.sum % 2 ^ 32)).length = lengths.sum % 2 ^ 32 := by
      rw [List.length_take]
      omega
    -- what the sections are when the footer is read
    have hok : ∀ pairs : List (ℕ × ℕ), pairs.length = n → ∀ used,
        Harmless w (.ok ⟨w.sections ++ newSections w.body.length lengths pairs, capacity,
          w.body ++ q.take (lengths.sum % 2 ^ 32)⟩ used) ↔ lengths.sum < 2 ^ 32 := by
      intro pairs hpairs used
      constructor
      · rintro ⟨new, hnew, hinside⟩
        obtain rfl := List.append_cancel_left hnew
        by_contra hover
        obtain ⟨s, hs, hle⟩ := @exists_newSections_over w.body.length lengths pairs
          (hpairs.trans hn.symm) (by omega) (by omega)
        have hin := hinside s hs
        rw [List.length_append, htake] at hin
        omega
      · intro hlt
        refine ⟨_, rfl, fun s hs => ?_⟩
        have hle := newSections_inside hs
        rw [List.length_append, htake, Nat.mod_eq_of_lt hlt]
        exact hle
    by_cases hleft : behind.length < rest.length
    · rw [if_pos hleft]
      cases hfooter : footerLoop form behind.length n rest with
      | fault => exact absurd hfooter (footerLoop_no_fault hbehind)
      | short =>
        have hfooterShort : FooterShort form behind.length n rest := ⟨hleft, hfooter⟩
        constructor
        · rintro ⟨-, hsame, -⟩
          have hlen := congrArg List.length hsame
          rw [List.length_append, htake] at hlen
          exact ⟨fun _ => by omega, fun h => absurd hfooterShort h⟩
        · rintro ⟨hzero, -⟩
          have hnil : q.take (lengths.sum % 2 ^ 32) = [] := by
            rw [hzero hfooterShort, List.take_zero]
          rw [hnil, List.append_nil]
          exact hunchanged
      | done pairs r =>
        have hnot : ¬FooterShort form behind.length n rest := by
          rintro ⟨-, h⟩
          rw [hfooter] at h
          cases h
        rw [hok pairs (length_of_footerLoop hfooter)]
        exact ⟨fun h => ⟨fun hs => absurd hs hnot, fun _ => h⟩, fun h => h.2 hnot⟩
    · rw [if_neg hleft]
      have hnot : ¬FooterShort form behind.length n rest := fun h => hleft h.1
      dsimp only
      rw [hok _ List.length_replicate]
      exact ⟨fun h => ⟨fun hs => absurd hs hnot, fun _ => h⟩, fun h => h.2 hnot⟩

/-- **Unpacking of any bytes.** -/
theorem unpack_harmless_iff (hroomy : w.Roomy)
    (hcontiguous : Contiguous 0 w.sections w.body.length) (hbehind : 9 ≤ behind.length)
    (hbody : w.body.length + data.length < 2 ^ 32)
    (hcount : ∀ n p, grnDecByteCheck (data ++ behind) = .ok (n, p) →
      w.sections.length + n + 0xff < 2 ^ 32) :
    Harmless w (w.unpack data behind form) ↔ Benign form w.sections.length data behind := by
  obtain ⟨n, p, hheader, -⟩ := grnDecByteCheck_enough (p := data ++ behind)
    (by rw [List.length_append]; omega)
  have hp := length_le_of_grnDecByteCheck hheader
  rw [List.length_append] at hp
  obtain ⟨capacity, hcapacity, hunpack⟩ := @unpack_eq w n data behind p form hroomy
    (hcount n p hheader) hheader
  rw [hunpack, unpackSections_harmless_iff hcontiguous hbehind hbody hcapacity hp, Benign]
  constructor
  · intro h n' p' lengths q hheader' hloop hle
    obtain ⟨rfl, rfl⟩ := Prod.mk.inj (Except.ok.inj (hheader.symm.trans hheader'))
    exact h lengths q hloop hle
  · intro h lengths q hloop hle
    exact h n p lengths q hheader hloop hle

end Errors

/-- **The codec of vectors of texts.** A slice comes back if and only if the body starts with its
bytes and what is left of the body with the footer encodes its weights and domains. Other bytes do
no harm if and only if the lengths that they declare do not wrap around, or nothing is written
before a footer that is too short. -/
theorem vector_codec (form : WeightForm) (w : GrnVector) (behind : List ℕ) (hw : w.Valid)
    (hroomy : w.Roomy) (hbytes : ∀ b ∈ behind, b < 0x100) :
    (∀ v : GrnVector, ∀ offset n, v.Valid → v.IntegerWeights →
      offset + n ≤ v.sections.length → w.sections.length + n + 0xff < 2 ^ 32 →
      w.body.length + (v.sliceBytes offset n).length < 2 ^ 32 →
      (ComesBack v offset n form w behind ↔ Covers v offset n form)) ∧
    (∀ data : List ℕ, 9 ≤ behind.length → w.body.length + data.length < 2 ^ 32 →
      (∀ n p, grnDecByteCheck (data ++ behind) = .ok (n, p) →
        w.sections.length + n + 0xff < 2 ^ 32) →
      (Harmless w (w.unpack data behind form) ↔ Benign form w.sections.length data behind)) :=
  ⟨fun _ _ _ hv hweights hin hcount hbody =>
      comesBack_iff hv hweights hroomy hbytes hin hcount hbody,
    fun _ hbehind hbody hcount =>
      unpack_harmless_iff hroomy hw.contiguous hbehind hbody hcount⟩

/-- Two elements, the second one with the weight 1. -/
def twoElements : GrnVector := ⟨[⟨0, 1, 0, 0⟩, ⟨1, 2, 0x3f800000, 5⟩], 256, [7, 8, 9]⟩

/-- The lengths 1 and 0, one byte and the weight and the domain of one of two elements. -/
def footerOfOne : List ℕ := [2, 1, 0, 0x61, 0, 0]

/-- The codec for two elements, and for a footer that is too short. -/
theorem vector_codec_two :
    (ComesBack twoElements 0 2 .integer twoElements (List.replicate 9 0) ↔
        Covers twoElements 0 2 .integer) ∧
      (Harmless twoElements (twoElements.unpack footerOfOne (List.replicate 9 0) .integer) ↔
        Benign .integer twoElements.sections.length footerOfOne (List.replicate 9 0)) := by
  have hvalid : twoElements.Valid :=
    ⟨by simp [twoElements, Contiguous], by decide, by decide, by decide⟩
  have hweights : twoElements.IntegerWeights := by
    intro s hs
    rcases List.mem_cons.mp hs with rfl | hs
    · exact ⟨0, by decide, rfl⟩
    · obtain rfl := List.mem_singleton.mp hs
      exact ⟨1, by decide, rfl⟩
  obtain ⟨hback, hharm⟩ := vector_codec .integer twoElements (List.replicate 9 0) hvalid
    (by rw [GrnVector.Roomy]; decide) (by decide)
  refine ⟨hback twoElements 0 2 hvalid hweights (by decide) (by decide) (by decide),
    hharm footerOfOne (by decide) (by decide) fun n p h => ?_⟩
  have hn : n = 2 := (congrArg Prod.fst (Except.ok.inj h)).symm
  rw [hn]
  decide

/-- A footer that is too short leaves a byte of no element in the body. -/
theorem vector_codec_not_harmless :
    ¬Harmless ⟨[], 0, []⟩
      (GrnVector.unpack ⟨[], 0, []⟩ footerOfOne (List.replicate 9 0) .integer) := by
  have hunpack : GrnVector.unpack ⟨[], 0, []⟩ footerOfOne (List.replicate 9 0) .integer =
      .error ⟨[], 256, [0x61]⟩ := by decide
  rw [hunpack]
  rintro ⟨-, hbody, -⟩
  cases hbody

end Groonga.Vector
