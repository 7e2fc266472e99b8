import Groonga.Vector.Basic
import Mathlib

/-!
# What is packed comes back

The header of a slice is read as the lengths of its elements. Then the first bytes of the body are
taken for theirs, and the rest of the body with the footer for the footer: the elements come back
if and only if the body starts with their bytes and what is left encodes their weights and domains.
-/

namespace Groonga.Vector

open Ii Lib

/-! ## Well formed vectors -/

/-- Sections that are one behind the other from `o` to `e`. -/
def Contiguous : ℕ → List Section → ℕ → Prop
  | o, [], e => o = e
  | o, s :: rest, e => s.offset = o ∧ Contiguous (o + s.length) rest e

/-- The array of sections has the places of all units that are begun. -/
def GrnVector.Roomy (v : GrnVector) : Prop :=
  (v.sections.length + 0xff) / 0x100 * 0x100 ≤ v.capacity

/-- A vector whose sections are its body. -/
structure GrnVector.Valid (v : GrnVector) : Prop where
  contiguous : Contiguous 0 v.sections v.body.length
  bytes : ∀ b ∈ v.body, b < 0x100
  short : v.body.length < 2 ^ 32
  domains : ∀ s ∈ v.sections, s.domain < 2 ^ 32

/-- The weights of a vector are integers below `2 ^ 24`. -/
def GrnVector.IntegerWeights (v : GrnVector) : Prop :=
  ∀ s ∈ v.sections, ∃ k < 2 ^ 24, s.weight = Binary32.ofNat k

section Contiguous

variable {o e : ℕ} {ss : List Section}

theorem Contiguous.le (h : Contiguous o ss e) : o ≤ e := by
  induction ss generalizing o with
  | nil => exact Nat.le_of_eq h
  | cons s rest ih => exact Nat.le_trans (Nat.le_add_right _ _) (ih h.2)

theorem contiguous_append {ss' : List Section} :
    Contiguous o (ss ++ ss') e ↔ ∃ m, Contiguous o ss m ∧ Contiguous m ss' e := by
  induction ss generalizing o with
  | nil => exact ⟨fun h => ⟨o, rfl, h⟩, fun ⟨m, hm, h⟩ => by rwa [show o = m from hm]⟩
  | cons s rest ih =>
    rw [List.cons_append, Contiguous, ih]
    exact ⟨fun ⟨h, m, hm, h'⟩ => ⟨m, ⟨h, hm⟩, h'⟩, fun ⟨m, ⟨h, hm⟩, h'⟩ => ⟨h, m, hm, h'⟩⟩

theorem Contiguous.sum (h : Contiguous o ss e) : o + (ss.map (·.length)).sum = e := by
  induction ss generalizing o with
  | nil => exact h
  | cons s rest ih => rw [List.map_cons, List.sum_cons, ← Nat.add_assoc, ih h.2]

end Contiguous

/-! ## Elements as lists -/

/-- Elements with lengths, that are cut from bytes, and weights and domains. -/
def elements : List ℕ → List ℕ → List (ℕ × ℕ) → List (ℕ × List ℕ × ℕ × ℕ)
  | length :: lengths, bytes, (weight, domain) :: pairs =>
    (length, bytes.take length, weight, domain) :: elements lengths (bytes.drop length) pairs
  | _, _, _ => []

section Elements

variable {lengths bytes bytes' : List ℕ} {pairs pairs' : List (ℕ × ℕ)}

/-- Elements determine the bytes, the weights and the domains. -/
theorem elements_inj (hp : pairs.length = lengths.length) (hp' : pairs'.length = lengths.length)
    (hb : bytes.length = lengths.sum) (hb' : bytes'.length = lengths.sum) :
    elements lengths bytes pairs = elements lengths bytes' pairs' ↔
      bytes = bytes' ∧ pairs = pairs' := by
  induction lengths generalizing bytes bytes' pairs pairs' with
  | nil =>
    refine iff_of_true rfl ⟨?_, ?_⟩
    · rw [List.eq_nil_of_length_eq_zero hb, List.eq_nil_of_length_eq_zero hb']
    · rw [List.eq_nil_of_length_eq_zero hp, List.eq_nil_of_length_eq_zero hp']
  | cons length lengths ih =>
    obtain ⟨⟨weight, domain⟩, pairs, rfl⟩ := List.exists_cons_of_length_eq_add_one hp
    obtain ⟨⟨weight', domain'⟩, pairs', rfl⟩ := List.exists_cons_of_length_eq_add_one hp'
    rw [List.sum_cons] at hb hb'
    have hih := @ih (bytes.drop length) (bytes'.drop length) pairs pairs'
      (Nat.succ.inj hp) (Nat.succ.inj hp') (by rw [List.length_drop]; omega)
      (by rw [List.length_drop]; omega)
    rw [elements, elements, List.cons.injEq, hih]
    constructor
    · rintro ⟨hhead, hdrop, rfl⟩
      simp only [Prod.mk.injEq, true_and] at hhead
      obtain ⟨htake, rfl, rfl⟩ := hhead
      exact ⟨by rw [← List.take_append_drop length bytes, htake, hdrop, List.take_append_drop], rfl⟩
    · rintro ⟨rfl, hpairs⟩
      obtain ⟨hpair, rfl⟩ := List.cons.inj hpairs
      obtain ⟨rfl, rfl⟩ := Prod.mk.inj hpair
      exact ⟨rfl, rfl, rfl⟩

/-- The elements of contiguous sections. -/
theorem elements_of_contiguous {v : GrnVector} {o e : ℕ} {ss : List Section}
    (h : Contiguous o ss e) :
    ss.map v.element =
      elements (ss.map (·.length)) ((v.body.drop o).take (e - o))
        (ss.map fun s => (s.weight, s.domain)) := by
  induction ss generalizing o with
  | nil => rfl
  | cons s rest ih =>
    obtain ⟨rfl, hrest⟩ := h
    have hle := hrest.le
    rw [List.map_cons, List.map_cons, List.map_cons, elements, ih hrest, GrnVector.element,
      List.take_take, Nat.min_eq_left (by omega), List.drop_take, List.drop_drop]
    congr 3
    omega

/-- The elements of new sections. -/
theorem elements_of_newSections {v : GrnVector} {start : ℕ} (hp : pairs.length = lengths.length)
    (hlt : start + lengths.sum < 2 ^ 32) (hbody : v.body.length = start + lengths.sum) :
    (newSections start lengths pairs).map v.element =
      elements lengths (v.body.drop start) pairs := by
  induction lengths generalizing start pairs with
  | nil => rfl
  | cons length lengths ih =>
    obtain ⟨⟨weight, domain⟩, pairs, rfl⟩ := List.exists_cons_of_length_eq_add_one hp
    rw [List.sum_cons] at hlt hbody
    rw [newSections, elements, List.map_cons, ih (Nat.succ.inj hp) (by omega) (by omega),
      GrnVector.element, List.drop_drop, Nat.mod_eq_of_lt (by omega)]

end Elements

/-! ## What footers encode -/

/-- The bytes of a weight in a footer. -/
def IsWeightCode : WeightForm → ℕ → List ℕ → Prop
  | .integer, weight, e => ∃ k < 2 ^ 32, IsByteCode k e ∧ weight = Binary32.ofNat k
  | .float32, weight, e => ∃ a b c d, e = [a, b, c, d] ∧
      weight = a + b * 0x100 + c * 0x10000 + d * 0x1000000
  | .bfloat16, weight, e => ∃ a b, e = [a, b] ∧ weight = (a + b * 0x100) * 2 ^ 16

/-- The bytes of a footer with weights and domains. -/
inductive IsFooter (form : WeightForm) : List ℕ → List (ℕ × ℕ) → Prop
  | nil : IsFooter form [] []
  | cons {weight domain : ℕ} {e e' rest : List ℕ} {pairs : List (ℕ × ℕ)}
    (hweight : IsWeightCode form weight e) (hdomain : IsByteCode domain e')
    (hlt : domain < 2 ^ 32) (h : IsFooter form rest pairs) :
    IsFooter form (e ++ (e' ++ rest)) ((weight, domain) :: pairs)

section Footer

variable {form : WeightForm} {p q rest : List ℕ} {weight : ℕ} {pairs : List (ℕ × ℕ)}

theorem IsByteCode.ne_nil {v : ℕ} {e : List ℕ} (h : IsByteCode v e) : e ≠ [] := by
  rcases h with rfl | ⟨a, b, c, d, rfl, -⟩
  · exact grnBEnc_ne_nil v
  · exact List.cons_ne_nil _ _

theorem IsWeightCode.ne_nil {e : List ℕ} (h : IsWeightCode form weight e) : e ≠ [] := by
  cases form with
  | integer =>
    obtain ⟨k, -, hk, -⟩ := h
    exact IsByteCode.ne_nil hk
  | float32 =>
    obtain ⟨a, b, c, d, rfl, -⟩ := h
    exact List.cons_ne_nil _ _
  | bfloat16 =>
    obtain ⟨a, b, rfl, -⟩ := h
    exact List.cons_ne_nil _ _

theorem readWeight_of_isWeightCode {e : List ℕ} (h : IsWeightCode form weight e) (rest : List ℕ) :
    readWeight form (e ++ rest) = some (weight, rest) := by
  cases form with
  | integer =>
    obtain ⟨k, hlt, hk, rfl⟩ := h
    rw [readWeight, grnDecByteCheck_of_isByteCode hk hlt]
  | float32 =>
    obtain ⟨a, b, c, d, rfl, rfl⟩ := h
    rfl
  | bfloat16 =>
    obtain ⟨a, b, rfl, rfl⟩ := h
    rfl

theorem isWeightCode_of_readWeight (hbytes : ∀ b ∈ p, b < 0x100)
    (h : readWeight form p = some (weight, q)) :
    ∃ e, IsWeightCode form weight e ∧ p = e ++ q := by
  cases form with
  | integer =>
    rw [readWeight] at h
    split at h
    · cases h
    · rename_i k p' hdec
      obtain ⟨rfl, rfl⟩ := Prod.mk.inj (Option.some.inj h)
      obtain ⟨e, he, hp, hlt⟩ := isByteCode_of_grnDecByteCheck hbytes hdec
      exact ⟨e, ⟨k, hlt, he, rfl⟩, hp⟩
  | float32 =>
    rw [readWeight.eq_def] at h
    split at h
    · cases ‹WeightForm.float32 = WeightForm.integer›
    · obtain ⟨rfl, rfl⟩ := Prod.mk.inj (Option.some.inj h)
      exact ⟨_, ⟨_, _, _, _, rfl, rfl⟩, rfl⟩
    · cases ‹WeightForm.float32 = WeightForm.bfloat16›
    · cases h
  | bfloat16 =>
    rw [readWeight.eq_def] at h
    split at h
    · cases ‹WeightForm.bfloat16 = WeightForm.integer›
    · cases ‹WeightForm.bfloat16 = WeightForm.float32›
    · obtain ⟨rfl, rfl⟩ := Prod.mk.inj (Option.some.inj h)
      exact ⟨_, ⟨_, _, rfl, rfl⟩, rfl⟩
    · cases h

/-- **A footer is read.** -/
theorem footerLoop_of_isFooter (h : IsFooter form p pairs) (behind : List ℕ) :
    footerLoop form behind.length pairs.length (p ++ behind) = .done pairs behind := by
  induction h with
  | nil => rfl
  | @cons weight domain e e' rest pairs hweight hdomain hlt _ ih =>
    have hpos := List.length_pos_of_ne_nil hweight.ne_nil
    have hlen : ¬(e ++ (e' ++ rest) ++ behind).length ≤ behind.length := by
      simp only [List.length_append]
      omega
    rw [List.length_cons, footerLoop, if_neg hlen, List.append_assoc,
      readWeight_of_isWeightCode hweight]
    dsimp only
    rw [List.append_assoc, grnDecByteCheck_of_isByteCode hdomain hlt]
    dsimp only
    rw [ih]
    rfl

/-- **Nothing but a footer is read.** -/
theorem isFooter_of_footerLoop {behind n : ℕ} (hbytes : ∀ b ∈ p, b < 0x100)
    (h : footerLoop form behind n p = .done pairs q) :
    ∃ e, IsFooter form e pairs ∧ p = e ++ q ∧ pairs.length = n := by
  induction n generalizing p pairs with
  | zero =>
    obtain ⟨rfl, rfl⟩ := Loop.done.inj h
    exact ⟨[], .nil, rfl, rfl⟩
  | succ n ih =>
    rw [footerLoop] at h
    split at h
    · cases h
    split at h
    · cases h
    rename_i weight p₁ hweight
    obtain ⟨e, he, rfl⟩ := isWeightCode_of_readWeight hbytes hweight
    split at h
    · cases h
    rename_i domain p₂ hdomain
    have hbytes₁ : ∀ b ∈ p₁, b < 0x100 := fun b hb => hbytes b (List.mem_append_right _ hb)
    obtain ⟨e', he', rfl, hlt⟩ := isByteCode_of_grnDecByteCheck hbytes₁ hdomain
    cases hloop : footerLoop form behind n p₂ with
    | fault => rw [hloop] at h; cases h
    | short => rw [hloop] at h; cases h
    | done pairs' q' =>
      rw [hloop] at h
      obtain ⟨rfl, rfl⟩ := Loop.done.inj h
      obtain ⟨rest, hrest, rfl, hn⟩ :=
        ih (fun b hb => hbytes₁ b (List.mem_append_right _ hb)) hloop
      exact ⟨_, .cons he he' hlt hrest, by simp only [List.append_assoc], by
        rw [List.length_cons, hn]⟩

end Footer

/-! ## What is read of a header -/

section Header

variable {w : GrnVector} {n : ℕ} {data behind p lengths rest : List ℕ} {form : WeightForm}

/-- The lengths of a header are read. -/
theorem lengthsLoop_grnEncByte {b capacity i : ℕ} (hlt : ∀ l ∈ lengths, l < 2 ^ 32)
    (hbehind : b ≤ rest.length) (hcapacity : i + lengths.length ≤ capacity) :
    lengthsLoop b capacity lengths.length i (grnEncByte lengths ++ rest) = .done lengths rest := by
  induction lengths generalizing i with
  | nil => rfl
  | cons l lengths ih =>
    have hpos := length_grnBEnc_pos l
    have hlen : ¬(grnEncByte (l :: lengths) ++ rest).length ≤ b := by
      rw [grnEncByte_cons]
      simp only [List.length_append]
      omega
    rw [List.length_cons] at hcapacity ⊢
    rw [lengthsLoop, if_neg hlen, grnEncByte_cons, List.append_assoc,
      grnDecByteCheck_grnBEnc (hlt l (List.mem_cons_self ..))]
    dsimp only
    rw [if_neg (by omega), ih (fun l' hl' => hlt l' (List.mem_cons_of_mem _ hl')) (by omega)]
    rfl

/-- The array of sections has the places of all units with the new ones. -/
theorem grownCapacity_spec (hw : w.Roomy) (hcount : w.sections.length + n + 0xff < 2 ^ 32) :
    match grownCapacity w.sections.length n with
    | none => (w.sections.length + n + 0xff) / 0x100 * 0x100 ≤ w.capacity
    | some 0 => False
    | some capacity => (w.sections.length + n + 0xff) / 0x100 * 0x100 ≤ capacity := by
  rw [GrnVector.Roomy] at hw
  rw [grownCapacity, sSectionsUnit, Nat.mod_eq_of_lt (by omega), Nat.mod_eq_of_lt (by omega)]
  by_cases hsame : (w.sections.length + (0x100 - 1)) / 0x100 =
      (w.sections.length + n + (0x100 - 1)) / 0x100
  · rw [if_neg (not_not.mpr hsame)]
    exact hsame ▸ hw
  · rw [if_pos hsame]
    generalize hcapacity : (w.sections.length + n + (0x100 - 1)) / 0x100 * 0x100 = capacity
    cases capacity with
    | zero => omega
    | succ capacity => exact Nat.le_refl _

/-- **The array grows, then the rest is read.** -/
theorem unpack_eq (hw : w.Roomy) (hcount : w.sections.length + n + 0xff < 2 ^ 32)
    (hheader : grnDecByteCheck (data ++ behind) = .ok (n, p)) :
    ∃ capacity, (w.sections.length + n + 0xff) / 0x100 * 0x100 ≤ capacity ∧
      w.unpack data behind form =
        { w with capacity := capacity }.unpackSections data behind form n p := by
  have hgrown := grownCapacity_spec hw hcount
  rw [GrnVector.unpack, hheader]
  dsimp only
  revert hgrown
  rcases grownCapacity w.sections.length n with - | _ | capacity
  · exact fun hgrown => ⟨w.capacity, hgrown, rfl⟩
  · exact fun hgrown => hgrown.elim
  · exact fun hgrown => ⟨capacity + 1, hgrown, rfl⟩

end Header

/-! ## A slice comes back -/

/-- The bytes of a slice. -/
def GrnVector.sliceBytes (v : GrnVector) (offset n : ℕ) : List ℕ :=
  (v.slice offset n).flatMap fun s => (v.body.drop s.offset).take s.length

/-- What is packed of a slice is added to `w`, and nothing else is used. -/
def ComesBack (v : GrnVector) (offset n : ℕ) (form : WeightForm) (w : GrnVector)
    (behind : List ℕ) : Prop :=
  ∃ header body footer w', v.pack offset n form = some (header, body, footer) ∧
    w.unpack (header ++ body ++ footer) behind form =
      .ok w' (header ++ body ++ footer).length ∧
    ∃ new extra, w'.sections = w.sections ++ new ∧ w'.body = w.body ++ extra ∧
      new.map w'.element = (v.slice offset n).map v.element

/-- The body starts with the bytes of a slice, and what is left of it with the footer is nothing or
encodes the weights and the domains of the slice. -/
def Covers (v : GrnVector) (offset n : ℕ) (form : WeightForm) : Prop :=
  v.body.take (v.sliceBytes offset n).length = v.sliceBytes offset n ∧
    (v.body.drop (v.sliceBytes offset n).length ++ packFooter form (v.slice offset n) ≠ [] →
      IsFooter form
        (v.body.drop (v.sliceBytes offset n).length ++ packFooter form (v.slice offset n))
        ((v.slice offset n).map fun s => (s.weight, s.domain)))

section Slice

variable {v w : GrnVector} {offset n : ℕ} {form : WeightForm} {behind : List ℕ}

theorem flatMap_elements {lengths bytes : List ℕ} {pairs : List (ℕ × ℕ)}
    (hp : pairs.length = lengths.length) (hb : bytes.length = lengths.sum) :
    (elements lengths bytes pairs).flatMap (fun e => e.2.1) = bytes := by
  induction lengths generalizing bytes pairs with
  | nil => rw [List.eq_nil_of_length_eq_zero hb]; rfl
  | cons length lengths ih =>
    obtain ⟨⟨weight, domain⟩, pairs, rfl⟩ := List.exists_cons_of_length_eq_add_one hp
    rw [List.sum_cons] at hb
    rw [elements, List.flatMap_cons, ih (Nat.succ.inj hp) (by rw [List.length_drop]; omega)]
    exact List.take_append_drop length bytes

/-- The places of a slice in its body. -/
theorem GrnVector.Valid.slice (hv : v.Valid) (offset n : ℕ) :
    ∃ start finish, Contiguous start (v.slice offset n) finish ∧ finish ≤ v.body.length := by
  have hsplit : v.sections = v.sections.take offset ++
      (v.slice offset n ++ (v.sections.drop offset).drop n) := by
    rw [GrnVector.slice, List.take_append_drop, List.take_append_drop]
  have hall := hv.contiguous
  rw [hsplit, contiguous_append] at hall
  obtain ⟨start, -, hrest⟩ := hall
  rw [contiguous_append] at hrest
  obtain ⟨finish, hslice, hlast⟩ := hrest
  exact ⟨start, finish, hslice, hlast.le⟩

/-- The lengths of a slice add up to its bytes. -/
theorem GrnVector.Valid.elements_slice (hv : v.Valid) (offset n : ℕ) :
    (v.slice offset n).map v.element =
        elements ((v.slice offset n).map (·.length)) (v.sliceBytes offset n)
          ((v.slice offset n).map fun s => (s.weight, s.domain)) ∧
      (v.sliceBytes offset n).length = ((v.slice offset n).map (·.length)).sum ∧
      (v.sliceBytes offset n).length ≤ v.body.length := by
  obtain ⟨start, finish, hslice, hle⟩ := hv.slice offset n
  have helements := elements_of_contiguous (v := v) hslice
  have hsum := hslice.sum
  have hlen : ((v.body.drop start).take (finish - start)).length =
      ((v.slice offset n).map (·.length)).sum := by
    rw [List.length_take, List.length_drop]
    omega
  have hbytes : v.sliceBytes offset n = (v.body.drop start).take (finish - start) := by
    have hflat := @flatMap_elements _ _ ((v.slice offset n).map fun s => (s.weight, s.domain))
      (by rw [List.length_map, List.length_map]) hlen
    rw [← helements, List.flatMap_map] at hflat
    exact hflat
  rw [hbytes]
  exact ⟨helements, hlen, by rw [hlen]; omega⟩

/-- The bytes that a footer has are bytes. -/
theorem lt_of_mem_packFooter {slice : List Section} (hdomains : ∀ s ∈ slice, s.domain < 2 ^ 32)
    (hweights : ∀ s ∈ slice, ∃ k < 2 ^ 24, s.weight = Binary32.ofNat k) {b : ℕ}
    (hb : b ∈ packFooter form slice) : b < 0x100 := by
  rw [packFooter] at hb
  split at hb
  · obtain ⟨s, hs, hb⟩ := List.mem_flatMap.mp hb
    rcases List.mem_append.mp hb with hb | hb
    · cases form with
      | integer =>
        obtain ⟨k, hk, hweight⟩ := hweights s hs
        have hexact : Binary32.Exact k := ⟨by omega, k, 0, hk, by rw [Nat.pow_zero, Nat.mul_one]⟩
        rw [packWeight, hweight, Binary32.toNat_ofNat hexact, Option.getD_some] at hb
        exact lt_of_mem_grnBEnc (by omega) hb
      | float32 =>
        simp only [packWeight, List.mem_cons, List.not_mem_nil, or_false] at hb
        omega
      | bfloat16 =>
        simp only [packWeight, List.mem_cons, List.not_mem_nil, or_false] at hb
        omega
    · exact lt_of_mem_grnBEnc (hdomains s hs) hb
  · cases hb

/-- An integer weight that is not positive is zero. -/
theorem positive_ofNat {k weight : ℕ} (hk : k < 2 ^ 24) (hweight : weight = Binary32.ofNat k)
    (h : positive weight = false) : weight = 0 := by
  have hle := Binary32.ofNat_le (Nat.lt_trans hk (by decide : 2 ^ 24 < 2 ^ 32))
  by_contra hpos
  rw [positive, Bool.and_eq_false_iff, decide_eq_false_iff_not, decide_eq_false_iff_not] at h
  omega

/-- Without a footer the weights and the domains are zero. -/
theorem pairs_of_packFooter_nil {slice : List Section}
    (hweights : ∀ s ∈ slice, ∃ k < 2 ^ 24, s.weight = Binary32.ofNat k)
    (h : packFooter form slice = []) :
    (slice.map fun s => (s.weight, s.domain)) = List.replicate slice.length (0, 0) := by
  refine List.eq_replicate_iff.mpr ⟨List.length_map .., fun pair hpair => ?_⟩
  obtain ⟨s, hs, rfl⟩ := List.mem_map.mp hpair
  rw [packFooter] at h
  split at h
  · -- a code is not empty
    have hnil := List.flatMap_eq_nil_iff.mp h s hs
    exact absurd (List.append_eq_nil_iff.mp hnil).2 (grnBEnc_ne_nil _)
  · rename_i hnone
    rw [List.any_eq_true] at hnone
    obtain ⟨k, hk, hweight⟩ := hweights s hs
    have hboth : positive s.weight = false ∧ s.domain = 0 := by
      by_contra hnot
      refine hnone ⟨s, hs, ?_⟩
      simp only [Bool.or_eq_true, decide_eq_true_eq]
      by_contra hneither
      push Not at hneither
      exact hnot ⟨by simpa using hneither.1, hneither.2⟩
    rw [hboth.2, positive_ofNat hk hweight hboth.1]

/-- **What unpacking of a packed slice does**, once the lengths are read. -/
theorem unpack_pack (hv : v.Valid) (hw : w.Roomy) (hin : offset + n ≤ v.sections.length)
    (hcount : w.sections.length + n + 0xff < 2 ^ 32) {data : List ℕ}
    (hdata : data = packHeader (v.slice offset n) ++ v.body ++ packFooter form (v.slice offset n))
    (behind : List ℕ) :
    ∃ capacity, w.unpack data behind form =
      let start := w.body.length
      let w : GrnVector := ⟨w.sections, capacity,
        w.body ++ v.body.take (v.sliceBytes offset n).length⟩
      let p := v.body.drop (v.sliceBytes offset n).length ++
        packFooter form (v.slice offset n) ++ behind
      match (if behind.length < p.length then footerLoop form behind.length n p
        else .done (List.replicate n (0, 0)) p) with
      | .fault => .fault
      | .short => .error w
      | .done pairs p =>
        .ok { w with sections := w.sections ++
            newSections start ((v.slice offset n).map (·.length)) pairs }
          (data.length + behind.length - p.length) := by
  obtain ⟨-, hlen, hle⟩ := hv.elements_slice offset n
  have hn : (v.slice offset n).length = n := by
    rw [GrnVector.slice, List.length_take, List.length_drop]
    omega
  have hlengths : ∀ l ∈ (v.slice offset n).map (·.length), l < 2 ^ 32 := by
    intro l hl
    have hless := List.single_le_sum (fun _ _ => Nat.zero_le _) _ hl
    have hshort := hv.short
    omega
  have hheader : grnDecByteCheck (data ++ behind) =
      .ok (n, grnEncByte ((v.slice offset n).map (·.length)) ++
        (v.body ++ packFooter form (v.slice offset n) ++ behind)) := by
    rw [hdata, packHeader, hn]
    simp only [List.append_assoc]
    exact grnDecByteCheck_grnBEnc (by omega) _
  obtain ⟨capacity, hcapacity, hunpack⟩ := @unpack_eq w n _ _ _ form hw hcount hheader
  have hloop : lengthsLoop behind.length capacity n w.sections.length
      (grnEncByte ((v.slice offset n).map (·.length)) ++
        (v.body ++ packFooter form (v.slice offset n) ++ behind)) =
      .done ((v.slice offset n).map (·.length))
        (v.body ++ packFooter form (v.slice offset n) ++ behind) := by
    have h := @lengthsLoop_grnEncByte _ (v.body ++ packFooter form (v.slice offset n) ++ behind)
      behind.length capacity w.sections.length hlengths (by
        simp only [List.length_append]
        omega)
      (by
        rw [List.length_map, hn]
        omega)
    rwa [List.length_map, hn] at h
  refine ⟨capacity, ?_⟩
  have hmod : ((v.slice offset n).map (·.length)).sum % 2 ^ 32 =
      (v.sliceBytes offset n).length := by
    have hshort := hv.short
    rw [← hlen]
    exact Nat.mod_eq_of_lt (by omega)
  have henough : ¬(v.body ++ packFooter form (v.slice offset n) ++ behind).length <
      behind.length + (v.sliceBytes offset n).length := by
    simp only [List.length_append]
    omega
  have htake : (v.body ++ packFooter form (v.slice offset n) ++ behind).take
      (v.sliceBytes offset n).length = v.body.take (v.sliceBytes offset n).length := by
    rw [List.append_assoc, List.take_append_of_le_length hle]
  have hdrop : (v.body ++ packFooter form (v.slice offset n) ++ behind).drop
      (v.sliceBytes offset n).length = v.body.drop (v.sliceBytes offset n).length ++
        packFooter form (v.slice offset n) ++ behind := by
    rw [List.append_assoc, List.drop_append_of_le_length hle, List.append_assoc]
  rw [hunpack, GrnVector.unpackSections]
  dsimp only
  rw [hloop]
  dsimp only
  rw [hmod, htake, hdrop]
  exact if_neg henough

/-- New sections have the elements of a slice when their bytes, weights and domains are those of
the slice. -/
theorem newSections_elements_iff (hv : v.Valid)
    (hbody : w.body.length + (v.sliceBytes offset n).length < 2 ^ 32) {capacity : ℕ}
    {pairs : List (ℕ × ℕ)} {sections : List Section}
    (hpairs : pairs.length = (v.slice offset n).length) :
    (newSections w.body.length ((v.slice offset n).map (·.length)) pairs).map
        (GrnVector.element ⟨sections, capacity,
          w.body ++ v.body.take (v.sliceBytes offset n).length⟩) =
          (v.slice offset n).map v.element ↔
      v.body.take (v.sliceBytes offset n).length = v.sliceBytes offset n ∧
        pairs = (v.slice offset n).map fun s => (s.weight, s.domain) := by
  obtain ⟨helements, hlen, hle⟩ := hv.elements_slice offset n
  have htake : (v.body.take (v.sliceBytes offset n).length).length =
      ((v.slice offset n).map (·.length)).sum := by
    rw [List.length_take_of_le hle, hlen]
  rw [elements_of_newSections (by rw [hpairs, List.length_map]) (by rw [← hlen]; exact hbody)
    (by rw [List.length_append, htake]), helements, List.drop_left]
  exact elements_inj (by rw [hpairs, List.length_map]) (by simp) htake hlen

/-- **A slice that is packed comes back if and only if the body is right for it.** -/
theorem comesBack_iff (hv : v.Valid) (hweights : v.IntegerWeights) (hw : w.Roomy)
    (hbehind : ∀ b ∈ behind, b < 0x100) (hin : offset + n ≤ v.sections.length)
    (hcount : w.sections.length + n + 0xff < 2 ^ 32)
    (hbody : w.body.length + (v.sliceBytes offset n).length < 2 ^ 32) :
    ComesBack v offset n form w behind ↔ Covers v offset n form := by
  have hslice : ∀ s ∈ v.slice offset n, s ∈ v.sections := fun s hs =>
    List.mem_of_mem_drop (List.mem_of_mem_take hs)
  have hn : (v.slice offset n).length = n := by
    rw [GrnVector.slice, List.length_take, List.length_drop]
    omega
  have hpack : v.pack offset n form =
      some (packHeader (v.slice offset n), v.body, packFooter form (v.slice offset n)) := by
    rw [GrnVector.pack, if_neg (by omega)]
  obtain ⟨capacity, hunpack⟩ := @unpack_pack v w offset n form hv hw hin hcount _ rfl behind
  dsimp only at hunpack
  generalize hleft : v.body.drop (v.sliceBytes offset n).length ++
    packFooter form (v.slice offset n) = left at hunpack
  rw [Covers, hleft]
  by_cases hnil : left = []
  · -- no footer is read
    subst hnil
    have hfooter := (List.append_eq_nil_iff.mp hleft).2
    have hzero := pairs_of_packFooter_nil (fun s hs => hweights s (hslice s hs)) hfooter
    rw [hn] at hzero
    rw [List.nil_append, if_neg (Nat.lt_irrefl _)] at hunpack
    dsimp only at hunpack
    rw [Nat.add_sub_cancel] at hunpack
    have hiff := @newSections_elements_iff v w offset n hv hbody capacity
      (List.replicate n (0, 0)) (w.sections ++ newSections w.body.length
        ((v.slice offset n).map (·.length)) (List.replicate n (0, 0)))
      (by rw [List.length_replicate, hn])
    constructor
    · rintro ⟨header, body, footer, w', hpack', hunpack', new, extra, hsections, hbody', hnew⟩
      rw [hpack] at hpack'
      simp only [Option.some.injEq, Prod.mk.injEq] at hpack'
      obtain ⟨rfl, rfl, rfl⟩ := hpack'
      obtain ⟨rfl, -⟩ := Outcome.ok.inj (hunpack.symm.trans hunpack')
      obtain rfl := List.append_cancel_left hsections
      exact ⟨(hiff.mp hnew).1, fun h => absurd rfl h⟩
    · rintro ⟨htake, -⟩
      exact ⟨_, _, _, _, hpack, hunpack, _, _, rfl, rfl, hiff.mpr ⟨htake, hzero.symm⟩⟩
  · -- what is left is read as the footer
    have hpos := List.length_pos_of_ne_nil hnil
    rw [if_pos (by rw [List.length_append]; omega)] at hunpack
    have hbytes : ∀ b ∈ left ++ behind, b < 0x100 := by
      intro b hb
      rcases List.mem_append.mp hb with hb | hb
      · rw [← hleft] at hb
        rcases List.mem_append.mp hb with hb | hb
        · exact hv.bytes b (List.mem_of_mem_drop hb)
        · exact lt_of_mem_packFooter (fun s hs => hv.domains s (hslice s hs))
            (fun s hs => hweights s (hslice s hs)) hb
      · exact hbehind b hb
    have hiff : ∀ pairs : List (ℕ × ℕ), pairs.length = n → _ := fun pairs hpairs =>
      @newSections_elements_iff v w offset n hv hbody capacity pairs (w.sections ++
        newSections w.body.length ((v.slice offset n).map (·.length)) pairs) (by rw [hpairs, hn])
    constructor
    · rintro ⟨header, body, footer, w', hpack', hunpack', new, extra, hsections, hbody', hnew⟩
      rw [hpack] at hpack'
      simp only [Option.some.injEq, Prod.mk.injEq] at hpack'
      obtain ⟨rfl, rfl, rfl⟩ := hpack'
      rw [hunpack] at hunpack'
      cases hloop : footerLoop form behind.length n (left ++ behind) with
      | fault => rw [hloop] at hunpack'; cases hunpack'
      | short => rw [hloop] at hunpack'; cases hunpack'
      | done pairs q =>
        rw [hloop] at hunpack'
        obtain ⟨rfl, hused⟩ := Outcome.ok.inj hunpack'
        obtain rfl := List.append_cancel_left hsections
        obtain ⟨e, he, hsplit, hpairs⟩ := isFooter_of_footerLoop hbytes hloop
        obtain ⟨htake, rfl⟩ := (hiff pairs hpairs).mp hnew
        have hq : q.length = behind.length := by
          have hheader : 0 < (packHeader (v.slice offset n)).length := by
            rw [packHeader, List.length_append]
            exact Nat.lt_of_lt_of_le (length_grnBEnc_pos _) (Nat.le_add_right _ _)
          have hlen := congrArg List.length hsplit
          simp only [List.length_append] at hlen hused
          omega
        obtain ⟨rfl, -⟩ := List.append_inj' hsplit hq.symm
        exact ⟨htake, fun _ => he⟩
    · rintro ⟨htake, hfooter⟩
      have hpairs : ((v.slice offset n).map fun s => (s.weight, s.domain)).length = n := by
        rw [List.length_map, hn]
      have hloop := footerLoop_of_isFooter (hfooter hnil) behind
      rw [hpairs] at hloop
      rw [hloop] at hunpack
      dsimp only at hunpack
      rw [Nat.add_sub_cancel] at hunpack
      exact ⟨_, _, _, _, hpack, hunpack, _, _, rfl, rfl, (hiff _ hpairs).mpr ⟨htake, rfl⟩⟩

/-- A weight that is packed as an integer or as a float is encoded. -/
theorem isWeightCode_packWeight {k weight : ℕ} (hform : form ≠ .bfloat16) (hk : k < 2 ^ 24)
    (hweight : weight = Binary32.ofNat k) : IsWeightCode form weight (packWeight form weight) := by
  have hexact : Binary32.Exact k := ⟨by omega, k, 0, hk, by rw [Nat.pow_zero, Nat.mul_one]⟩
  cases form with
  | integer =>
    rw [packWeight, hweight, Binary32.toNat_ofNat hexact, Option.getD_some]
    exact ⟨k, by omega, .inl rfl, rfl⟩
  | float32 =>
    have hlt := Binary32.ofNat_lt (Nat.lt_trans hk (by decide : 2 ^ 24 < 2 ^ 32))
    rw [← hweight] at hlt
    exact ⟨_, _, _, _, rfl, by omega⟩
  | bfloat16 => exact absurd rfl hform

/-- **A vector that is packed as a whole covers its elements.** -/
theorem covers_whole (hv : v.Valid) (hweights : v.IntegerWeights) (hform : form ≠ .bfloat16) :
    Covers v 0 v.sections.length form := by
  have hslice : v.slice 0 v.sections.length = v.sections := by
    rw [GrnVector.slice, List.drop_zero, List.take_length]
  obtain ⟨-, hlen, -⟩ := hv.elements_slice 0 v.sections.length
  have hsum := hv.contiguous.sum
  have hbytes : v.sliceBytes 0 v.sections.length = v.body := by
    have helements := elements_of_contiguous (v := v) hv.contiguous
    rw [Nat.sub_zero, List.drop_zero, List.take_length] at helements
    have hflat := @flatMap_elements (v.sections.map (·.length)) v.body
      (v.sections.map fun s => (s.weight, s.domain)) (by rw [List.length_map, List.length_map])
      (by omega)
    rw [← helements, List.flatMap_map] at hflat
    rw [GrnVector.sliceBytes, hslice]
    exact hflat
  rw [Covers, hbytes, hslice, List.take_length, List.drop_length, List.nil_append]
  refine ⟨rfl, fun hne => ?_⟩
  have hall : ∀ ss : List Section, (∀ s ∈ ss, s ∈ v.sections) →
      IsFooter form (ss.flatMap fun s => packWeight form s.weight ++ grnBEnc s.domain)
        (ss.map fun s => (s.weight, s.domain)) := by
    intro ss hss
    induction ss with
    | nil => exact .nil
    | cons s rest ih =>
      obtain ⟨k, hk, hweight⟩ := hweights s (hss s (List.mem_cons_self ..))
      rw [List.flatMap_cons, List.append_assoc, List.map_cons]
      exact .cons (isWeightCode_packWeight hform hk hweight) ((Or.inl rfl))
        (hv.domains s (hss s (List.mem_cons_self ..)))
        (ih fun s' hs' => hss s' (List.mem_cons_of_mem _ hs'))
  rw [packFooter] at hne ⊢
  split at hne
  · rename_i hneed
    rw [if_pos hneed]
    exact hall v.sections fun s hs => hs
  · exact absurd rfl hne

end Slice

end Groonga.Vector
