import Groonga.Vector.Codec
import Groonga.Ja.Runs
import Mathlib

/-!
# Columns of vectors

`grn_ja_putv` packs a vector of texts and stores the header, the body and the footer as one value of
the column. `grn_ja_get_value` adds what is packed in the value of a record to a vector. A record has
the elements of the vector that was put last, whatever was put for other records since then.
-/

namespace Groonga.Ja

open Groonga.Vector Ii

variable {g : Config} {L : Ledger} {c : Ctx} {s s' : GrnJa} {id : ℕ} {form : WeightForm} {v w : GrnVector}

/-! ## Storing the parts of a value -/

/-- The log only grows, or there is an error. -/
theorem addParts_cases (c : Ctx) (id e offset : ℕ) (parts : List (List UInt8)) :
    (∃ c', addParts c id e offset parts = (true, c') ∧ c'.ja = c.ja ∧ c'.rc = c.rc ∧ c'.fails = c.fails) ∨
      ∃ c', addParts c id e offset parts = (false, c') ∧ c'.rc ≠ .success := by
  induction parts generalizing c offset with
  | nil => exact .inl ⟨c, rfl, rfl, rfl, rfl⟩
  | cons part parts ih =>
    rw [addParts, Ctx.walAddEntry]
    split_ifs with hfails
    · exact .inr ⟨_, rfl, fun h => by cases h⟩
    · exact ih _ (offset + part.length)

/-- **The parts are stored one behind the other**, when there is no error. -/
theorem putvRaw_spec {header body footer : List UInt8} {stack : ℕ} (hG : Good g c.ja L) (hhand : L.own hand = .none)
    (hid : id < idLimit) (hlen : (header ++ body ++ footer).length < 0x100000000)
    (hrc : (putvRaw g c id header body footer stack).rc = .success) :
    Put g c.ja (putvRaw g c id header body footer stack).ja id (header ++ body ++ footer) := by
  rw [putvRaw] at hrc ⊢
  generalize header ++ body ++ footer = value at hlen hrc ⊢
  have hspec : Allocated g value.length c L (alloc g c id value.length stack) := alloc_spec hG hhand hlen
  generalize alloc g c id value.length stack = r at hspec hrc ⊢
  obtain ⟨⟨ok, e, target⟩, c₁⟩ := r
  rcases hspec with ⟨hok, L', hmove, hplace, hspot⟩ | ⟨hok, hne⟩
  · obtain rfl : ok = true := hok
    dsimp only at hplace hspot hmove hrc ⊢
    have hbefore : ∀ {c'}, Moved g c c' L L' → ∀ j < idLimit, c'.ja.refRaw j = c.ja.refRaw j :=
      fun hmove j hj => hG.sound.refRaw_eq hmove.keeps hj
    cases htiny : etinyP e with
    | true =>
      rw [htiny, if_pos rfl] at hrc
      rw [if_pos rfl]
      exact (replace_spec hmove.good (hspot.ready_tiny hplace htiny _) hid hrc).of_eq (hbefore hmove)
    | false =>
      rw [htiny, if_neg Bool.false_ne_true] at hrc
      rw [if_neg Bool.false_ne_true]
      rcases addParts_cases c₁ id e 0 (recordedParts header body footer) with
        ⟨c₂, heq, hja, hrc₂, hfails⟩ | ⟨c₂, heq, hne⟩
      · rw [heq] at hrc ⊢
        dsimp only at hrc ⊢
        rw [hja] at hrc ⊢
        obtain ⟨hG', hk⟩ := hmove.good.copyTo hspot hplace
        have hmove' : Moved g c { c₂ with ja := copyTo c₁.ja target value } L L' :=
          ⟨hG', hmove.keeps.trans hk hmove.own, hmove.own, hrc₂.trans hmove.rc, hfails.trans hmove.fails⟩
        exact (replace_spec hG' (hspot.ready_copyTo hplace htiny _) hid hrc).of_eq (hbefore hmove')
      · rw [heq] at hrc
        exact absurd hrc hne
  · obtain rfl : ok = false := hok
    exact absurd hrc hne

/-! ## Vectors -/

def toBytes (xs : List ℕ) : List UInt8 := xs.map UInt8.ofNat

def ofBytes (bytes : List UInt8) : List ℕ := bytes.map UInt8.toNat

theorem ofBytes_toBytes {xs : List ℕ} (h : ∀ x ∈ xs, x < 0x100) : ofBytes (toBytes xs) = xs := by
  rw [ofBytes, toBytes, List.map_map]
  conv_rhs => rw [← List.map_id xs]
  refine List.map_congr_left fun x hx => ?_
  rw [Function.comp_apply, UInt8.toNat_ofNat', id_eq]
  exact Nat.mod_eq_of_lt (h x hx)

/-- What is stored of a vector. -/
def packed (form : WeightForm) (v : GrnVector) : List ℕ :=
  packHeader v.sections ++ v.body ++ packFooter form v.sections

/-- `grn_ja_putv` with `GRN_OBJ_SET`, without compression. -/
def grnJaPutv (g : Config) (form : WeightForm) (c : Ctx) (id : ℕ) (v : GrnVector) (stack : ℕ) : Ctx :=
  match v.pack 0 v.sections.length form with
  | none => c
  | some (header, body, footer) =>
    if header = [] ∧ body = [] ∧ footer = [] then putRaw g (fun bytes => bytes) c id [] none stack
    else putvRaw g c id (toBytes header) (toBytes body) (toBytes footer) stack

/-- `grn_ja_get_value` for a vector of texts. -/
def grnJaGetValue (form : WeightForm) (s : GrnJa) (id : ℕ) (w : GrnVector) (behind : List ℕ) : Outcome :=
  if s.refRaw id = [] then .ok w 0 else w.unpack (ofBytes (s.refRaw id)) behind form

/-- What can be stored of a vector and read again. -/
structure Storable (form : WeightForm) (v : GrnVector) : Prop where
  valid : v.Valid
  weights : v.IntegerWeights
  notHalf : form ≠ .bfloat16
  length : (packed form v).length < 0x100000000

theorem slice_whole (v : GrnVector) : v.slice 0 v.sections.length = v.sections := by
  rw [GrnVector.slice, List.drop_zero, List.take_length]

theorem pack_whole (form : WeightForm) (v : GrnVector) : v.pack 0 v.sections.length form =
    some (packHeader v.sections, v.body, packFooter form v.sections) := by
  rw [GrnVector.pack, slice_whole, if_neg (by omega)]

theorem packHeader_ne_nil (sections : List Section) : packHeader sections ≠ [] := by
  have hpos := length_grnBEnc_pos sections.length
  intro h
  rw [packHeader] at h
  rw [(List.append_eq_nil_iff.mp h).1] at hpos
  exact absurd hpos (Nat.lt_irrefl 0)

/-- What is stored are bytes. -/
theorem lt_of_mem_packed (hv : Storable form v) (hcount : v.sections.length < 2 ^ 32) :
    ∀ b ∈ packed form v, b < 0x100 := by
  have hlength : ∀ s ∈ v.sections, s.length < 2 ^ 32 := fun s hs => by
    have hsum := hv.valid.contiguous.sum
    have hle := List.single_le_sum (fun _ _ => Nat.zero_le _) s.length
      (List.mem_map_of_mem (f := fun s : Section => s.length) hs)
    have hshort := hv.valid.short
    omega
  intro b hb
  rcases List.mem_append.mp hb with hb | hb
  · rcases List.mem_append.mp hb with hb | hb
    · rcases List.mem_append.mp hb with hb | hb
      · exact lt_of_mem_grnBEnc hcount hb
      · obtain ⟨x, hx, hb⟩ := List.mem_flatMap.mp hb
        obtain ⟨s, hs, rfl⟩ := List.mem_map.mp hx
        exact lt_of_mem_grnBEnc (hlength s hs) hb
    · exact hv.valid.bytes b hb
  · exact lt_of_mem_packFooter hv.valid.domains hv.weights hb

/-- One vector is put, without an error. -/
def PutsVector (g : Config) (form : WeightForm) (s : GrnJa) (id : ℕ) (v : GrnVector) (s' : GrnJa) : Prop :=
  ∃ c stack, c.ja = s ∧ (grnJaPutv g form c id v stack).rc = .success ∧ (grnJaPutv g form c id v stack).ja = s'

theorem PutsVector.spec (hput : PutsVector g form s id v s') (hG : Good g s L) (hhand : L.own hand = .none)
    (hid : id < idLimit) (hv : Storable form v) : Put g s s' id (toBytes (packed form v)) := by
  obtain ⟨c, stack, rfl, hrc, rfl⟩ := hput
  have hbytes : toBytes (packHeader v.sections) ++ toBytes v.body ++ toBytes (packFooter form v.sections) =
      toBytes (packed form v) := by
    rw [packed, toBytes, toBytes, toBytes, toBytes, List.map_append, List.map_append]
  rw [grnJaPutv, pack_whole] at hrc ⊢
  dsimp only at hrc ⊢
  rw [if_neg fun h => packHeader_ne_nil _ h.1] at hrc ⊢
  rw [← hbytes]
  refine putvRaw_spec hG hhand hid ?_ hrc
  rw [hbytes, toBytes, List.length_map]
  exact hv.length

/-- **A column after vectors were put**: the vectors that the records have. -/
inductive VectorRun (g : Config) (form : WeightForm) : (ℕ → Option GrnVector) → GrnJa → Prop where
  | create : VectorRun g form (fun _ => none) jaCreate
  | putv {vs : ℕ → Option GrnVector} {s s' : GrnJa} {id : ℕ} {v : GrnVector} (hrun : VectorRun g form vs s)
      (hid : id < idLimit) (hv : Storable form v) (hput : PutsVector g form s id v s') :
      VectorRun g form (Function.update vs id (some v)) s'

/-- What a record with a vector has. -/
theorem VectorRun.spec {vs : ℕ → Option GrnVector} (hrun : VectorRun g form vs s) :
    (∃ L, Good g s L ∧ L.own hand = .none) ∧ ∀ id < idLimit,
      s.refRaw id = ((vs id).map fun v => toBytes (packed form v)).getD [] ∧ ∀ v ∈ vs id, Storable form v := by
  induction hrun with
  | create =>
    refine ⟨⟨.empty, good_jaCreate g, rfl⟩, fun id _ => ⟨?_, fun v hv => by cases hv⟩⟩
    rw [GrnJa.refRaw, einfo_jaCreate]
    rfl
  | @putv vs s s' id v hrun hid hv hput ih =>
    obtain ⟨⟨L, hG, hhand⟩, hvalues⟩ := ih
    have h := hput.spec hG hhand hid hv
    refine ⟨h.good, fun j hj => ?_⟩
    by_cases hne : j = id
    · subst hne
      rw [Function.update_self]
      exact ⟨h.value, fun v' hv' => Option.some.inj hv' ▸ hv⟩
    · rw [Function.update_of_ne hne, h.others j hj hne]
      exact hvalues j hj

/-- **A column of vectors is a map**: reading a record adds the elements of the vector that was put last,
or nothing. -/
theorem grnJaGetValue_run {vs : ℕ → Option GrnVector} (hrun : VectorRun g form vs s) (hid : id < idLimit)
    (hw : w.Roomy) {behind : List ℕ} (hbehind : ∀ b ∈ behind, b < 0x100)
    (hcount : ∀ v ∈ vs id, w.sections.length + v.sections.length + 0xff < 2 ^ 32)
    (hbody : ∀ v ∈ vs id, w.body.length + v.body.length < 2 ^ 32) :
    ∃ w' n new extra, grnJaGetValue form s id w behind = .ok w' n ∧ w'.sections = w.sections ++ new ∧
      w'.body = w.body ++ extra ∧ new.map w'.element = ((vs id).map fun v => v.sections.map v.element).getD [] := by
  obtain ⟨hvalue, hstorable⟩ := hrun.spec.2 id hid
  rw [grnJaGetValue, hvalue]
  cases hvs : vs id with
  | none => exact ⟨w, 0, [], [], if_pos rfl, (List.append_nil _).symm, (List.append_nil _).symm, rfl⟩
  | some v =>
    have hv := hstorable v hvs
    have hcount' := hcount v hvs
    have hcovers := covers_whole hv.valid hv.weights hv.notHalf
    have hle : (v.sliceBytes 0 v.sections.length).length ≤ v.body.length := by
      rw [← hcovers.1, List.length_take]
      exact Nat.min_le_right _ _
    have hbody' := hbody v hvs
    obtain ⟨header, body, footer, w', hpack, hunpack, new, extra, hsections, hextra, hnew⟩ :=
      (comesBack_iff hv.valid hv.weights hw hbehind (Nat.le_of_eq (Nat.zero_add _)) hcount' (by omega)).mpr hcovers
    rw [pack_whole] at hpack
    obtain ⟨rfl, hrest⟩ := Prod.mk.inj (Option.some.inj hpack)
    obtain ⟨rfl, rfl⟩ := Prod.mk.inj hrest
    have hne : toBytes (packed form v) ≠ [] := fun hnil => by
      rw [toBytes, List.map_eq_nil_iff] at hnil
      exact packHeader_ne_nil _ (List.append_eq_nil_iff.mp (List.append_eq_nil_iff.mp hnil).1).1
    rw [slice_whole] at hnew
    refine ⟨w', (packed form v).length, new, extra, ?_, hsections, hextra, hnew⟩
    rw [Option.map_some, Option.getD_some, if_neg hne, ofBytes_toBytes (lt_of_mem_packed hv (by omega))]
    exact hunpack

/-- The vector of the text `a`. -/
def oneText : GrnVector := ⟨[⟨0, 1, 0, 0⟩], 256, [0x61]⟩

theorem grnJaGetValue_run_oneText : ∃ w' n new extra,
    grnJaGetValue .integer (grnJaPutv .standard .integer .created 1 oneText 0).ja 1 oneText [] = .ok w' n ∧
      w'.sections = oneText.sections ++ new ∧ w'.body = oneText.body ++ extra ∧
        new.map w'.element = oneText.sections.map oneText.element := by
  have hv : Storable .integer oneText := by
    refine ⟨⟨⟨rfl, rfl⟩, by decide, by decide, by decide⟩, fun s hs => ?_, by decide, by decide⟩
    obtain rfl := List.mem_singleton.mp hs
    exact ⟨0, by decide, rfl⟩
  exact grnJaGetValue_run (.putv .create (by decide) hv ⟨.created, 0, rfl, by decide +kernel, rfl⟩) (by decide)
    (by rw [GrnVector.Roomy]; decide) (by decide) (by simp [oneText]) (by simp [oneText])

end Groonga.Ja
