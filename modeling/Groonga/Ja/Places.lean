import Groonga.Lib.Area
import Groonga.Lib.Ring
import Groonga.Ja.Put

/-!
# Places of values

An element info refers to a place: a chunk, a part of a sequential segment, or whole segments. What
the segment infos say about the segments of a place keeps places of different kinds apart. Two
chunks of one size that lie at different positions do not overlap, because the positions are
multiples of the size.
-/

namespace Groonga.Ja

open Lib

/-! ## Places -/

/-- Where the bytes of a value are. A chunk is given with its variation, a part of a sequential
segment with its aligned size. -/
inductive Place where
  | none
  | chunk (at' : Pos) (variation : ℕ)
  | sequential (seg pos size : ℕ)
  | huge (seg n : ℕ)
deriving DecidableEq, Repr

/-- The place that an element info refers to. -/
def place (g : Config) (e : ℕ) : Place :=
  if etinyP e then .none
  else if ehugeP e then .huge (ehugeDec e).1 (computeHugeNSegments (ehugeDec e).2)
  else if (einfoDec e).2.2 = 0 then .none
  else if g.detectElementType (einfoDec e).2.2 = .chunk then
    .chunk ⟨(einfoDec e).1, (einfoDec e).2.1⟩ (chunkVariation (einfoDec e).2.2)
  else
    .sequential (einfoDec e).1 (einfoDec e).2.1 (computeSequenceAlignedElementSize (einfoDec e).2.2)

/-- The byte `u` of the segment `x` is in the place. The record id is in front of a value in a
sequential segment. -/
def Place.Has (x u : ℕ) : Place → Prop
  | .none => False
  | .chunk p v => x = p.seg ∧ p.pos ≤ u ∧ u < p.pos + 2 ^ (v + 3)
  | .sequential seg pos size => x = seg ∧ pos ≤ u + 4 ∧ u < pos + size
  | .huge seg n => seg ≤ x ∧ x < seg + n

/-- No byte is in both places. -/
def Place.Apart (p q : Place) : Prop := ∀ x u, p.Has x u → ¬ q.Has x u

theorem Place.Apart.symm {p q : Place} (h : p.Apart q) : q.Apart p := fun x u hq hp => h x u hp hq

/-- The segment info is that of a sequential segment. -/
def IsSeq (info : ℕ) : Prop := segSeq ≤ info ∧ info < segHuge

/-- `JA_N_ELEMENT_VARIATIONS_V2`. -/
def nVariations : ℕ := 14

/-- A chunk in a segment for chunks of the variation. -/
structure IsSlot (g : Config) (h : Header) (v : ℕ) (p : Pos) : Prop where
  seg_lt : p.seg < g.nDataSegments
  info : h.segmentInfos p.seg = v + 3
  aligned : p.pos % 2 ^ (v + 3) = 0
  pos_lt : p.pos < segmentSize

/-- The segments of the place are for places of its kind. -/
def Place.Fits (g : Config) (h : Header) : Place → Prop
  | .none => True
  | .chunk p v => v < nVariations ∧ IsSlot g h v p
  | .sequential seg pos size =>
    seg < g.nDataSegments ∧ IsSeq (h.segmentInfos seg) ∧ 4 ≤ pos ∧ pos % 4 = 0 ∧ size % 4 = 0 ∧
      pos + size ≤ segmentSize
  | .huge seg n => 0 < n ∧ seg + n ≤ g.nDataSegments ∧ ∀ x, seg ≤ x → x < seg + n →
      h.segmentInfos x = segHuge

/-- Some byte of the segment is in the place. -/
def Place.Touches (x : ℕ) : Place → Prop
  | .none => False
  | .chunk p _ => x = p.seg
  | .sequential seg _ _ => x = seg
  | .huge seg n => seg ≤ x ∧ x < seg + n

variable {g : Config} {h h' : Header} {p q : Place} {x : ℕ}

theorem Place.Has.touches {u : ℕ} (hp : p.Has x u) : p.Touches x := by
  cases p with
  | none => exact hp
  | chunk => exact hp.1
  | sequential => exact hp.1
  | huge => exact hp

/-- A segment of a place is not free. -/
theorem Place.Fits.info_ne_zero (hp : p.Fits g h) (hx : p.Touches x) : h.segmentInfos x ≠ 0 := by
  cases p with
  | none => exact hx.elim
  | chunk p v =>
    obtain rfl : x = p.seg := hx
    rw [hp.2.info]
    omega
  | sequential seg pos size =>
    obtain rfl : x = seg := hx
    have hseq := hp.2.1.1
    unfold segSeq at hseq
    omega
  | huge seg n =>
    rw [hp.2.2 x hx.1 hx.2]
    decide

/-- The segment info is one for values: not that of element infos or garbage infos. -/
theorem Place.Fits.info_lt (hp : p.Fits g h) (hx : p.Touches x) : h.segmentInfos x < segEinfo := by
  cases p with
  | none => exact hx.elim
  | chunk p v =>
    obtain rfl : x = p.seg := hx
    have hv := hp.1
    rw [hp.2.info]
    unfold nVariations at hv
    unfold segEinfo
    omega
  | sequential seg pos size =>
    obtain rfl : x = seg := hx
    have hseq := hp.2.1.2
    unfold segHuge at hseq
    unfold segEinfo
    omega
  | huge seg n =>
    rw [hp.2.2 x hx.1 hx.2]
    decide

/-! ## Segment infos that change -/

@[simp] theorem setInfo_self (h : Header) (seg info : ℕ) : (h.setInfo seg info).segmentInfos seg = info :=
  Function.update_self _ _ _

theorem setInfo_of_ne {seg info : ℕ} (hne : x ≠ seg) :
    (h.setInfo seg info).segmentInfos x = h.segmentInfos x := Function.update_of_ne hne _ _

/-- The infos of the segments that are not given up stay as they are, except that the size in
the info of a sequential segment may change. -/
def Compat (except : ℕ → Prop) (h h' : Header) : Prop :=
  ∀ x, ¬ except x → h.segmentInfos x ≠ 0 → h'.segmentInfos x = h.segmentInfos x ∨
    (IsSeq (h.segmentInfos x) ∧ IsSeq (h'.segmentInfos x))

/-- Nothing is given up. -/
def nothing : ℕ → Prop := fun _ => False

theorem Compat.of_eq (hinfos : h'.segmentInfos = h.segmentInfos) : Compat nothing h h' :=
  fun x _ _ => .inl (congrFun hinfos x)

/-- A free segment gets an info. -/
theorem compat_setInfo_of_free {seg info : ℕ} (hfree : h.segmentInfos seg = 0) :
    Compat nothing h (h.setInfo seg info) := by
  intro x _ hx
  refine .inl ?_
  exact setInfo_of_ne fun heq => hx (heq ▸ hfree)

/-- A segment is given up. -/
theorem compat_setInfo_except {seg info : ℕ} : Compat (· = seg) h (h.setInfo seg info) :=
  fun _ hx _ => .inl (setInfo_of_ne hx)

/-- Another size is in the info of a sequential segment. -/
theorem compat_setInfo_of_isSeq {seg info : ℕ} (hold : IsSeq (h.segmentInfos seg)) (hnew : IsSeq info) :
    Compat nothing h (h.setInfo seg info) := by
  intro x _ _
  by_cases hx : x = seg
  · subst hx
    refine .inr ⟨hold, ?_⟩
    rwa [setInfo_self]
  · exact .inl (setInfo_of_ne hx)

/-- A segment that is not for sequential values keeps its info. -/
theorem Compat.info_eq {except : ℕ → Prop} (hcompat : Compat except h h') (hx : ¬ except x)
    (hne : h.segmentInfos x ≠ 0) (hseq : ¬ IsSeq (h.segmentInfos x)) :
    h'.segmentInfos x = h.segmentInfos x :=
  (hcompat x hx hne).resolve_right fun hboth => hseq hboth.1

theorem not_isSeq_variation {v : ℕ} (hv : v < nVariations) : ¬ IsSeq (v + 3) := by
  intro hseq
  have hle := hseq.1
  unfold segSeq at hle
  unfold nVariations at hv
  omega

theorem not_isSeq_of_segHuge_le {info : ℕ} (hle : segHuge ≤ info) : ¬ IsSeq info := fun hseq =>
  Nat.not_lt.mpr hle hseq.2

theorem IsSlot.mono {except : ℕ → Prop} {v : ℕ} {a : Pos} (hslot : IsSlot g h v a)
    (hcompat : Compat except h h') (hv : v < nVariations) (hnot : ¬ except a.seg) :
    IsSlot g h' v a := by
  refine ⟨hslot.seg_lt, ?_, hslot.aligned, hslot.pos_lt⟩
  have hinfo := hslot.info
  rw [hcompat.info_eq hnot (by omega) (by rw [hinfo]; exact not_isSeq_variation hv), hinfo]

theorem Place.Fits.mono {except : ℕ → Prop} (hp : p.Fits g h) (hcompat : Compat except h h')
    (hnot : ∀ x, except x → ¬ p.Touches x) : p.Fits g h' := by
  cases p with
  | none => exact trivial
  | chunk p v => exact ⟨hp.1, hp.2.mono hcompat hp.1 fun hx => hnot _ hx rfl⟩
  | sequential seg pos size =>
    obtain ⟨hlt, hseq, hrest⟩ := hp
    have hne : h.segmentInfos seg ≠ 0 := by
      have := hseq.1
      unfold segSeq at this
      omega
    refine ⟨hlt, ?_, hrest⟩
    rcases hcompat seg (fun hx => hnot _ hx rfl) hne with heq | hboth
    · rwa [heq]
    · exact hboth.2
  | huge seg n =>
    obtain ⟨hpos, hle, hinfo⟩ := hp
    refine ⟨hpos, hle, fun x hx hx' => ?_⟩
    have hold := hinfo x hx hx'
    rw [hcompat.info_eq (fun hex => hnot x hex ⟨hx, hx'⟩) (by rw [hold]; decide)
      (by rw [hold]; exact not_isSeq_of_segHuge_le (Nat.le_refl _)), hold]

/-! ## Places that lie apart -/

/-- The position of a chunk is followed by a whole chunk. -/
theorem add_chunk_le {pos v : ℕ} (hv : v < nVariations) (haligned : pos % 2 ^ (v + 3) = 0)
    (hlt : pos < segmentSize) : pos + 2 ^ (v + 3) ≤ segmentSize := by
  have hdvd : 2 ^ (v + 3) ∣ segmentSize := by
    have hpow : segmentSize = 2 ^ 22 := by decide
    rw [hpow]
    exact Nat.pow_dvd_pow 2 (by unfold nVariations at hv; omega)
  obtain ⟨a, ha⟩ := Nat.dvd_of_mod_eq_zero haligned
  obtain ⟨b, hb⟩ := hdvd
  rw [ha, hb] at hlt ⊢
  have hlt' : a < b := Nat.lt_of_mul_lt_mul_left hlt
  calc 2 ^ (v + 3) * a + 2 ^ (v + 3) = 2 ^ (v + 3) * (a + 1) := by ring
    _ ≤ 2 ^ (v + 3) * b := Nat.mul_le_mul_left _ hlt'

/-- Multiples of a number are at least this number apart. -/
theorem apart_of_aligned {a b d : ℕ} (ha : a % d = 0) (hb : b % d = 0) (hne : a ≠ b) :
    a + d ≤ b ∨ b + d ≤ a := by
  obtain ⟨m, rfl⟩ := Nat.dvd_of_mod_eq_zero ha
  obtain ⟨n, rfl⟩ := Nat.dvd_of_mod_eq_zero hb
  rcases Nat.lt_trichotomy m n with hlt | rfl | hlt
  · left
    calc d * m + d = d * (m + 1) := by ring
      _ ≤ d * n := Nat.mul_le_mul_left d hlt
  · exact absurd rfl hne
  · right
    calc d * n + d = d * (n + 1) := by ring
      _ ≤ d * m := Nat.mul_le_mul_left d hlt

/-- A chunk lies apart from the other chunks and from everything else. -/
theorem apart_chunk {a : Pos} {v : ℕ} (hp : (Place.chunk a v).Fits g h) (hq : q.Fits g h)
    (hne : ∀ b w, q = .chunk b w → b ≠ a) : (Place.chunk a v).Apart q := by
  rintro x u ⟨rfl, hle, hlt⟩ hu
  have hinfo := hp.2.info
  cases q with
  | none => exact hu
  | chunk b w =>
    obtain ⟨hseg, hle', hlt'⟩ := hu
    have hinfo' := hq.2.info
    rw [← hseg, hinfo] at hinfo'
    obtain rfl : v = w := by omega
    have hpos : a.pos ≠ b.pos := by
      intro heq
      refine hne b v rfl ?_
      cases a
      cases b
      simp_all
    rcases apart_of_aligned hp.2.aligned hq.2.aligned hpos with h1 | h1 <;> omega
  | sequential seg pos size =>
    obtain ⟨hseg, -⟩ := hu
    have hseq := hq.2.1
    rw [← hseg, hinfo] at hseq
    exact not_isSeq_variation hp.1 hseq
  | huge seg n =>
    have hhuge := hq.2.2 _ hu.1 hu.2
    have hv := hp.1
    rw [hinfo] at hhuge
    unfold segHuge at hhuge
    unfold nVariations at hv
    omega

/-- A part of a sequential segment lies apart from what is not in the same segment. -/
theorem apart_sequential {seg pos size : ℕ} (hp : (Place.sequential seg pos size).Fits g h)
    (hq : q.Fits g h)
    (hne : ∀ pos' size', q = .sequential seg pos' size' → pos' + size' + 4 ≤ pos ∨ pos + size + 4 ≤ pos') :
    (Place.sequential seg pos size).Apart q := by
  rintro x u ⟨rfl, hle, hlt⟩ hu
  have hseq := hp.2.1
  cases q with
  | none => exact hu
  | chunk b w =>
    obtain ⟨hseg, -⟩ := hu
    rw [hseg, hq.2.info] at hseq
    exact not_isSeq_variation hq.1 hseq
  | sequential seg' pos' size' =>
    obtain ⟨rfl, hle', hlt'⟩ := hu
    have := hne pos' size' rfl
    omega
  | huge seg' n =>
    rw [hq.2.2 _ hu.1 hu.2] at hseq
    exact not_isSeq_of_segHuge_le (Nat.le_refl _) hseq

end Groonga.Ja
