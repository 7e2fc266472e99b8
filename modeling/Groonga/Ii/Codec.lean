import Groonga.Ii.Pack
import Groonga.Lib.Result
import Mathlib

/-!
# The postings codec: `grn_encv` and `grn_decv`

The postings of a term are a vector of elements: the gaps of the record ids, then
the section ids, the term frequencies, the weights and the positions, as far as the
index has them. Each element is written in the byte code or, as units of 128
values, with `pack`. Only the last element may hold more values than there are
postings, and only an index with positions stores how many more.

The encoder computes its sizes in `uint32_t`, and so does the model: the estimate
of an element and the gap of the last element are taken modulo `2 ^ 32`.
-/

namespace Groonga.Ii

open Lib

/-! ## Elements -/

/-- The flags of an inverted index that its postings depend on. -/
structure Layout where
  withSection : Bool
  withWeight : Bool
  withPosition : Bool
deriving DecidableEq, Repr

/-- `ii->n_elements`. -/
def Layout.nElements (ii : Layout) : ℕ :=
  2 + ii.withSection.toNat + ii.withWeight.toNat + ii.withPosition.toNat

/-- One `datavec`: its values and whether `DATA_USE_P_FOR_ENC` is set. `DATA_ODD` is
set on the last one of an index with positions and nowhere else. -/
structure Element where
  data : List ℕ
  usePForEnc : Bool
deriving DecidableEq, Repr

/-- The `datavec` array of an index: one `datavec` for each element, `uint32_t` values. -/
structure Datavecs (ii : Layout) where
  elements : List Element
  length_elements : elements.length = ii.nElements
  data_lt : ∀ e ∈ elements, ∀ v ∈ e.data, v < 2 ^ 32

/-! ## Units of 128 values -/

/-- `grn_enc_estimate_byte`. -/
def grnEncEstimateByte (n : ℕ) : ℕ := grnBEncMaxSize * n % 2 ^ 32

/-- `grn_enc_estimate_p_for`. -/
def grnEncEstimatePFor (n : ℕ) : ℕ := packMaxSize * (n / unitSize + 1) % 2 ^ 32

/-- `grn_enc_p_for`. -/
def grnEncPFor (values : List ℕ) : List ℕ :=
  if unitSize ≤ values.length then
    pack (values.take unitSize) ++ grnEncPFor (values.drop unitSize)
  else if 0 < values.length then
    pack values
  else []
termination_by values.length
decreasing_by simp only [List.length_drop, unitSize] at *; omega

/-- `grn_dec_p_for` into the memory `values`. -/
def grnDecPFor (values input : List ℕ) : Except String (List ℕ × List ℕ) :=
  if unitSize ≤ values.length then
    match unpack (values.take unitSize) input with
    | none => .error "[ii][dec][p-for] failed to unpack PFor encoded fixed size data"
    | some (unit, input) => do
      let (rest, input) ← grnDecPFor (values.drop unitSize) input
      return (unit ++ rest, input)
  else if 0 < values.length then
    match unpack values input with
    | none => .error "[ii][dec][p-for] failed to unpack PFor encoded rest data"
    | some r => .ok r
  else
    .ok ([], input)
termination_by values.length
decreasing_by simp only [List.length_drop, unitSize] at *; omega

/-! ## The encoder -/

/-- `dv[0].data_size`. -/
def dataFrequency (dv : List Element) : ℕ := (dv.head?.map (·.data.length)).getD 0

/-- The check of the data sizes in `grn_encv`: `df` in each element, at least `df` in
the last one. -/
def checkDataSizes (df : ℕ) : List Element → Bool
  | [] => true
  | [last] => decide (df ≤ last.data.length)
  | e :: dv => decide (e.data.length = df) && checkDataSizes df dv

/-- `use_p_for_enc_flags`: the bit `l` for the element `l`. -/
def usePForEncFlags : List Element → ℕ
  | [] => 0
  | e :: dv => e.usePForEnc.toNat + 2 * usePForEncFlags dv

/-- `data_size` minus the part that `df` accounts for, as a `uint32_t`. -/
def positionsGap (df : ℕ) (dv : List Element) : ℕ :=
  let dataSize := (dv.map (·.data.length)).sum % 2 ^ 32
  (dataSize + (2 ^ 32 - df * dv.length % 2 ^ 32)) % 2 ^ 32

def encElement (e : Element) : List ℕ :=
  if e.usePForEnc then grnEncPFor e.data else grnEncByte e.data

def estimateElement (e : Element) : ℕ :=
  if e.usePForEnc then grnEncEstimatePFor e.data.length else grnEncEstimateByte e.data.length

/-- `grn_encv` with a buffer: the bytes it writes, `none` for -1. -/
def grnEncv (ii : Layout) (dv : List Element) : Option (List ℕ) :=
  let df := dataFrequency dv
  if df = 0 then some []
  else if !checkDataSizes df dv then none
  else if usePForEncFlags dv = 0 then
    some (grnBEnc ((df * 2 + 1) % 2 ^ 32) ++ dv.flatMap fun e => grnEncByte e.data)
  else
    some (grnEncByte [usePForEncFlags dv * 2, df] ++
      ((if ii.withPosition then grnEncByte [positionsGap df dv] else []) ++
        dv.flatMap encElement))

/-- `grn_encv` with `res == NULL`: the estimated size, `none` for -1. -/
def grnEncvEstimate (ii : Layout) (dv : List Element) : Option ℕ :=
  let df := dataFrequency dv
  if df = 0 then some 0
  else if !checkDataSizes df dv then none
  else if usePForEncFlags dv = 0 then
    some (grnEncEstimateByte 1 + (dv.map fun e => grnEncEstimateByte e.data.length).sum)
  else
    some (grnEncEstimateByte 2 + (if ii.withPosition then grnEncEstimateByte 1 else 0) +
      (dv.map estimateElement).sum)

/-! ## The decoder -/

/-- The loop of `grn_decv` over the elements when nothing is packed: `df` values for
each, for the last one whatever is left of the input. -/
def decvBytes (df : ℕ) : List Element → List ℕ → Except String (List Element)
  | [], _ => .ok []
  | [last], input => do
    let values ← grnDecByteAll input.length input
    return [{ last with data := values }]
  | e :: dv, input => do
    let (values, input) ← grnDecByte df input
    let dv ← decvBytes df dv input
    return { e with data := values } :: dv

/-- One element of the other form, `n` values at the memory `rp`. -/
def decElement (usePFor : Bool) (n : ℕ) (rp : ℕ → ℕ) (input : List ℕ) :
    Except String (List ℕ × List ℕ) :=
  if usePFor then grnDecPFor ((List.range n).map rp) input else grnDecByte n input

/-- The loop of `grn_decv` over the elements when some are packed. `flags` has the bit
of the next element in its lowest place, `rp` is the memory behind the previous
element. -/
def decvElements (df rest : ℕ) : ℕ → (ℕ → ℕ) → List Element → List ℕ →
    Except String (List Element × List ℕ)
  | _, _, [], input => .ok ([], input)
  | flags, rp, _ :: dv, input => do
    let n := if dv = [] then (df + rest) % 2 ^ 32 else df
    let usePFor := decide (flags % 2 = 1)
    let (values, input) ← decElement usePFor n rp input
    let (dv, input) ← decvElements df rest (flags / 2) (fun i => rp (i + n)) dv input
    return (⟨values, usePFor⟩ :: dv, input)

/-- `grn_decv` of the whole input `data` into the array `dv`; `rp` is what the memory
for the values holds before. -/
def grnDecv (ii : Layout) (rp : ℕ → ℕ) (dv : List Element) (data : List ℕ) :
    Except String (List Element) :=
  if data = [] then
    .ok (dv.modifyHead fun e => { e with data := [] })
  else do
    let (df, input) ← grnDecByteCheck data
    if df % 2 = 1 then
      decvBytes (df / 2) dv input
    else
      let flags := df / 2
      let (df, input) ← grnDecByteCheck input
      let (rest, input) ← if ii.withPosition then grnDecByteCheck input else .ok (0, input)
      let (dv, input) ← decvElements df rest flags rp dv input
      if input ≠ [] then
        .error "[ii][decv] input size and used size aren't matched"
      else
        return dv

/-! ## Round trip of the units -/

/-- What the decoder makes of a packed element: only its last, incomplete unit can
lose values. -/
def decodedPFor (values : List ℕ) : List ℕ :=
  values.take (values.length / unitSize * unitSize) ++
    unpacked (values.drop (values.length / unitSize * unitSize))

theorem unpacked_of_length_eq {p : List ℕ} (h : p.length = unitSize) : unpacked p = p := by
  rw [unpacked_eq_iff, h, List.drop_eq_nil_of_le (by rw [h]; decide)]
  intro _ v hv
  cases hv

theorem unpacked_nil : unpacked [] = [] := by
  rw [unpacked_eq_iff]
  intro _ v hv
  cases hv

/-- The first unit of an element is its own affair. -/
theorem decodedPFor_of_le {values : List ℕ} (h : unitSize ≤ values.length) :
    decodedPFor values = values.take unitSize ++ decodedPFor (values.drop unitSize) := by
  have hdiv : values.length / unitSize * unitSize =
      unitSize + (values.length - unitSize) / unitSize * unitSize := by
    unfold unitSize at h ⊢
    omega
  rw [decodedPFor, decodedPFor, List.length_drop, hdiv, List.take_add, List.drop_drop,
    List.append_assoc]

theorem decodedPFor_of_lt {values : List ℕ} (h : values.length < unitSize) :
    decodedPFor values = unpacked values := by
  rw [decodedPFor, Nat.div_eq_of_lt h, Nat.zero_mul, List.take_zero, List.drop_zero,
    List.nil_append]

/-- **Round trip of a packed element.** -/
theorem grnDecPFor_grnEncPFor (values : List ℕ) : ∀ (old rest : List ℕ),
    (∀ v ∈ values, v < 2 ^ 32) → old.length = values.length →
      grnDecPFor old (grnEncPFor values ++ rest) = .ok (decodedPFor values, rest) := by
  -- the induction follows the loop of the encoder
  induction values using grnEncPFor.induct with
  | case1 values hle ih =>
    intro old rest hv hold
    have hlen : (values.take unitSize).length = unitSize := by
      rw [List.length_take, Nat.min_eq_left hle]
    have hunit := @unpack_pack (values.take unitSize) (old.take unitSize)
      (fun v h => hv v (List.mem_of_mem_take h)) hlen.le
      (by rw [List.length_take, List.length_take, hold]) (grnEncPFor (values.drop unitSize) ++ rest)
    have hrest := ih (old.drop unitSize) rest (fun v h => hv v (List.mem_of_mem_drop h))
      (by rw [List.length_drop, List.length_drop, hold])
    rw [grnEncPFor, if_pos hle, grnDecPFor, if_pos (hold ▸ hle), List.append_assoc, hunit,
      unpacked_of_length_eq hlen]
    simp only [hrest, decodedPFor_of_le hle, bind, Except.bind, pure, Except.pure]
  | case2 values hle hpos =>
    intro old rest hv hold
    rw [grnEncPFor, if_neg hle, if_pos hpos, grnDecPFor, if_neg (hold ▸ hle),
      if_pos (hold ▸ hpos), unpack_pack hv (by omega) hold rest, decodedPFor_of_lt (by omega)]
  | case3 values hle hpos =>
    intro old rest hv hold
    have hnil : values = [] := List.eq_nil_of_length_eq_zero (by omega)
    subst hnil
    rw [grnEncPFor, if_neg hle, if_neg hpos, grnDecPFor, if_neg (hold ▸ hle),
      if_neg (hold ▸ hpos), decodedPFor_of_lt (by decide), unpacked_nil, List.nil_append]

/-- The estimate of a packed element, before it is cut to 32 bits. -/
theorem length_grnEncPFor_le (values : List ℕ) : (∀ v ∈ values, v < 2 ^ 32) →
    (grnEncPFor values).length ≤ packMaxSize * (values.length / unitSize + 1) := by
  induction values using grnEncPFor.induct with
  | case1 values hle ih =>
    intro hv
    have hunit := length_pack_le (p := values.take unitSize)
      (fun v h => hv v (List.mem_of_mem_take h)) (by rw [List.length_take]; exact Nat.min_le_left _ _)
    have hrest := ih fun v h => hv v (List.mem_of_mem_drop h)
    have hdiv : values.length / unitSize = (values.length - unitSize) / unitSize + 1 :=
      Nat.div_eq_sub_div (by decide) hle
    rw [List.length_drop] at hrest
    rw [grnEncPFor, if_pos hle, List.length_append, hdiv, Nat.mul_succ]
    omega
  | case2 values hle hpos =>
    intro hv
    have hunit := length_pack_le hv (by omega)
    rw [grnEncPFor, if_neg hle, if_pos hpos]
    exact hunit.trans (Nat.le_mul_of_pos_right _ (Nat.succ_pos _))
  | case3 values hle hpos =>
    intro hv
    rw [grnEncPFor, if_neg hle, if_neg hpos]
    exact Nat.zero_le _

/-- The last, incomplete unit of an element is packed with 32 bits for each value when
more than one value in eight has its highest bit set; it comes back if the values
behind its last group of eight are all zero. -/
def TailKept (values : List ℕ) : Prop :=
  let tail := values.drop (values.length / unitSize * unitSize)
  tail.countP (fun v => decide (v < 2 ^ 31)) < tail.length - tail.length / 8 →
    ∀ v ∈ tail.drop (tail.length / 8 * 8), v = 0

instance : DecidablePred TailKept := fun _ =>
  inferInstanceAs (Decidable (_ < _ → ∀ v ∈ _, v = 0))

theorem decodedPFor_eq_iff {values : List ℕ} (hv : ∀ v ∈ values, v < 2 ^ 32) :
    decodedPFor values = values ↔ TailKept values := by
  have htail := unpacked_eq_iff (values.drop (values.length / unitSize * unitSize))
  rw [packedWidth_eq_iff fun v h => hv v (List.mem_of_mem_drop h)] at htail
  rw [TailKept, ← fitting, ← htail, decodedPFor]
  constructor
  · intro h
    rw [← List.append_right_inj (values.take (values.length / unitSize * unitSize)), h,
      List.take_append_drop]
  · intro h
    rw [h, List.take_append_drop]

/-! ## Round trip of the elements -/

/-- What the decoder makes of an element. -/
def decoded (e : Element) : List ℕ := if e.usePForEnc then decodedPFor e.data else e.data

theorem decElement_encElement {e : Element} (he : ∀ v ∈ e.data, v < 2 ^ 32) (rp : ℕ → ℕ)
    (rest : List ℕ) :
    decElement e.usePForEnc e.data.length rp (encElement e ++ rest) = .ok (decoded e, rest) := by
  unfold decElement encElement decoded
  rcases e.usePForEnc with _ | _
  · exact grnDecByte_grnEncByte he rest
  · exact grnDecPFor_grnEncPFor e.data _ rest he (by simp)

/-- The sizes that `grn_decv` gives the elements. -/
def SizesMatch (df rest : ℕ) : List Element → Prop
  | [] => True
  | [last] => last.data.length = (df + rest) % 2 ^ 32
  | e :: dv => e.data.length = df ∧ SizesMatch df rest dv

theorem sizesMatch_cons {df rest : ℕ} {e : Element} {dv : List Element}
    (h : SizesMatch df rest (e :: dv)) :
    e.data.length = (if dv = [] then (df + rest) % 2 ^ 32 else df) ∧ SizesMatch df rest dv := by
  cases dv with
  | nil => exact ⟨h, trivial⟩
  | cons f dv => exact ⟨h.1, h.2⟩

/-- **Round trip of the packed form**, behind its header. -/
theorem decvElements_encElement {df rest : ℕ} {dv old : List Element} {rp : ℕ → ℕ}
    (hv : ∀ e ∈ dv, ∀ v ∈ e.data, v < 2 ^ 32) (hsize : SizesMatch df rest dv)
    (hold : old.length = dv.length) :
    decvElements df rest (usePForEncFlags dv) rp old (dv.flatMap encElement) =
      .ok (dv.map fun e => ⟨decoded e, e.usePForEnc⟩, []) := by
  induction dv generalizing old rp with
  | nil =>
    obtain rfl := List.eq_nil_of_length_eq_zero hold
    rfl
  | cons e dv ih =>
    obtain ⟨o, old, rfl⟩ := List.exists_cons_of_length_eq_add_one hold
    obtain ⟨hlen, hsize⟩ := sizesMatch_cons hsize
    have hold : old.length = dv.length := by simpa using hold
    have hnil : old = [] ↔ dv = [] := by
      rw [← List.length_eq_zero_iff, ← List.length_eq_zero_iff, hold]
    have hbit : decide (usePForEncFlags (e :: dv) % 2 = 1) = e.usePForEnc := by
      rw [usePForEncFlags]
      rcases e.usePForEnc with _ | _ <;> simp
    have hnext : usePForEncFlags (e :: dv) / 2 = usePForEncFlags dv := by
      rw [usePForEncFlags]
      have := Bool.toNat_lt e.usePForEnc
      omega
    have hdec := decElement_encElement (hv e (List.mem_cons_self ..)) rp (dv.flatMap encElement)
    have hrec := @ih old (fun i => rp (i + e.data.length))
      (fun f hf => hv f (List.mem_cons_of_mem _ hf)) hsize hold
    simp only [decvElements, hnil, ← hlen, hbit, hnext, List.flatMap_cons, hdec, hrec,
      bind, Except.bind, pure, Except.pure, List.map_cons]

/-- **Round trip of the plain form**, behind its header. -/
theorem decvBytes_grnEncByte {df : ℕ} {dv old : List Element}
    (hv : ∀ e ∈ dv, ∀ v ∈ e.data, v < 2 ^ 32) (hsize : checkDataSizes df dv)
    (hold : old.length = dv.length) :
    (decvBytes df old (dv.flatMap fun e => grnEncByte e.data)).map (List.map Element.data) =
      .ok (dv.map Element.data) := by
  induction dv generalizing old with
  | nil =>
    obtain rfl := List.eq_nil_of_length_eq_zero hold
    rfl
  | cons e dv ih =>
    obtain ⟨o, old, rfl⟩ := List.exists_cons_of_length_eq_add_one hold
    have he := hv e (List.mem_cons_self ..)
    have hold : old.length = dv.length := by simpa using hold
    cases dv with
    | nil =>
      obtain rfl := List.eq_nil_of_length_eq_zero hold
      have hall := grnDecByteAll_grnEncByte he (length_le_length_grnEncByte e.data)
      simp only [decvBytes, List.flatMap_cons, List.flatMap_nil, List.append_nil, hall, bind,
        Except.bind, pure, Except.pure, Except.map, List.map_cons, List.map_nil]
    | cons f dv =>
      obtain ⟨g, old, rfl⟩ := List.exists_cons_of_length_eq_add_one hold
      simp only [checkDataSizes, Bool.and_eq_true, decide_eq_true_eq] at hsize
      have hrec := @ih (g :: old) (fun d hd => hv d (List.mem_cons_of_mem _ hd)) hsize.2 hold
      have hdec := grnDecByte_grnEncByte he ((f :: dv).flatMap fun e => grnEncByte e.data)
      rw [hsize.1] at hdec
      rcases hr : decvBytes df (g :: old) ((f :: dv).flatMap fun e => grnEncByte e.data)
        with err | r
      · rw [hr] at hrec
        cases hrec
      · rw [hr] at hrec
        rw [List.flatMap_cons, decvBytes, hdec]
        simp only [bind, Except.bind, pure, Except.pure, hr, Except.map, List.map_cons,
          Except.ok.injEq] at hrec ⊢
        rw [hrec]
        simp

/-! ## How many values come back -/

theorem length_grnDecPFor {values input : List ℕ} {r : List ℕ × List ℕ}
    (h : grnDecPFor values input = .ok r) : r.1.length = values.length := by
  fun_induction grnDecPFor values input generalizing r with
  | case1 values input hle hu => cases h
  | case2 values input hle unit input' hu ih =>
    obtain ⟨s, hs, hr⟩ := bind_eq_ok h
    obtain rfl := Except.ok.inj hr
    rw [List.length_append, length_unpack hu, ih hs, ← List.length_append, List.take_append_drop]
  | case3 values input hle hpos hu => cases h
  | case4 values input hle hpos s hu =>
    obtain rfl := Except.ok.inj h
    exact length_unpack hu
  | case5 values input hle hpos =>
    obtain rfl := Except.ok.inj h
    simp only [List.length_nil]
    omega

theorem length_grnDecByte {n : ℕ} {input : List ℕ} {r : List ℕ × List ℕ}
    (h : grnDecByte n input = .ok r) : r.1.length = n := by
  induction n generalizing input r with
  | zero =>
    obtain rfl := Except.ok.inj h
    rfl
  | succ n ih =>
    obtain ⟨s, hs, hr⟩ := bind_eq_ok h
    obtain ⟨t, ht, hr⟩ := bind_eq_ok hr
    obtain rfl := Except.ok.inj hr
    rw [List.length_cons, ih ht]

theorem length_decElement {usePFor : Bool} {n : ℕ} {rp : ℕ → ℕ} {input : List ℕ}
    {r : List ℕ × List ℕ} (h : decElement usePFor n rp input = .ok r) : r.1.length = n := by
  unfold decElement at h
  split_ifs at h
  · rw [length_grnDecPFor h, List.length_map, List.length_range]
  · exact length_grnDecByte h

/-- The packed form gives each element the size its header says. -/
theorem sizesMatch_of_decvElements {df rest flags : ℕ} {rp : ℕ → ℕ} {dv : List Element}
    {input : List ℕ} {r : List Element × List ℕ}
    (h : decvElements df rest flags rp dv input = .ok r) :
    r.1.length = dv.length ∧ SizesMatch df rest r.1 := by
  induction dv generalizing flags rp input r with
  | nil =>
    obtain rfl := Except.ok.inj h
    exact ⟨rfl, trivial⟩
  | cons e dv ih =>
    obtain ⟨s, hs, h⟩ := bind_eq_ok h
    obtain ⟨t, ht, h⟩ := bind_eq_ok h
    obtain rfl := Except.ok.inj h
    obtain ⟨hlen, hsizes⟩ := ih ht
    have hn := length_decElement hs
    refine ⟨by rw [List.length_cons, List.length_cons, hlen], ?_⟩
    rcases hr : t.1 with _ | ⟨f, dv'⟩
    · rw [hr] at hlen
      rw [if_pos (List.eq_nil_of_length_eq_zero hlen.symm)] at hn
      exact hn
    · rw [hr] at hlen hsizes
      rw [if_neg (List.ne_nil_of_length_eq_add_one hlen.symm)] at hn
      exact ⟨hn, hsizes⟩

/-! ## The headers -/

/-- The packed form behind its header. -/
def decvPacked (df rest flags : ℕ) (rp : ℕ → ℕ) (dv : List Element) (input : List ℕ) :
    Except String (List Element) := do
  let (dv, input) ← decvElements df rest flags rp dv input
  if input ≠ [] then
    .error "[ii][decv] input size and used size aren't matched"
  else
    return dv

theorem grnDecv_plain {ii : Layout} {rp : ℕ → ℕ} {old : List Element} {df : ℕ}
    (hdf : df * 2 + 1 < 2 ^ 32) (body : List ℕ) :
    grnDecv ii rp old (grnBEnc (df * 2 + 1) ++ body) = decvBytes df old body := by
  have hne : grnBEnc (df * 2 + 1) ++ body ≠ [] := fun h =>
    grnBEnc_ne_nil _ (List.append_eq_nil_iff.mp h).1
  have hdiv : (df * 2 + 1) / 2 = df := by omega
  rw [grnDecv, if_neg hne, grnDecByteCheck_grnBEnc hdf]
  simp only [bind, Except.bind, hdiv, if_pos (show (df * 2 + 1) % 2 = 1 by omega)]

theorem grnDecv_packed {ii : Layout} {rp : ℕ → ℕ} {old : List Element} {df rest flags : ℕ}
    (hflags : flags * 2 < 2 ^ 32) (hdf : df < 2 ^ 32) (hrest : rest < 2 ^ 32) (body : List ℕ) :
    grnDecv ii rp old (grnEncByte [flags * 2, df] ++
      ((if ii.withPosition then grnEncByte [rest] else []) ++ body)) =
        decvPacked df (if ii.withPosition then rest else 0) flags rp old body := by
  have hbytes : grnEncByte [flags * 2, df] = grnBEnc (flags * 2) ++ grnBEnc df := by simp
  have hne : grnBEnc (flags * 2) ++ (grnBEnc df ++
      ((if ii.withPosition then grnEncByte [rest] else []) ++ body)) ≠ [] := fun h =>
    grnBEnc_ne_nil _ (List.append_eq_nil_iff.mp h).1
  rw [hbytes, List.append_assoc, grnDecv, if_neg hne, grnDecByteCheck_grnBEnc hflags]
  simp only [bind, Except.bind, if_neg (show ¬ flags * 2 % 2 = 1 by omega)]
  rw [grnDecByteCheck_grnBEnc hdf]
  rcases hpos : ii.withPosition with _ | _
  · simp [decvPacked, bind, Except.bind]
  · have hgap := grnDecByteCheck_grnBEnc hrest body
    simp [decvPacked, bind, Except.bind, hgap]

theorem usePForEncFlags_lt (dv : List Element) : usePForEncFlags dv < 2 ^ dv.length := by
  induction dv with
  | nil => exact Nat.one_pos
  | cons e dv ih =>
    have := Bool.toNat_lt e.usePForEnc
    rw [usePForEncFlags, List.length_cons, Nat.pow_succ]
    omega

theorem usePForEncFlags_eq_zero {dv : List Element} :
    usePForEncFlags dv = 0 ↔ ∀ e ∈ dv, e.usePForEnc = false := by
  induction dv with
  | nil => simp [usePForEncFlags]
  | cons e dv ih =>
    rw [usePForEncFlags, List.forall_mem_cons, ← ih]
    rcases e.usePForEnc with _ | _ <;> simp

/-- The values of the last element that `df` does not account for. -/
theorem exists_excess {df : ℕ} {dv : List Element} (hne : dv ≠ []) (h : checkDataSizes df dv) :
    ∃ excess, (dv.map (·.data.length)).sum = df * dv.length + excess ∧
      (∀ rest, SizesMatch df rest dv ↔ (df + rest) % 2 ^ 32 = df + excess) ∧
      ((∀ e ∈ dv, e.data.length = df) ↔ excess = 0) := by
  induction dv with
  | nil => exact absurd rfl hne
  | cons e dv ih =>
    cases dv with
    | nil =>
      have hle : df ≤ e.data.length := of_decide_eq_true h
      refine ⟨e.data.length - df, ?_, fun rest => ?_, ?_⟩
      · simp only [List.map_cons, List.map_nil, List.sum_cons, List.sum_nil, List.length_cons,
          List.length_nil]
        omega
      · rw [SizesMatch]
        omega
      · rw [List.forall_mem_singleton]
        omega
    | cons f dv =>
      simp only [checkDataSizes, Bool.and_eq_true, decide_eq_true_eq] at h
      obtain ⟨excess, hsum, hmatch, hall⟩ := ih (List.cons_ne_nil _ _) h.2
      refine ⟨excess, ?_, fun rest => ?_, ?_⟩
      · have hlen : (e :: f :: dv).length = (f :: dv).length + 1 := rfl
        rw [List.map_cons, List.sum_cons, hsum, h.1, hlen, Nat.mul_succ]
        omega
      · rw [SizesMatch, hmatch]
        · exact ⟨And.right, fun hr => ⟨h.1, hr⟩⟩
        · simp
      · rw [List.forall_mem_cons, hall]
        exact ⟨And.right, fun hx => ⟨h.1, hx⟩⟩

/-! ## The estimate -/

/-- The estimate of an element, not cut to 32 bits. -/
def sizeBound (e : Element) : ℕ :=
  if e.usePForEnc then packMaxSize * (e.data.length / unitSize + 1)
  else grnBEncMaxSize * e.data.length

/-- The estimate of a vector with the longest header, not cut to 32 bits. -/
def totalSizeBound (dv : List Element) : ℕ := 3 * grnBEncMaxSize + (dv.map sizeBound).sum

theorem length_encElement_le {e : Element} (he : ∀ v ∈ e.data, v < 2 ^ 32) :
    (encElement e).length ≤ sizeBound e := by
  unfold encElement sizeBound
  rcases e.usePForEnc with _ | _
  · exact length_grnEncByte_le e.data
  · exact length_grnEncPFor_le e.data he

theorem estimateElement_eq {e : Element} (h : sizeBound e < 2 ^ 32) :
    estimateElement e = sizeBound e := by
  unfold sizeBound at h ⊢
  unfold estimateElement
  rcases hu : e.usePForEnc with _ | _ <;> rw [hu] at h
  · exact Nat.mod_eq_of_lt h
  · exact Nat.mod_eq_of_lt h

theorem length_data_le_sizeBound (e : Element) : e.data.length ≤ sizeBound e := by
  unfold sizeBound packMaxSize unitSize grnBEncMaxSize
  split_ifs <;> omega

theorem sizeBound_le_sum {e : Element} {dv : List Element} (he : e ∈ dv) :
    sizeBound e ≤ (dv.map sizeBound).sum :=
  List.single_le_sum (fun _ _ => Nat.zero_le _) _ (List.mem_map_of_mem he)

/-- The elements take no more than their estimates. -/
theorem length_flatMap_encElement_le {dv : List Element}
    (hv : ∀ e ∈ dv, ∀ v ∈ e.data, v < 2 ^ 32) (hsize : (dv.map sizeBound).sum < 2 ^ 32) :
    (dv.flatMap encElement).length ≤ (dv.map estimateElement).sum := by
  have hest : dv.map estimateElement = dv.map sizeBound := List.map_congr_left fun e he =>
    estimateElement_eq ((sizeBound_le_sum he).trans_lt hsize)
  rw [hest, List.length_flatMap]
  exact List.sum_le_sum fun e he => length_encElement_le (hv e he)

theorem encElement_plain {e : Element} (h : e.usePForEnc = false) :
    encElement e = grnEncByte e.data := by
  rw [encElement, h]
  rfl

theorem estimateElement_plain {e : Element} (h : e.usePForEnc = false) :
    estimateElement e = grnEncEstimateByte e.data.length := by
  rw [estimateElement, h]
  rfl

/-! ## Round trip of the vector -/

/-- Encoding and decoding gives back the values of each element and uses up the input,
whatever the memory and the vector of the decoder held before, and the bytes written
are within the estimate. -/
def RoundTrips (ii : Layout) (dv : List Element) : Prop :=
  ∃ bytes estimated, grnEncv ii dv = some bytes ∧ grnEncvEstimate ii dv = some estimated ∧
    bytes.length ≤ estimated ∧
    ∀ (rp : ℕ → ℕ) (old : List Element), old.length = dv.length →
      (grnDecv ii rp old bytes).map (List.map Element.data) = .ok (dv.map Element.data)

theorem SizesMatch.congr {df rest : ℕ} {dv dv' : List Element} (h : SizesMatch df rest dv)
    (hdata : dv.map Element.data = dv'.map Element.data) : SizesMatch df rest dv' := by
  induction dv generalizing dv' with
  | nil =>
    obtain rfl := List.map_eq_nil_iff.mp hdata.symm
    trivial
  | cons e dv ih =>
    rcases dv' with _ | ⟨e', dv'⟩
    · cases hdata
    rw [List.map_cons, List.map_cons, List.cons.injEq] at hdata
    obtain ⟨hlen, hrest⟩ := sizesMatch_cons h
    have hrest := ih hrest hdata.2
    cases dv' with
    | nil =>
      rw [if_pos (List.map_eq_nil_iff.mp hdata.2), hdata.1] at hlen
      exact hlen
    | cons f' dv' =>
      have hne : dv ≠ [] := by
        rintro rfl
        cases hdata.2
      rw [if_neg hne, hdata.1] at hlen
      exact ⟨hlen, hrest⟩

section RoundTrip

variable {ii : Layout} {dv : Datavecs ii}

theorem Datavecs.elements_ne_nil (dv : Datavecs ii) : dv.elements ≠ [] := by
  have hlen := dv.length_elements
  unfold Layout.nElements at hlen
  intro h
  rw [h, List.length_nil] at hlen
  omega

theorem Datavecs.length_le (dv : Datavecs ii) : dv.elements.length ≤ 5 := by
  have h1 := Bool.toNat_lt ii.withSection
  have h2 := Bool.toNat_lt ii.withWeight
  have h3 := Bool.toNat_lt ii.withPosition
  rw [dv.length_elements, Layout.nElements]
  omega

/-- Without packed elements every vector comes back. -/
theorem roundTrips_plain (hdf : 0 < dataFrequency dv.elements)
    (hcheck : checkDataSizes (dataFrequency dv.elements) dv.elements)
    (hsize : totalSizeBound dv.elements < 2 ^ 32) (hflags : usePForEncFlags dv.elements = 0) :
    RoundTrips ii dv.elements := by
  have hplain := usePForEncFlags_eq_zero.mp hflags
  have hsum : (dv.elements.map sizeBound).sum < 2 ^ 32 := by
    unfold totalSizeBound at hsize
    omega
  -- the first element is in the byte code too, so its estimate bounds `df`
  obtain ⟨e, rest, hcons⟩ := List.exists_cons_of_ne_nil dv.elements_ne_nil
  have hfirst := sizeBound_le_sum (hcons ▸ List.mem_cons_self .. : e ∈ dv.elements)
  have hlen : sizeBound e = grnBEncMaxSize * dataFrequency dv.elements := by
    rw [sizeBound, hplain e (hcons ▸ List.mem_cons_self ..), hcons]
    rfl
  have hdf32 : dataFrequency dv.elements * 2 + 1 < 2 ^ 32 := by
    unfold grnBEncMaxSize at hlen
    omega
  have hbytes : dv.elements.flatMap (fun e => grnEncByte e.data) =
      dv.elements.flatMap encElement :=
    List.flatMap_congr fun e he => (encElement_plain (hplain e he)).symm
  have hest : dv.elements.map (fun e => grnEncEstimateByte e.data.length) =
      dv.elements.map estimateElement :=
    List.map_congr_left fun e he => (estimateElement_plain (hplain e he)).symm
  have henc : grnEncv ii dv.elements = some (grnBEnc (dataFrequency dv.elements * 2 + 1) ++
      dv.elements.flatMap fun e => grnEncByte e.data) := by
    rw [grnEncv, if_neg hdf.ne', hcheck, hflags, Nat.mod_eq_of_lt hdf32]
    rfl
  have hestimate : grnEncvEstimate ii dv.elements = some (grnEncEstimateByte 1 +
      (dv.elements.map fun e => grnEncEstimateByte e.data.length).sum) := by
    rw [grnEncvEstimate, if_neg hdf.ne', hcheck, hflags]
    rfl
  refine ⟨_, _, henc, hestimate, ?_, ?_⟩
  · have h1 := length_grnBEnc_le (dataFrequency dv.elements * 2 + 1)
    have h2 := length_flatMap_encElement_le dv.data_lt hsum
    rw [List.length_append, hbytes, hest]
    exact Nat.add_le_add h1 h2
  · intro rp old hold
    rw [grnDecv_plain hdf32]
    exact decvBytes_grnEncByte dv.data_lt hcheck hold

/-- With packed elements a vector comes back when its sizes are those of the header and
no element loses its tail. -/
theorem roundTrips_packed_iff (hdf : 0 < dataFrequency dv.elements)
    (hcheck : checkDataSizes (dataFrequency dv.elements) dv.elements)
    (hsize : totalSizeBound dv.elements < 2 ^ 32) (hflags : usePForEncFlags dv.elements ≠ 0) :
    RoundTrips ii dv.elements ↔ (∀ e ∈ dv.elements, decoded e = e.data) ∧
      (ii.withPosition ∨ ∀ e ∈ dv.elements, e.data.length = dataFrequency dv.elements) := by
  obtain ⟨excess, hsum, hmatch, hall⟩ := exists_excess dv.elements_ne_nil hcheck
  generalize hd : dataFrequency dv.elements = df at hdf hcheck hsum hmatch hall ⊢
  have hbound : (dv.elements.map sizeBound).sum < 2 ^ 32 := by
    unfold totalSizeBound at hsize
    omega
  have hvalues : (dv.elements.map (·.data.length)).sum < 2 ^ 32 :=
    (List.sum_le_sum fun e _ => length_data_le_sizeBound e).trans_lt hbound
  have hlen : 0 < dv.elements.length := List.length_pos_iff.mpr dv.elements_ne_nil
  have hmul : df ≤ df * dv.elements.length := Nat.le_mul_of_pos_right _ hlen
  have hgap : positionsGap df dv.elements = excess := by
    have h1 : (df * dv.elements.length + excess) % 2 ^ 32 = df * dv.elements.length + excess :=
      Nat.mod_eq_of_lt (hsum ▸ hvalues)
    have h2 : df * dv.elements.length % 2 ^ 32 = df * dv.elements.length :=
      Nat.mod_eq_of_lt (by omega)
    simp only [positionsGap, hsum, h1, h2]
    omega
  have hflags32 : usePForEncFlags dv.elements * 2 < 2 ^ 32 := by
    have h1 := usePForEncFlags_lt dv.elements
    have h2 : 2 ^ dv.elements.length ≤ 2 ^ 5 := Nat.pow_le_pow_right (by omega) dv.length_le
    omega
  have henc : grnEncv ii dv.elements = some (grnEncByte [usePForEncFlags dv.elements * 2, df] ++
      ((if ii.withPosition then grnEncByte [excess] else []) ++
        dv.elements.flatMap encElement)) := by
    simp only [grnEncv, hd, if_neg hdf.ne', hcheck, if_neg hflags, hgap]
    rfl
  have hestimate : grnEncvEstimate ii dv.elements = some (grnEncEstimateByte 2 +
      (if ii.withPosition then grnEncEstimateByte 1 else 0) +
        (dv.elements.map estimateElement).sum) := by
    simp only [grnEncvEstimate, hd, if_neg hdf.ne', hcheck, if_neg hflags]
    rfl
  -- what the decoder does with the bytes, for the size that the header announces
  have hdec : ∀ rp old, grnDecv ii rp old _ = _ := fun rp old =>
    @grnDecv_packed ii rp old _ _ _ hflags32 (show df < 2 ^ 32 by omega)
      (show excess < 2 ^ 32 by omega) (dv.elements.flatMap encElement)
  have hok : SizesMatch df (if ii.withPosition then excess else 0) dv.elements ↔
      (ii.withPosition ∨ ∀ e ∈ dv.elements, e.data.length = df) := by
    rw [hmatch, hall]
    rcases ii.withPosition with _ | _
    · simp only [Bool.false_eq_true, if_false, false_or]
      omega
    · simp only [if_true, true_or, iff_true]
      omega
  rw [← hok]
  constructor
  · rintro ⟨bytes, -, hbytes, -, -, hround⟩
    obtain rfl := Option.some.inj (henc.symm.trans hbytes)
    have hround := hround (fun _ => 0) dv.elements rfl
    rw [hdec] at hround
    obtain ⟨r, hr, hdata⟩ := map_eq_ok hround
    obtain ⟨s, hs, hr⟩ := bind_eq_ok hr
    -- the sizes first: the decoder gives each element the size of the header
    obtain ⟨-, hsizes⟩ := sizesMatch_of_decvElements hs
    simp only at hr
    split_ifs at hr with hend
    obtain rfl := Except.ok.inj hr
    have hdv := hsizes.congr hdata
    rw [decvElements_encElement dv.data_lt hdv rfl] at hs
    obtain rfl := Except.ok.inj hs
    rw [List.map_map] at hdata
    exact ⟨List.map_inj_left.mp hdata, hdv⟩
  · rintro ⟨hkept, hsizes⟩
    refine ⟨_, _, henc, hestimate, ?_, ?_⟩
    · have h1 := length_grnEncByte_le [usePForEncFlags dv.elements * 2, df]
      have h2 := length_grnEncByte_le [excess]
      have h3 := length_flatMap_encElement_le dv.data_lt hbound
      rw [List.length_append, List.length_append, ← Nat.add_assoc]
      refine Nat.add_le_add (Nat.add_le_add h1 ?_) h3
      rcases ii.withPosition with _ | _
      · exact Nat.le_refl 0
      · exact h2
    · intro rp old hold
      rw [hdec, decvPacked, decvElements_encElement dv.data_lt hsizes hold]
      simp only [bind, Except.bind, ne_eq, not_true_eq_false, if_false, pure, Except.pure,
        Except.map, List.map_map]
      exact congrArg _ (List.map_congr_left fun e he => hkept e he)

/-- **The postings codec.** A vector with at least one posting, all of whose sizes fit in
32 bits, comes back through the codec exactly when no packed element loses its tail
and, if anything is packed, an index without positions holds no surplus values. -/
theorem roundTrips_iff (hdf : 1 ≤ dataFrequency dv.elements)
    (hcheck : checkDataSizes (dataFrequency dv.elements) dv.elements)
    (hsize : totalSizeBound dv.elements < 2 ^ 32) :
    RoundTrips ii dv.elements ↔
      (∀ e ∈ dv.elements, e.usePForEnc → TailKept e.data) ∧
      ((∃ e ∈ dv.elements, e.usePForEnc) → ii.withPosition ∨
        ∀ e ∈ dv.elements, e.data.length = dataFrequency dv.elements) := by
  have hdecoded : (∀ e ∈ dv.elements, decoded e = e.data) ↔
      ∀ e ∈ dv.elements, e.usePForEnc → TailKept e.data := by
    refine forall₂_congr fun e he => ?_
    rw [← decodedPFor_eq_iff (dv.data_lt e he), decoded]
    rcases e.usePForEnc with _ | _ <;> simp
  by_cases hflags : usePForEncFlags dv.elements = 0
  · have hplain := usePForEncFlags_eq_zero.mp hflags
    have hround := roundTrips_plain hdf hcheck hsize hflags
    refine iff_of_true hround ⟨fun e he hu => ?_, fun ⟨e, he, hu⟩ => ?_⟩
    · rw [hplain e he] at hu
      cases hu
    · rw [hplain e he] at hu
      cases hu
  · have hused : ∃ e ∈ dv.elements, e.usePForEnc = true := by
      by_contra h
      refine hflags (usePForEncFlags_eq_zero.mpr fun e he => ?_)
      rw [← Bool.not_eq_true]
      exact fun hu => h ⟨e, he, hu⟩
    rw [roundTrips_packed_iff hdf hcheck hsize hflags, hdecoded]
    simp only [hused, true_imp_iff]

end RoundTrip

/-- Three postings of an index with weights, flagged as `datavec_set_data_size` does:
three records are enough to pack the term frequencies and the weights. -/
def threePostings (weight : ℕ) (h : weight < 2 ^ 32) : Datavecs ⟨false, true, false⟩ where
  elements := [⟨[1, 1, 1], false⟩, ⟨[0, 0, 0], true⟩, ⟨[weight, weight, weight], true⟩]
  length_elements := rfl
  data_lt := by simpa using h

theorem roundTrips_threePostings_small :
    RoundTrips ⟨false, true, false⟩ (threePostings 5 (by decide)).elements :=
  (roundTrips_iff (by decide) (by decide) (by decide)).mpr (by decide)

theorem not_roundTrips_threePostings :
    ¬ RoundTrips ⟨false, true, false⟩ (threePostings 0x80000000 (by decide)).elements := by
  rw [roundTrips_packed_iff (by decide) (by decide) (by decide) (by decide)]
  rintro ⟨hkept, -⟩
  -- the weights are one incomplete unit of the width 32
  have hweights : decodedPFor [0x80000000, 0x80000000, 0x80000000] =
      [0x80000000, 0x80000000, 0x80000000] :=
    hkept ⟨[0x80000000, 0x80000000, 0x80000000], true⟩ (by decide)
  rw [decodedPFor_eq_iff (by decide)] at hweights
  revert hweights
  decide

end Groonga.Ii
