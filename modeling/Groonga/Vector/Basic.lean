import Groonga.Ii.ByteCode
import Groonga.Lib.Binary32

/-!
# Vectors of texts

The elements of a vector are sections of one body: each has its place and its length, a weight and
a domain. A vector is packed as a header, which has the number of elements and their lengths, its
body, and a footer with the weights and the domains when one of them is not zero. What is packed is
added to a vector: the array of sections grows first, then the lengths are read, the body is
written, and what is left is the footer.

Bytes are natural numbers. The bytes behind the data that can be read are `behind`; what would be
read behind them, and what would be written behind the array of sections, is a fault.
-/

namespace Groonga.Vector

open Ii Lib

/-! ## Vectors -/

/-- A `grn_section`. The weight is the bits of a float. -/
structure Section where
  offset : ℕ
  length : ℕ
  weight : ℕ
  domain : ℕ
  deriving DecidableEq

/-- A `GRN_VECTOR`. `capacity` is the number of places of its array of sections. -/
structure GrnVector where
  sections : List Section
  capacity : ℕ
  body : List ℕ
  deriving DecidableEq

/-- `S_SECTIONS_UNIT`. -/
def sSectionsUnit : ℕ := 0x100

/-- What `grn_vector_get_element_float` gives for a section: the length, the bytes, the weight and
the domain. -/
def GrnVector.element (v : GrnVector) (s : Section) : ℕ × List ℕ × ℕ × ℕ :=
  (s.length, (v.body.drop s.offset).take s.length, s.weight, s.domain)

/-- The place behind the last section. -/
def nextOffset (sections : List Section) : ℕ :=
  match sections.getLast? with
  | some s => (s.offset + s.length) % 2 ^ 32
  | none => 0

/-- `grn_vector_delimit`. -/
def GrnVector.delimit (v : GrnVector) (weight domain : ℕ) : Option GrnVector :=
  let n := v.sections.length
  let capacity := if n % sSectionsUnit = 0 then n + sSectionsUnit else v.capacity
  if capacity ≤ n then none
  else
    let offset := nextOffset v.sections
    let length := (v.body.length + 2 ^ 32 - offset) % 2 ^ 32
    some { v with
      sections := v.sections ++ [⟨offset, length, weight, domain⟩]
      capacity := capacity }

/-- `grn_vector_add_element_float`. -/
def GrnVector.addElementFloat (v : GrnVector) (str : List ℕ) (weight domain : ℕ) :
    Option GrnVector :=
  { v with body := v.body ++ str }.delimit weight domain

/-! ## Packing -/

/-- How weights are packed: by no flag, by `GRN_VECTOR_PACK_WEIGHT_FLOAT32` and by
`GRN_VECTOR_PACK_WEIGHT_BFLOAT16`. A build without `GRN_HAVE_BFLOAT16` packs them as `float32`
by the last one. -/
inductive WeightForm
  | integer
  | float32
  | bfloat16
  deriving DecidableEq

/-- A weight in the footer. The language does not say what an integer is that is made of a weight
that has none. -/
def packWeight : WeightForm → ℕ → List ℕ
  | .integer, weight => grnBEnc ((Binary32.toNat weight).getD 0)
  | .float32, weight =>
    [weight % 0x100, weight / 0x100 % 0x100, weight / 0x10000 % 0x100, weight / 0x1000000 % 0x100]
  | .bfloat16, weight =>
    let weight := Binary32.shiftEven weight 16
    [weight % 0x100, weight / 0x100 % 0x100]

/-- Whether a weight is greater than zero. -/
def positive (weight : ℕ) : Bool := 0 < weight && weight ≤ 0x7f800000

/-- The sections of a slice. -/
def GrnVector.slice (v : GrnVector) (offset n : ℕ) : List Section := (v.sections.drop offset).take n

/-- The header of sections. -/
def packHeader (slice : List Section) : List ℕ :=
  grnBEnc slice.length ++ grnEncByte (slice.map (·.length))

/-- The footer of sections. -/
def packFooter (form : WeightForm) (slice : List Section) : List ℕ :=
  if slice.any fun s => positive s.weight || s.domain ≠ 0 then
    slice.flatMap fun s => packWeight form s.weight ++ grnBEnc s.domain
  else []

/-- `grn_vector_pack`: the header, the body and the footer. The body is that of the whole vector.
There is no result for a slice that is not in the vector. -/
def GrnVector.pack (v : GrnVector) (offset n : ℕ) (form : WeightForm) :
    Option (List ℕ × List ℕ × List ℕ) :=
  if v.sections.length < offset + n then none
  else some (packHeader (v.slice offset n), v.body, packFooter form (v.slice offset n))

/-! ## Unpacking -/

/-- How a loop ends: by a fault, before the end of the data is passed, or with what it read and what
is left. -/
inductive Loop (α : Type)
  | fault
  | short
  | done (value : α) (p : List ℕ)

/-- A loop that read something before. -/
def Loop.cons {α : Type} (value : α) : Loop (List α) → Loop (List α)
  | .fault => .fault
  | .short => .short
  | .done values p => .done (value :: values) p

/-- The loop of `grn_vector_unpack` that reads the lengths, from the place `i` of the array of
sections on. `behind` is the number of bytes behind the data. -/
def lengthsLoop (behind capacity : ℕ) : ℕ → ℕ → List ℕ → Loop (List ℕ)
  | 0, _, p => .done [] p
  | n + 1, i, p =>
    if p.length ≤ behind then .short
    else match grnDecByteCheck p with
      | .error _ => .fault
      | .ok (length, p) =>
        if capacity ≤ i then .fault
        else (lengthsLoop behind capacity n (i + 1) p).cons length

/-- A weight of the footer and what is behind it. -/
def readWeight : WeightForm → List ℕ → Option (ℕ × List ℕ)
  | .integer, p =>
    match grnDecByteCheck p with
    | .error _ => none
    | .ok (weight, p) => some (Binary32.ofNat weight, p)
  | .float32, a :: b :: c :: d :: p => some (a + b * 0x100 + c * 0x10000 + d * 0x1000000, p)
  | .bfloat16, a :: b :: p => some ((a + b * 0x100) * 2 ^ 16, p)
  | _, _ => none

/-- The loop of `grn_vector_unpack` that reads the weights and the domains. -/
def footerLoop (form : WeightForm) (behind : ℕ) : ℕ → List ℕ → Loop (List (ℕ × ℕ))
  | 0, p => .done [] p
  | n + 1, p =>
    if p.length ≤ behind then .short
    else match readWeight form p with
      | none => .fault
      | some (weight, p) =>
        match grnDecByteCheck p with
        | .error _ => .fault
        | .ok (domain, p) => (footerLoop form behind n p).cons (weight, domain)

/-- The sections with lengths, weights and domains, from a place of the body on. -/
def newSections : ℕ → List ℕ → List (ℕ × ℕ) → List Section
  | start, length :: lengths, (weight, domain) :: pairs =>
    ⟨start % 2 ^ 32, length, weight, domain⟩ :: newSections (start + length) lengths pairs
  | _, _, _ => []

/-- How `grn_vector_unpack` ends: with a fault, with an error, or with the number of bytes it
used. -/
inductive Outcome
  | fault
  | error (vector : GrnVector)
  | ok (vector : GrnVector) (usedSize : ℕ)
  deriving DecidableEq

/-- The places of the array of sections for `n` more of them, as `grn_vector_unpack` computes them:
nothing when the array does not grow. -/
def grownCapacity (n₀ n : ℕ) : Option ℕ :=
  if (n₀ + (sSectionsUnit - 1)) % 2 ^ 32 / sSectionsUnit ≠
      (n₀ + n + (sSectionsUnit - 1)) % 2 ^ 32 / sSectionsUnit then
    some ((n₀ + n + (sSectionsUnit - 1)) % 2 ^ 32 / sSectionsUnit * sSectionsUnit)
  else none

/-- What `grn_vector_unpack` does once the array has grown. -/
def GrnVector.unpackSections (v : GrnVector) (data behind : List ℕ) (form : WeightForm) (n : ℕ)
    (p : List ℕ) : Outcome :=
  match lengthsLoop behind.length v.capacity n v.sections.length p with
  | .fault => .fault
  | .short => .error v
  | .done lengths p =>
    let o := lengths.sum % 2 ^ 32
    if p.length < behind.length + o then .error v
    else
      let start := v.body.length
      let v := { v with body := v.body ++ p.take o }
      let p := p.drop o
      -- the footer is there when something is left
      let footer :=
        if behind.length < p.length then footerLoop form behind.length n p
        else .done (List.replicate n (0, 0)) p
      match footer with
      | .fault => .fault
      | .short => .error v
      | .done pairs p =>
        .ok { v with sections := v.sections ++ newSections start lengths pairs }
          (data.length + behind.length - p.length)

/-- `grn_vector_unpack`. An array of no places is freed, and the new one is `NULL`. -/
def GrnVector.unpack (v : GrnVector) (data behind : List ℕ) (form : WeightForm) : Outcome :=
  match grnDecByteCheck (data ++ behind) with
  | .error _ => .fault
  | .ok (n, p) =>
    match grownCapacity v.sections.length n with
    | none => v.unpackSections data behind form n p
    | some 0 => .error { v with capacity := 0 }
    | some capacity => { v with capacity := capacity }.unpackSections data behind form n p

/-- A vector of two elements comes back. -/
example :
    let v : GrnVector := ⟨[⟨0, 1, 0, 0⟩, ⟨1, 2, 0x3f800000, 5⟩], 256, [7, 8, 9]⟩
    let w : GrnVector := ⟨[⟨0, 1, 0, 0⟩], 256, [6]⟩
    (v.pack 0 2 .integer).map (fun (h, b, f) => w.unpack (h ++ b ++ f) [] .integer) =
      some (.ok ⟨[⟨0, 1, 0, 0⟩, ⟨1, 1, 0, 0⟩, ⟨2, 2, 0x3f800000, 5⟩], 256, [6, 7, 8, 9]⟩ 10) := by
  decide

end Groonga.Vector
