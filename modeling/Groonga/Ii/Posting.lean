import Groonga.Ii.Codec
import Groonga.Lib.Change

/-!
# Postings and their update specifications

The content of an inverted index is a map: a term, a record and a section have a
posting, or none. `grn_ii_update_one` and `grn_ii_delete_one` change it by one update
specification. This is the map they stand for, whatever the representation (the word of
the lexicon array, the buffer or the chunks) that holds a posting: which cells they
write and what of the specification an index with the given flags keeps.
-/

namespace Groonga.Ii

/-! ## Update specifications -/

/-- `GRN_II_MAX_TF`. -/
def maxTf : ℕ := 0x1ffff

/-- `grn_ii_updspec`. The weight is an `int32_t`, kept as its 32 bits. -/
structure Updspec where
  rid : ℕ
  sid : ℕ
  weight : ℕ
  tf : ℕ
  atf : ℕ
  pos : List ℕ
deriving DecidableEq, Repr

/-- `grn_ii_updspec_open`. -/
def updspecOpen (rid sid : ℕ) : Updspec := ⟨rid, sid, 0, 0, 0, []⟩

/-- `grn_ii_updspec_add`: beyond the limit of the term frequency only `atf` counts on. -/
def updspecAdd (u : Updspec) (pos weight : ℕ) : Updspec :=
  if maxTf ≤ u.tf then { u with atf := u.atf + 1 }
  else
    { u with
      atf := u.atf + 1
      weight := (u.weight + weight) % 2 ^ 32
      pos := u.pos ++ [pos]
      tf := u.tf + 1 }

/-- The loop of `grn_ii_updspec_cmp` over the two lists of positions. -/
def posCmp : List ℕ → List ℕ → ℤ
  | p :: ps, q :: qs => if p ≠ q then p - q else posCmp ps qs
  | _ :: _, [] => 1
  | [], _ :: _ => -1
  | [], [] => 0

/-- `grn_ii_updspec_cmp`; only whether it is `0` matters to its callers. -/
def updspecCmp (a b : Updspec) : ℤ :=
  if a.rid ≠ b.rid then a.rid - b.rid
  else if a.sid ≠ b.sid then a.sid - b.sid
  else if a.weight ≠ b.weight then a.weight - b.weight
  else if a.tf ≠ b.tf then a.tf - b.tf
  else posCmp a.pos b.pos

theorem posCmp_eq_zero {ps qs : List ℕ} : posCmp ps qs = 0 ↔ ps = qs := by
  induction ps generalizing qs with
  | nil => cases qs <;> simp [posCmp]
  | cons p ps ih =>
    cases qs with
    | nil => simp [posCmp]
    | cons q qs =>
      by_cases h : p = q
      · simp [posCmp, h, ih]
      · simp [posCmp, h, sub_eq_zero]

/-- The comparison sees everything of a specification but the count of the discarded
postings. -/
theorem updspecCmp_eq_zero {a b : Updspec} :
    updspecCmp a b = 0 ↔
      a.rid = b.rid ∧ a.sid = b.sid ∧ a.weight = b.weight ∧ a.tf = b.tf ∧ a.pos = b.pos := by
  have hsub : ∀ m n : ℕ, (m : ℤ) - n = 0 ↔ m = n := fun m n => by rw [sub_eq_zero]; norm_cast
  unfold updspecCmp
  split_ifs with hrid hsid hweight htf <;> simp_all [posCmp_eq_zero]

/-! ## The map of postings -/

/-- The data of a posting: the term frequency, the weight and the positions. -/
structure Posting where
  tf : ℕ
  weight : ℕ
  pos : List ℕ
deriving DecidableEq, Repr

/-- The posting of a term (by its id in the lexicon), a record and a section. -/
abbrev Postings := ℕ → ℕ → ℕ → Option Posting

/-- The section `encode_rec` stores a specification under: without `WITH_SECTION` it sets
`u->sid` to 1. -/
def Layout.storedSid (ii : Layout) (sid : ℕ) : ℕ := if ii.withSection then sid else 1

/-- What `encode_rec` keeps of a specification. -/
def Layout.storedPosting (ii : Layout) (u : Updspec) : Posting where
  tf := u.tf
  weight := if ii.withWeight then u.weight else 0
  pos := if ii.withPosition then u.pos else []

namespace Postings

/-- `grn_ii_delete_one`: section 0 of an index with sections stands for all of them. -/
def deleteOne (ii : Layout) (p : Postings) (tid : ℕ) (u : Updspec) : Postings :=
  if tid = 0 then p
  else fun t r s =>
    if t = tid ∧ r = u.rid ∧ ((ii.withSection ∧ u.sid = 0) ∨ s = ii.storedSid u.sid) then none
    else p t r s

/-- `grn_ii_update_one`. -/
def updateOne (ii : Layout) (p : Postings) (tid : ℕ) (u : Updspec) : Postings :=
  if tid = 0 then p
  else if u.tf = 0 ∨ u.sid = 0 then p.deleteOne ii tid u
  else fun t r s =>
    if t = tid ∧ r = u.rid ∧ s = ii.storedSid u.sid then some (ii.storedPosting u)
    else p t r s

variable {ii : Layout} {p : Postings} {tid : ℕ} {u : Updspec}

/-- Deleting a section clears the cell of that section and no other. -/
theorem deleteOne_apply (htid : tid ≠ 0) (hsid : u.sid ≠ 0) (t r s : ℕ) :
    p.deleteOne ii tid u t r s =
      if t = tid ∧ r = u.rid ∧ s = ii.storedSid u.sid then none else p t r s := by
  simp [deleteOne, htid, hsid]

/-- An update that is none of the disguised deletes writes its own cell and no other. -/
theorem updateOne_apply (htid : tid ≠ 0) (htf : u.tf ≠ 0) (hsid : u.sid ≠ 0) (t r s : ℕ) :
    p.updateOne ii tid u t r s =
      if t = tid ∧ r = u.rid ∧ s = ii.storedSid u.sid then some (ii.storedPosting u)
      else p t r s := by
  simp [updateOne, htid, htf, hsid]

/-- Nothing is known under the id 0. -/
@[simp] theorem deleteOne_zero (u : Updspec) : p.deleteOne ii 0 u = p := by simp [deleteOne]

@[simp] theorem updateOne_zero (u : Updspec) : p.updateOne ii 0 u = p := by simp [updateOne]

end Postings

/-- Specifications that compare equal are stored as the same posting. -/
theorem storedPosting_eq_of_updspecCmp {ii : Layout} {a b : Updspec} (h : updspecCmp a b = 0) :
    ii.storedPosting a = ii.storedPosting b := by
  obtain ⟨-, -, hweight, htf, hpos⟩ := updspecCmp_eq_zero.1 h
  simp [Layout.storedPosting, hweight, htf, hpos]

end Groonga.Ii
