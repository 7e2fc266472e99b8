import Mathlib

/-!
# Replaying the changes of a value on what the old value left

A value is a list of components, and a cell holds what the last component with
something to write wrote into it. When the value is replaced, the components are
compared one by one: a component that did not change is skipped, the others write or
clear the cell. This gives the cell of the new value exactly when the last component
that was not skipped leaves what the new value's last writer leaves: a skipped
component does not write again over the components before it.
-/

namespace Groonga.Lib

variable {α β κ : Type*}

/-- **Loops that act entry by entry.** When every pass of a loop computes an entry from
that entry alone, the entry at the end is the loop run on that entry alone. -/
theorem foldl_entry (f : β → α → β) (get : β → κ) (g : κ → α → κ)
    (h : ∀ s a, get (f s a) = g (get s) a) (l : List α) (s : β) :
    get (l.foldl f s) = l.foldl g (get s) := by
  induction l generalizing s with
  | nil => rfl
  | cons a l ih => rw [List.foldl_cons, ih, h, List.foldl_cons]

/-- What a cell holds after the components have written to it in turn. -/
def written (vs : List (Option α)) (init : Option α) : Option α :=
  vs.foldl (fun cell v => v.or cell) init

@[simp] theorem written_nil (init : Option α) : written [] init = init := rfl

@[simp] theorem written_cons (v : Option α) (vs : List (Option α)) (init : Option α) :
    written (v :: vs) init = written vs (v.or init) := rfl

/-- The change of one component: what it wrote, what it is to write, and whether the
comparison of the two lets it be skipped. -/
structure Change (α : Type*) where
  old : Option α
  new : Option α
  skipped : Bool

namespace Change

/-- A component that is skipped has not changed. -/
def Sound (c : Change α) : Prop := c.skipped = true → c.old = c.new

/-- Does the component touch the cell at all? -/
def acts (c : Change α) : Bool := !c.skipped && (c.old.isSome || c.new.isSome)

/-- The effect of the change on the cell. -/
def apply (cell : Option α) (c : Change α) : Option α :=
  if c.skipped then cell
  else match c.new with
    | some v => some v
    | none => if c.old.isSome then none else cell

theorem apply_of_acts {c : Change α} (h : c.acts = true) (cell : Option α) :
    c.apply cell = c.new := by
  unfold acts at h
  unfold apply
  cases hs : c.skipped <;> cases hn : c.new <;> simp_all

theorem apply_of_not_acts {c : Change α} (h : c.acts = false) (cell : Option α) :
    c.apply cell = cell := by
  unfold acts at h
  unfold apply
  cases hs : c.skipped <;> cases hn : c.new <;> simp_all

theorem old_eq_new_of_not_acts {c : Change α} (hc : c.Sound) (h : c.acts = false) :
    c.old = c.new := by
  cases hs : c.skipped with
  | true => exact hc hs
  | false =>
    simp only [acts, hs, Bool.not_false, Bool.true_and, Bool.or_eq_false_iff,
      Option.isSome_eq_false_iff, Option.isNone_iff_eq_none] at h
    rw [h.1, h.2]

/-- What the last component that acts is to write, if one acts. -/
def last (cs : List (Change α)) : Option (Option α) :=
  (cs.filter acts).getLast?.map (·.new)

/-- The last component that acts leaves what the new value leaves. -/
def LastKept (cs : List (Change α)) : Prop :=
  ∀ v ∈ last cs, v = written (cs.map (·.new)) none

theorem foldl_apply (cs : List (Change α)) (cell : Option α) :
    cs.foldl apply cell = (last cs).getD cell := by
  induction cs using List.reverseRecOn with
  | nil => rfl
  | append_singleton cs c ih =>
    rw [List.foldl_append, List.foldl_cons, List.foldl_nil, ih]
    cases h : c.acts with
    | true => simp [apply_of_acts h, last, h]
    | false => simp [apply_of_not_acts h, last, h]

/-- Where nothing acts, the old value and the new one write the same. -/
theorem map_old_eq_map_new {cs : List (Change α)} (hcs : ∀ c ∈ cs, c.Sound)
    (h : last cs = none) : cs.map (·.old) = cs.map (·.new) := by
  have hnone : cs.filter acts = [] := by
    simpa [last] using h
  refine List.map_congr_left fun c hc => old_eq_new_of_not_acts (hcs c hc) ?_
  have := List.filter_eq_nil_iff.1 hnone c hc
  simpa using this

/-- **When replaying the changes rebuilds the cell.** -/
theorem foldl_apply_eq_written_iff {cs : List (Change α)} (hcs : ∀ c ∈ cs, c.Sound) :
    cs.foldl apply (written (cs.map (·.old)) none) = written (cs.map (·.new)) none ↔
      LastKept cs := by
  rw [foldl_apply, LastKept]
  cases h : last cs with
  | none => simp [map_old_eq_map_new hcs h]
  | some v => simp

/-- A value of a single component can always be replayed. -/
theorem lastKept_of_length_le_one {cs : List (Change α)} (h : cs.length ≤ 1) : LastKept cs := by
  match cs, h with
  | [], _ => simp [LastKept, last]
  | [c], _ =>
    intro v hv
    cases hc : c.acts <;> simp_all [last]

end Change

end Groonga.Lib
