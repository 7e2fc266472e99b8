import Groonga.Pat.Basic

/-!
# What each write changes

One lemma for each field of a node under each write of the source. The other fields of
the table are unchanged by definition.
-/

namespace Groonga.Pat

variable {s s' : GrnPat} {p : Loc} {i j : ℕ} {d : Bool}

section Modify

variable {f : Node → Node}

theorem modify_of_ne (hji : j ≠ i) : (s.modify i f).nodes j = s.nodes j :=
  Function.update_of_ne hji _ _

theorem modify_self : (s.modify i f).nodes i = f (s.nodes i) := Function.update_self ..

/-- A field that the modification keeps is kept in every node. -/
theorem modify_field {α : Type} (field : Node → α) (h : ∀ n, field (f n) = field n) :
    field ((s.modify i f).nodes j) = field (s.nodes j) := by
  by_cases hji : j = i
  · rw [hji, modify_self, h]
  · rw [modify_of_ne hji]

end Modify

section Store

variable {id : ℕ}

@[simp] theorem store_check : ((s.store p id).nodes j).check = (s.nodes j).check :=
  modify_field Node.check fun _ => rfl

@[simp] theorem store_key : ((s.store p id).nodes j).key = (s.nodes j).key :=
  modify_field Node.key fun _ => rfl

@[simp] theorem store_deleting : ((s.store p id).nodes j).deleting = (s.nodes j).deleting :=
  modify_field Node.deleting fun _ => rfl

theorem store_lr :
    ((s.store p id).nodes j).lr d = if p = ⟨j, d⟩ then id else (s.nodes j).lr d := by
  obtain ⟨i, e⟩ := p
  by_cases hji : j = i
  · subst hji
    rw [GrnPat.store, modify_self, Node.setChild]
    by_cases hde : d = e
    · subst hde
      rw [if_pos rfl]
      exact Function.update_self ..
    · rw [if_neg fun h => hde (congrArg Loc.direction h).symm]
      exact Function.update_of_ne hde ..
  · rw [GrnPat.store, modify_of_ne hji, if_neg fun h => hji (congrArg Loc.node h).symm]

theorem store_lr_self : ((s.store p id).nodes p.node).lr p.direction = id := by
  rw [store_lr, if_pos rfl]

theorem store_lr_of_ne (h : p ≠ ⟨j, d⟩) : ((s.store p id).nodes j).lr d = (s.nodes j).lr d := by
  rw [store_lr, if_neg h]

/-- Storing the link that is there. -/
theorem store_of_load (h : s.load p = id) : s.store p id = s := by
  have hchild : (s.nodes p.node).setChild p.direction id = s.nodes p.node := by
    rw [Node.setChild, ← h, GrnPat.load, Function.update_eq_self]
  rw [GrnPat.store, GrnPat.modify, hchild, Function.update_eq_self]

end Store

section Check

variable {c : ℕ}

@[simp] theorem setCheck_lr : ((s.setCheck i c).nodes j).lr = (s.nodes j).lr :=
  modify_field Node.lr fun _ => rfl

@[simp] theorem setCheck_key : ((s.setCheck i c).nodes j).key = (s.nodes j).key :=
  modify_field Node.key fun _ => rfl

@[simp] theorem setCheck_deleting : ((s.setCheck i c).nodes j).deleting = (s.nodes j).deleting :=
  modify_field Node.deleting fun _ => rfl

@[simp] theorem setCheck_check_self : ((s.setCheck i c).nodes i).check = c := by
  rw [GrnPat.setCheck, modify_self]

theorem setCheck_check_of_ne (hji : j ≠ i) : ((s.setCheck i c).nodes j).check = (s.nodes j).check := by
  rw [GrnPat.setCheck, modify_of_ne hji]

end Check

section Deleting

variable {on : Bool}

@[simp] theorem setDeleting_lr : ((s.setDeleting i on).nodes j).lr = (s.nodes j).lr :=
  modify_field Node.lr fun _ => rfl

@[simp] theorem setDeleting_key : ((s.setDeleting i on).nodes j).key = (s.nodes j).key :=
  modify_field Node.key fun _ => rfl

@[simp] theorem setDeleting_check : ((s.setDeleting i on).nodes j).check = (s.nodes j).check :=
  modify_field Node.check fun _ => rfl

theorem setDeleting_deleting :
    ((s.setDeleting i on).nodes j).deleting = if j = i then on else (s.nodes j).deleting := by
  by_cases hji : j = i
  · rw [if_pos hji, hji, GrnPat.setDeleting, modify_self]
  · rw [if_neg hji, GrnPat.setDeleting, modify_of_ne hji]

end Deleting

section Cache

variable {key : List UInt8} {id : ℕ}

/-- The cache is the only field that `setCache` changes. -/
theorem setCache_eq : ∃ cache, s.setCache key id = { s with cache := cache } := by
  unfold GrnPat.setCache
  split_ifs
  · exact ⟨s.cache, rfl⟩
  · exact ⟨_, rfl⟩

@[simp] theorem setCache_nodes : (s.setCache key id).nodes = s.nodes := by
  obtain ⟨cache, h⟩ := @setCache_eq s key id
  rw [h]

@[simp] theorem setCache_keyOf : (s.setCache key id).keyOf = s.keyOf := by
  obtain ⟨cache, h⟩ := @setCache_eq s key id
  rw [h]
  rfl

end Cache

/-- The keys are the same if the key fields and the key area are. -/
theorem keyOf_congr (hkey : (s'.nodes i).key = (s.nodes i).key) (hkeys : s'.keys = s.keys) :
    s'.keyOf i = s.keyOf i := by
  simp only [GrnPat.keyOf, GrnPat.nodeKey, hkey, hkeys]

end Groonga.Pat
