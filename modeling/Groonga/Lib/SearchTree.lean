import Mathlib

/-!
# A search tree whose first item moves on

An unbalanced search tree, with its first and its last item at hand. The keys of the items are
not in the tree: they are a function beside it. What is done over and over is that the key of the
first item grows, and the item is taken out and put in again.

The order from left to right is the whole story: `Ok` says that it grows, and that the items at
hand are its ends.
-/

namespace Groonga.Lib

inductive SearchTree (α : Type*) where
  | nil
  | node (car : SearchTree α) (item : α) (cdr : SearchTree α)

namespace SearchTree

variable {α κ : Type*} [LinearOrder κ] (key : α → κ)

/-- The items from left to right. -/
def toList : SearchTree α → List α
  | nil => []
  | node car a cdr => car.toList ++ a :: cdr.toList

/-- An item is put behind those with the same key. Also: whether it never went right, and whether
it never went left. -/
def insert (a : α) : SearchTree α → SearchTree α × Bool × Bool
  | nil => (node nil a nil, true, true)
  | node car b cdr =>
    if key a < key b then
      let (car, first, _) := insert a car
      (node car b cdr, first, false)
    else
      let (cdr, _, last) := insert a cdr
      (node car b cdr, false, last)

/-- The first item, and the tree without it. -/
def takeFirst : SearchTree α → Option (α × SearchTree α)
  | nil => none
  | node nil a cdr => some (a, cdr)
  | node car a cdr => car.takeFirst.map fun (b, car) => (b, node car a cdr)

def first : SearchTree α → Option α
  | nil => none
  | node nil a _ => some a
  | node car _ _ => car.first

section

variable {key} {t : SearchTree α} {a : α} {l : List α}

theorem first_eq (t : SearchTree α) : t.first = t.toList.head? := by
  induction t with
  | nil => rfl
  | node car a cdr ihcar _ =>
    cases car with
    | nil => rfl
    | node car' b cdr' =>
      have hne : (node car' b cdr').toList ≠ [] := by simp [toList]
      rw [first, ihcar, toList.eq_2 (node car' b cdr'), List.head?_append_of_ne_nil _ hne]
      exact nofun

theorem takeFirst_spec (t : SearchTree α) :
    (t.toList = [] ∧ t.takeFirst = none) ∨
      ∃ a rest, t.toList = a :: rest.toList ∧ t.takeFirst = some (a, rest) := by
  induction t with
  | nil => exact .inl ⟨rfl, rfl⟩
  | node car a cdr ihcar _ =>
    right
    cases car with
    | nil => exact ⟨a, cdr, rfl, rfl⟩
    | node car' b cdr' =>
      rcases ihcar with ⟨hnil, -⟩ | ⟨c, rest, hlist, htake⟩
      · simp [toList] at hnil
      · refine ⟨c, node rest a cdr, ?_, ?_⟩
        · rw [toList, hlist]
          rfl
        · rw [takeFirst, htake]
          · rfl
          · simp

/-- **Where an item goes**: behind all with a key up to its own. -/
theorem insert_spec (a : α) (h : t.toList.Pairwise fun b c => key b ≤ key c) :
    ∃ l₁ l₂, t.toList = l₁ ++ l₂ ∧ (t.insert key a).1.toList = l₁ ++ a :: l₂ ∧
      (∀ b ∈ l₁, key b ≤ key a) ∧ (∀ b ∈ l₂, key a < key b) ∧
      ((t.insert key a).2.1 = true ↔ l₁ = []) ∧ ((t.insert key a).2.2 = true ↔ l₂ = []) := by
  induction t with
  | nil => exact ⟨[], [], rfl, rfl, by simp, by simp, by simp [insert], by simp [insert]⟩
  | node car b cdr ihcar ihcdr =>
    rw [toList, List.pairwise_append, List.pairwise_cons] at h
    obtain ⟨hcar, ⟨hb, hcdr⟩, hbetween⟩ := h
    rw [insert]
    split_ifs with hlt
    · obtain ⟨l₁, l₂, hlist, hins, hle, hgt, hfirst, -⟩ := ihcar hcar
      refine ⟨l₁, l₂ ++ b :: cdr.toList, ?_, ?_, hle, ?_, hfirst, by simp⟩
      · rw [toList, hlist, List.append_assoc]
      · rw [toList, hins, List.append_assoc, List.cons_append]
      · intro c hc
        rcases List.mem_append.1 hc with hc | hc
        · exact hgt c hc
        · rcases List.mem_cons.1 hc with rfl | hc
          · exact hlt
          · exact hlt.trans_le (hb c hc)
    · obtain ⟨l₁, l₂, hlist, hins, hle, hgt, -, hlast⟩ := ihcdr hcdr
      refine ⟨car.toList ++ b :: l₁, l₂, ?_, ?_, ?_, hgt, by simp, hlast⟩
      · rw [toList, hlist, List.append_assoc, List.cons_append]
      · rw [toList, hins, List.append_assoc, List.cons_append]
      · intro c hc
        rcases List.mem_append.1 hc with hc | hc
        · exact (hbetween c hc b List.mem_cons_self).trans (not_lt.1 hlt)
        · rcases List.mem_cons.1 hc with rfl | hc
          · exact not_lt.1 hlt
          · exact hle c hc

end

end SearchTree

/-! ## The ends at hand -/

/-- A tree with its first and its last item. -/
structure EndedTree (α : Type*) where
  root : SearchTree α
  min : Option α
  max : Option α

namespace EndedTree

variable {α κ : Type*} [LinearOrder κ] (key : α → κ)

def empty : EndedTree α := ⟨.nil, none, none⟩

def push (bt : EndedTree α) (a : α) : EndedTree α :=
  let (root, first, last) := bt.root.insert key a
  { root := root
    min := if first then some a else bt.min
    max := if last then some a else bt.max }

/-- The first item is taken out and put in again. -/
def reorderMin (bt : EndedTree α) : EndedTree α :=
  match bt.root.takeFirst with
  | none => bt
  | some (a, rest) =>
    let (root, first, last) := rest.insert key a
    { root := root
      min := if first then bt.min else root.first
      max := if last then some a else bt.max }

def items (bt : EndedTree α) : List α := bt.root.toList

/-- **The items are in order, and the ends are theirs.** -/
structure Ok (bt : EndedTree α) : Prop where
  sorted : bt.items.Pairwise fun a b => key a ≤ key b
  min : bt.min = bt.items.head?
  max : bt.max = bt.items.getLast?

variable {key} {bt : EndedTree α} {a : α} {l : List α}

theorem ok_empty : Ok key (empty : EndedTree α) := ⟨.nil, rfl, rfl⟩

/-- Only the keys of the items count. -/
theorem Ok.congr {key' : α → κ} (h : Ok key bt) (hkey : ∀ a ∈ bt.items, key' a = key a) :
    Ok key' bt := by
  refine { h with sorted := h.sorted.imp_of_mem fun {a b} ha hb hle => ?_ }
  rw [hkey a ha, hkey b hb]
  exact hle

theorem sorted_insert {l₁ l₂ : List α} (h : (l₁ ++ l₂).Pairwise fun a b => key a ≤ key b)
    (h₁ : ∀ b ∈ l₁, key b ≤ key a) (h₂ : ∀ b ∈ l₂, key a < key b) :
    (l₁ ++ a :: l₂).Pairwise fun a b => key a ≤ key b := by
  obtain ⟨hl₁, hl₂, hbetween⟩ := List.pairwise_append.1 h
  refine List.pairwise_append.2 ⟨hl₁, List.pairwise_cons.2 ⟨fun b hb => (h₂ b hb).le, hl₂⟩, ?_⟩
  intro b hb c hc
  rcases List.mem_cons.1 hc with rfl | hc
  · exact h₁ b hb
  · exact hbetween b hb c hc

/-- **Pushing an item.** -/
theorem Ok.push (h : Ok key bt) (a : α) :
    Ok key (bt.push key a) ∧ (bt.push key a).items.Perm (a :: bt.items) := by
  obtain ⟨l₁, l₂, hlist, hins, h₁, h₂, hfirst, hlast⟩ := SearchTree.insert_spec a h.sorted
  have hitems : (bt.push key a).items = l₁ ++ a :: l₂ := hins
  have hold : bt.items = l₁ ++ l₂ := hlist
  have hsorted := h.sorted
  rw [hold] at hsorted
  refine ⟨⟨?_, ?_, ?_⟩, ?_⟩
  · rw [hitems]
    exact sorted_insert hsorted h₁ h₂
  · rw [hitems]
    change (if (bt.root.insert key a).2.1 then some a else bt.min) = _
    split_ifs with hf
    · rw [hfirst.1 hf]
      rfl
    · have hne : l₁ ≠ [] := fun hnil => hf (hfirst.2 hnil)
      rw [h.min, hold, List.head?_append_of_ne_nil _ hne, List.head?_append_of_ne_nil _ hne]
  · rw [hitems]
    change (if (bt.root.insert key a).2.2 then some a else bt.max) = _
    split_ifs with hl
    · rw [hlast.1 hl, List.getLast?_concat]
    · have hne : l₂ ≠ [] := fun hnil => hl (hlast.2 hnil)
      rw [h.max, hold, List.getLast?_append_of_ne_nil _ hne,
        List.getLast?_append_of_ne_nil _ (List.cons_ne_nil a l₂), List.getLast?_cons_of_ne_nil hne]
  · rw [hitems, hold]
    exact List.perm_middle

/-- Pushing items one after the other. -/
theorem Ok.foldl_push (h : Ok key bt) (l : List α) :
    Ok key (l.foldl (EndedTree.push key) bt) ∧
      (l.foldl (EndedTree.push key) bt).items.Perm (l ++ bt.items) := by
  induction l generalizing bt with
  | nil => exact ⟨h, .rfl⟩
  | cons a l ih =>
    obtain ⟨hok, hperm⟩ := h.push a
    obtain ⟨hok', hperm'⟩ := ih hok
    refine ⟨hok', hperm'.trans ?_⟩
    exact (hperm.append_left l).trans List.perm_middle

/-- **The first item is put back in its place** by the new keys. The others have kept theirs. -/
theorem Ok.reorderMin {key' : α → κ} (h : Ok key bt) (hitems : bt.items = a :: l)
    (hkey : ∀ b ∈ l, key' b = key b) :
    Ok key' (bt.reorderMin key') ∧ (bt.reorderMin key').items.Perm (a :: l) := by
  rcases SearchTree.takeFirst_spec bt.root with ⟨hnil, -⟩ | ⟨b, rest, hlist, htake⟩
  · exact absurd (hnil.symm.trans hitems) (by simp)
  · obtain ⟨rfl, rfl⟩ := List.cons.inj (hlist.symm.trans hitems)
    have hsorted := h.sorted
    rw [hitems] at hsorted
    have hrest : rest.toList.Pairwise fun c d => key' c ≤ key' d := by
      refine (List.pairwise_cons.1 hsorted).2.imp_of_mem fun {c d} hc hd hle => ?_
      rw [hkey c hc, hkey d hd]
      exact hle
    obtain ⟨l₁, l₂, hlist', hins, h₁, h₂, hfirst, hlast⟩ := SearchTree.insert_spec b hrest
    have hbt : bt.reorderMin key' =
        { root := (rest.insert key' b).1
          min := if (rest.insert key' b).2.1 then bt.min else (rest.insert key' b).1.first
          max := if (rest.insert key' b).2.2 then some b else bt.max } := by
      unfold EndedTree.reorderMin
      rw [htake]
    have hnew : (bt.reorderMin key').items = l₁ ++ b :: l₂ := by
      rw [hbt]
      exact hins
    rw [hlist'] at hrest
    refine ⟨⟨?_, ?_, ?_⟩, ?_⟩
    · rw [hnew]
      exact sorted_insert hrest h₁ h₂
    · rw [hnew, hbt]
      dsimp only
      split_ifs with hf
      · rw [h.min, hitems, hfirst.1 hf]
        rfl
      · rw [SearchTree.first_eq, hins]
    · rw [hnew, hbt]
      dsimp only
      split_ifs with hl
      · rw [hlast.1 hl, List.getLast?_concat]
      · have hne : l₂ ≠ [] := fun hnil => hl (hlast.2 hnil)
        have hne' : l₁ ++ l₂ ≠ [] := by simp [hne]
        rw [h.max, hitems, hlist', List.getLast?_cons_of_ne_nil hne',
          List.getLast?_append_of_ne_nil _ hne,
          List.getLast?_append_of_ne_nil _ (List.cons_ne_nil b l₂),
          List.getLast?_cons_of_ne_nil hne]
    · rw [hnew, hlist']
      exact List.perm_middle

end EndedTree

end Groonga.Lib
