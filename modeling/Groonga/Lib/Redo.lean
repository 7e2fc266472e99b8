import Mathlib

/-!
# Redoing the steps of a log

The entries of a log are done again after a crash, on the state from before the first of them or on
one that has seen some or all of them. When each entry decides what it does to a cell of the state
without looking at the state (it writes what the entry says, or leaves the cell), the result is the
state from after the last entry: a cell that an entry writes is as it was after that entry, and a
cell that no entry writes is as it was all the time.
-/

namespace Groonga.Lib

variable {σ ε γ ν : Type*} {redo : ε → σ → Option σ} {ok : ε → σ → Prop}
  {cell : σ → γ → ν} {e : ε} {es es' : List ε} {s s' n r r' : σ}

/-- The entries one after another, nothing if one fails. -/
def redoAll (redo : ε → σ → Option σ) : List ε → σ → Option σ
  | [], s => some s
  | e :: es, s => (redo e s).bind (redoAll redo es)

theorem redoAll_append : redoAll redo (es ++ es') s = (redoAll redo es s).bind (redoAll redo es') := by
  induction es generalizing s with
  | nil => rfl
  | cons e es ih =>
    rw [List.cons_append, redoAll, redoAll]
    cases redo e s with
    | none => rfl
    | some s₁ => exact ih

/-- **The entries lead from one state to another**, and each is right for the state it is done to. -/
def Follows (redo : ε → σ → Option σ) (ok : ε → σ → Prop) : List ε → σ → σ → Prop
  | [], s, s' => s = s'
  | e :: es, s, s' => ok e s ∧ ∃ s₁, redo e s = some s₁ ∧ Follows redo ok es s₁ s'

theorem Follows.append (h : Follows redo ok es s n) (h' : Follows redo ok es' n s') :
    Follows redo ok (es ++ es') s s' := by
  induction es generalizing s with
  | nil =>
    obtain rfl : s = n := h
    exact h'
  | cons e es ih =>
    obtain ⟨hok, s₁, hredo, hrest⟩ := h
    exact ⟨hok, s₁, hredo, ih hrest⟩

/-- **On the state from before**, the entries lead to the state from after them. -/
theorem Follows.redoAll (h : Follows redo ok es s s') : redoAll redo es s = some s' := by
  induction es generalizing s with
  | nil =>
    obtain rfl : s = s' := h
    rfl
  | cons e es ih =>
    obtain ⟨-, s₁, hredo, hrest⟩ := h
    rw [Lib.redoAll, hredo]
    exact ih hrest

/-- The entry writes the cell without looking at the state, or leaves it. -/
def Decides (redo : ε → σ → Option σ) (ok : ε → σ → Prop) (cell : σ → γ → ν) (e : ε) (c : γ) : Prop :=
  (∃ v, ∀ s s', ok e s → redo e s = some s' → cell s' c = v) ∨
    ∀ s s', ok e s → redo e s = some s' → cell s' c = cell s c

/-- Every cell is as in one of two states. -/
def Mixed (cell : σ → γ → ν) (s n r : σ) : Prop := ∀ c, cell r c = cell s c ∨ cell r c = cell n c

/-- **An entry** is done to a state in the middle of a run and to a mixture of this state and another
one. -/
theorem Mixed.step (hdec : ∀ c, Decides redo ok cell e c) (hmix : Mixed cell s n r) (hs : ok e s)
    (hr : ok e r) (hs' : redo e s = some s') (hr' : redo e r = some r') : Mixed cell s' n r' := by
  intro c
  rcases hdec c with ⟨v, hv⟩ | hkeep
  · left
    rw [hv s s' hs hs', hv r r' hr hr']
  · rw [hkeep s s' hs hs', hkeep r r' hr hr']
    exact hmix c

/-- **On a mixture** of the states from before and after, the entries lead to the state from after
them. -/
theorem Follows.redoAll_mixed (h : Follows redo ok es s n) (kept : σ → Prop) (cell : σ → γ → ν)
    (hdec : ∀ e c, Decides redo ok cell e c)
    (hkept : ∀ e s r, ok e s → kept r → ∃ r', redo e r = some r' ∧ ok e r ∧ kept r')
    (hr : kept r) (hmix : Mixed cell s n r) :
    ∃ r', Lib.redoAll redo es r = some r' ∧ kept r' ∧ cell r' = cell n := by
  induction es generalizing s r with
  | nil =>
    obtain rfl : s = n := h
    exact ⟨r, rfl, hr, funext fun c => (hmix c).elim id id⟩
  | cons e es ih =>
    obtain ⟨hok, s₁, hredo, hrest⟩ := h
    obtain ⟨r₁, hredo', hok', hr₁⟩ := hkept e s r hok hr
    obtain ⟨r', hall, hr', hcell⟩ := ih hrest hr₁ (hmix.step (hdec e) hok hok' hredo hredo')
    refine ⟨r', ?_, hr', hcell⟩
    rw [Lib.redoAll, hredo']
    exact hall

/-! ## Cells that are still to be written -/

/-- Every cell is as in one of two states, but for those that are written later, whatever they are. -/
def MixedBut (later : γ → Prop) (cell : σ → γ → ν) (s n r : σ) : Prop :=
  ∀ c, ¬ later c → cell r c = cell s c ∨ cell r c = cell n c

theorem mixedBut_refl (later : γ → Prop) (cell : σ → γ → ν) (s n : σ) : MixedBut later cell s n n :=
  fun _ _ => .inr rfl

/-- **A step** of both states writes a cell alike or keeps it, or leaves it as it is in the end. -/
theorem MixedBut.step {later later' : γ → Prop} (hmix : MixedBut later cell s n r)
    (hstep : ∀ c, ¬ later' c → cell r' c = cell s' c ∨ cell r' c = cell n c ∨
      ¬ later c ∧ cell s' c = cell s c ∧ cell r' c = cell r c) :
    MixedBut later' cell s' n r' := by
  intro c hc
  rcases hstep c hc with hsame | hend | ⟨hlater, hs, hr⟩
  · exact .inl hsame
  · exact .inr hend
  · rw [hs, hr]
    exact hmix c hlater

/-- In the end there is nothing left to be written. -/
theorem MixedBut.eq {later : γ → Prop} (hmix : MixedBut later cell n n r) (hlater : ∀ c, ¬ later c) :
    cell r = cell n := funext fun c => (hmix c (hlater c)).elim id id

end Groonga.Lib
