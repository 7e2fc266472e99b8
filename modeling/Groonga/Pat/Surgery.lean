import Groonga.Pat.Invariant

/-!
# Changing the linked tree

Each change that the source makes to the tree is one of five: a new branch, a leaf
without a branch, the removal of such a leaf, the removal of a branch with a leaf, and
the change of the node of a branch. Each is stated by what it does to the nodes, and
keeps `Rooted`.
-/

namespace Groonga.Pat

open Lib.Patricia Lib.Patricia.Trie

variable {nodes nodes' : ℕ → Node} {w w' : ℕ → Word} {own : ℕ → ℕ} {k : List (Frame ℕ)}
  {t : Trie ℕ} {f : Frame ℕ}

/-! ## What the invariant says about a place -/

/-- The link of a place is stored in node 0 or in a branch above it. -/
theorem node_place_mem {i : ℕ} {d : Bool} (h : place k = ⟨i, d⟩) : i = 0 ∨ i ∈ innerBeside k := by
  cases k with
  | nil =>
    obtain rfl : 0 = i := congrArg Loc.node h
    exact .inl rfl
  | cons f k =>
    obtain rfl : f.id = i := congrArg Loc.node h
    exact .inr (Multiset.mem_cons_self _ _)

theorem place_ne {i : ℕ} {d : Bool} (hi : i ≠ 0) (hin : i ∉ innerBeside k) : place k ≠ ⟨i, d⟩ := by
  intro h
  rcases node_place_mem h with rfl | h
  · exact hi rfl
  · exact hin h

theorem place_ne_of_not_mem_plug {i : ℕ} {d : Bool} (hi : i ≠ 0) (hin : i ∉ (plug k t).inner) :
    place k ≠ ⟨i, d⟩ := by
  rw [inner_plug, Multiset.mem_add, not_or] at hin
  exact place_ne hi hin.2

theorem mem_plug_inner {i : ℕ} : i ∈ (plug k t).inner ↔ i ∈ t.inner ∨ i ∈ innerBeside k := by
  rw [inner_plug, Multiset.mem_add]

theorem mem_plug_leaves {i : ℕ} : i ∈ (plug k t).leaves ↔ i ∈ t.leaves ∨ i ∈ leavesBeside k := by
  rw [leaves_plug, Multiset.mem_add]

theorem mem_innerBeside_cons {i : ℕ} :
    i ∈ innerBeside (f :: k) ↔ i = f.id ∨ i ∈ f.sib.inner ∨ i ∈ innerBeside k := by
  rw [innerBeside, Multiset.mem_cons, Multiset.mem_add]

theorem mem_leavesBeside_cons {i : ℕ} :
    i ∈ leavesBeside (f :: k) ↔ i ∈ f.sib.leaves ∨ i ∈ leavesBeside k := by
  rw [leavesBeside, Multiset.mem_add]

namespace Rooted

theorem ne_zero (h : Rooted nodes w t own) {i : ℕ} (hi : i ∈ t.ids) : i ≠ 0 := h.linked.ne_zero hi

/-- The owner of a dead branch has no branch itself. -/
theorem own_not_inner (h : Rooted nodes w t own) {j : ℕ} (hj : j ∈ t.inner) (hdead : j ∉ t.leaves) :
    own j ∉ t.inner := by
  intro hin
  have hlive := h.owned.mem_leaves hj
  have := h.own_inj _ hin _ hj (h.own_self _ hin hlive)
  rw [this] at hlive
  exact hdead hlive

/-- A leaf that owns nothing has no branch. -/
theorem not_inner_of_unowned (h : Rooted nodes w t own) {i : ℕ} (hi : i ∈ t.leaves)
    (hfree : ∀ j ∈ t.inner, own j ≠ i) : i ∉ t.inner := fun hin =>
  hfree i hin (h.own_self i hin hi)

end Rooted

/-- Only the links of a node matter for its self-loop. -/
theorem SelfLoop.congr {i : ℕ} (hlr : ∀ d, (nodes' i).lr d = (nodes i).lr d) :
    SelfLoop nodes' i ↔ SelfLoop nodes i := by
  unfold SelfLoop
  rw [hlr, hlr]

/-- A leaf without a branch stays one when its check is kept or reset. -/
theorem Disabled.congr {v : Word} {i : ℕ} (h : Disabled nodes v i)
    (hlr : ∀ d, (nodes' i).lr d = (nodes i).lr d)
    (hcheck : (nodes' i).check = (nodes i).check ∨ (nodes' i).check = 0) : Disabled nodes' v i := by
  obtain ⟨hlt, hloop, hdir⟩ := h
  refine ⟨by omega, (SelfLoop.congr hlr).mpr hloop, ?_⟩
  rcases hcheck with hcheck | hcheck
  · rw [hcheck, hlr]
    exact hdir
  · exact .inl hcheck

/-- Nothing about the tree has changed. -/
theorem Rooted.congr (h : Rooted nodes w t own) (hroot : linkAt nodes' .root = linkAt nodes .root)
    (hcheck : ∀ i ∈ t.ids, (nodes' i).check = (nodes i).check)
    (hlr : ∀ i ∈ t.ids, (nodes' i).lr = (nodes i).lr) : Rooted nodes' w t own := by
  have hinner : ∀ i ∈ t.inner, i ∈ t.ids := fun i hi => mem_ids.mpr (.inl hi)
  have hleaves : ∀ i ∈ t.leaves, i ∈ t.ids := fun i hi => mem_ids.mpr (.inr hi)
  refine { h with linked := ?_, disabled := fun i hi hfree => ?_, enabled := fun j hj hdead => ?_ }
  · rw [hroot]
    exact h.linked.congr h.wf (fun i hi => ⟨hcheck i (hinner i hi), hlr i (hinner i hi)⟩)
      fun i hi => .inl (hcheck i (hleaves i hi)).le
  · have hi' := hleaves i hi
    exact (h.disabled i hi hfree).congr (fun d => by rw [hlr i hi']) (.inl (hcheck i hi'))
  · have hj' := hleaves _ (h.owned.mem_leaves hj)
    have hloop : SelfLoop nodes' (own j) ↔ SelfLoop nodes (own j) :=
      SelfLoop.congr fun d => by rw [hlr _ hj']
    rw [hloop]
    exact h.enabled j hj hdead

/-! ## A new branch -/

/-- **A new branch** with its leaf at a place. -/
theorem Rooted.branch {i c : ℕ} (h : Rooted nodes w (plug k t) own) (hi : i ≠ 0)
    (hnew : i ∉ (plug k t).ids) (hw : ∀ j ∈ (plug k t).ids, w' j = w j)
    (hc : lastCheck k < c) (hlen : c < (w' i).len) (hfits : Fits w' k (w' i)) (ht : WF w' c t)
    (hdiff : ∀ j ∈ t.ids,
      c < (w' j).len ∧ (w' j).AgreeBelow c (w' i) ∧ (w' j).bit c = !(w' i).bit c)
    (hcheck : ∀ j, j ≠ i → (nodes' j).check = (nodes j).check)
    (hlr : ∀ j, j ≠ i → ∀ d, place k ≠ ⟨j, d⟩ → (nodes' j).lr d = (nodes j).lr d)
    (hlink : linkAt nodes' (place k) = i) (hnode : (nodes' i).check = c)
    (hself : (nodes' i).lr ((w' i).bit c) = i)
    (hnext : (nodes' i).lr (!(w' i).bit c) = linkAt nodes (place k)) :
    Rooted nodes' w' (plug (⟨i, c, (w' i).bit c, t⟩ :: k) (.leaf i)) (Function.update own i i) := by
  have hnewi : i ∉ (plug k t).inner := fun hin => hnew (mem_ids.mpr (.inl hin))
  have hnewl : i ∉ (plug k t).leaves := fun hin => hnew (mem_ids.mpr (.inr hin))
  have hinner : (plug (⟨i, c, (w' i).bit c, t⟩ :: k) (.leaf i)).inner = i ::ₘ (plug k t).inner := by
    rw [inner_plug, inner_plug, innerBeside, inner_leaf, zero_add]
  have hleaves : (plug (⟨i, c, (w' i).bit c, t⟩ :: k) (.leaf i)).leaves =
      i ::ₘ (plug k t).leaves := by
    rw [leaves_plug, leaves_plug, leavesBeside, leaves_leaf, Multiset.singleton_add]
  have hown : ∀ j ∈ (plug k t).inner, Function.update own i i j = own j := by
    intro j hj
    refine Function.update_of_ne ?_ _ _
    rintro rfl
    exact hnewi hj
  -- the nodes of the old tree keep their links, apart from the place
  have hkeep : ∀ j, j ≠ 0 → j ≠ i → j ∉ (plug k t).inner → ∀ d, (nodes' j).lr d = (nodes j).lr d :=
    fun j h0 hji hin d => hlr j hji d (place_ne_of_not_mem_plug h0 hin)
  obtain ⟨hctx, hwft, -⟩ := wf_plug.mp h.wf
  obtain ⟨haround, hlinked⟩ := linked_plug.mp h.linked
  have hnodup := h.inner_nodup
  rw [inner_plug] at hnodup
  obtain ⟨-, hnodupk, hdisj⟩ := Multiset.nodup_add.mp hnodup
  have hne : ∀ j ∈ (plug k t).inner, j ≠ i := fun j hj hji => hnewi (hji ▸ hj)
  have hne' : ∀ j ∈ (plug k t).leaves, j ≠ i := fun j hj hji => hnewl (hji ▸ hj)
  refine
    { linked := ?_
      wf := wf_branch (h.wf.congr hw) hc hlen hfits ht hdiff
      inner_nodup := by rw [hinner]; exact Multiset.nodup_cons.mpr ⟨hnewi, h.inner_nodup⟩
      leaves_nodup := by rw [hleaves]; exact Multiset.nodup_cons.mpr ⟨hnewl, h.leaves_nodup⟩
      owned := ?_
      own_inj := ?_
      own_self := ?_
      disabled := ?_
      enabled := ?_ }
  · refine linked_plug.mpr ⟨⟨hi, hnode, hlink, ?_, ?_⟩, ?_⟩
    · rw [hnext]
      refine (hlinked.congr hwft (fun j hj => ?_) fun j hj => .inl ?_).mono hc.le
      · have hin : j ∈ (plug k t).inner := mem_plug_inner.mpr (.inl hj)
        have h0 : j ≠ 0 := h.ne_zero (mem_ids.mpr (.inl hin))
        refine ⟨hcheck j (hne j hin), funext fun d => hlr j (hne j hin) d (place_ne h0 ?_)⟩
        exact fun hk => Multiset.disjoint_left.mp hdisj hj hk
      · exact (hcheck j (hne' j (mem_plug_leaves.mpr (.inl hj)))).le
    · refine haround.congr hctx hnodupk (fun hroot => ?_) (fun j hj => ?_) fun j hj => ?_
      · exact hlr 0 hi.symm true hroot
      · have hin : j ∈ (plug k t).inner := mem_plug_inner.mpr (.inr hj)
        exact ⟨hcheck j (hne j hin), fun d hd => hlr j (hne j hin) d hd⟩
      · exact (hcheck j (hne' j (mem_plug_leaves.mpr (.inr hj)))).le
    · exact ⟨hself, hi, by rw [hnode]; exact le_rfl⟩
  · obtain ⟨hownt, hownk⟩ := owned_plug.mp h.owned
    refine owned_plug.mpr ⟨trivial, ?_, hownt.congr fun j hj => hown j ?_, ?_⟩
    · rw [Function.update_self]
      exact Multiset.mem_add.mpr (.inl (Multiset.mem_singleton_self i))
    · exact mem_plug_inner.mpr (.inl hj)
    · refine hownk.change (x := i) (fun j hj _ => Multiset.mem_add.mpr (.inr hj)) ?_
        (fun j hj _ => hown j (mem_plug_inner.mpr (.inr hj))) fun j hj hji => ?_
      · exact fun hk => hnewl (mem_plug_leaves.mpr (.inr hk))
      · exact absurd hji (hne' _ (h.owned.mem_leaves (mem_plug_inner.mpr (.inr hj))))
  · intro a ha b hb hab
    rw [hinner, Multiset.mem_cons] at ha hb
    rcases ha with rfl | ha <;> rcases hb with rfl | hb
    · rfl
    · rw [Function.update_self, hown b hb] at hab
      exact absurd hab.symm (hne' _ (h.owned.mem_leaves hb))
    · rw [Function.update_self, hown a ha] at hab
      exact absurd hab (hne' _ (h.owned.mem_leaves ha))
    · rw [hown a ha, hown b hb] at hab
      exact h.own_inj a ha b hb hab
  · intro a ha hal
    rw [hinner, Multiset.mem_cons] at ha
    rw [hleaves, Multiset.mem_cons] at hal
    rcases ha with rfl | ha
    · exact Function.update_self ..
    · rw [hown a ha]
      rcases hal with rfl | hal
      · exact absurd ha hnewi
      · exact h.own_self a ha hal
  · intro a ha hfree
    rw [hleaves, Multiset.mem_cons] at ha
    simp only [hinner, Multiset.mem_cons, forall_eq_or_imp, Function.update_self] at hfree
    obtain ⟨hai, hfree⟩ := hfree
    rcases ha with rfl | ha
    · exact absurd rfl hai
    · have hunowned : ∀ j ∈ (plug k t).inner, own j ≠ a := fun j hj => hown j hj ▸ hfree j hj
      have hain := h.not_inner_of_unowned ha hunowned
      have ha0 := h.ne_zero (mem_ids.mpr (.inr ha))
      rw [hw a (mem_ids.mpr (.inr ha))]
      exact (h.disabled a ha hunowned).congr (hkeep a ha0 (hne' a ha) hain)
        (.inl (hcheck a (hne' a ha)))
  · intro j hj hdead
    rw [hinner, Multiset.mem_cons] at hj
    rw [hleaves, Multiset.mem_cons, not_or] at hdead
    rcases hj with rfl | hj
    · exact absurd rfl hdead.1
    · have hl := h.owned.mem_leaves hj
      rw [hown j hj, SelfLoop.congr (hkeep _ (h.ne_zero (mem_ids.mpr (.inr hl))) (hne' _ hl)
        (h.own_not_inner hj hdead.2))]
      exact h.enabled j hj hdead.2

/-! ## Leaves without a branch -/

/-- **A leaf without a branch** at a free place. -/
theorem Rooted.putLeaf {i c : ℕ} (h : Rooted nodes w (plug k .nil) own) (hi : i ≠ 0)
    (hnew : i ∉ (plug k .nil).ids) (hw : ∀ j ∈ (plug k .nil).ids, w' j = w j)
    (hc : (c : ℤ) = lastCheck k) (hlen : c < (w' i).len) (hfits : Fits w' k (w' i))
    (hcheck : ∀ j, j ≠ i → (nodes' j).check = (nodes j).check)
    (hlr : ∀ j, j ≠ i → ∀ d, place k ≠ ⟨j, d⟩ → (nodes' j).lr d = (nodes j).lr d)
    (hlink : linkAt nodes' (place k) = i) (hnode : (nodes' i).check = c)
    (hself : (nodes' i).lr ((w' i).bit c) = i) (hnext : (nodes' i).lr (!(w' i).bit c) = 0) :
    Rooted nodes' w' (plug k (.leaf i)) own := by
  have hnewi : i ∉ (plug k .nil).inner := fun hin => hnew (mem_ids.mpr (.inl hin))
  have hnewl : i ∉ (plug k .nil).leaves := fun hin => hnew (mem_ids.mpr (.inr hin))
  have hinner : (plug k (.leaf i)).inner = (plug k .nil).inner := by
    rw [inner_plug, inner_plug]
    rfl
  have hleaves : (plug k (.leaf i)).leaves = i ::ₘ (plug k .nil).leaves := by
    rw [leaves_plug, leaves_plug, leaves_leaf, leaves_nil, zero_add, Multiset.singleton_add]
  have hkeep : ∀ j, j ≠ 0 → j ≠ i → j ∉ (plug k .nil).inner →
      ∀ d, (nodes' j).lr d = (nodes j).lr d :=
    fun j h0 hji hin d => hlr j hji d (place_ne_of_not_mem_plug h0 hin)
  obtain ⟨hctx, -, -⟩ := wf_plug.mp h.wf
  obtain ⟨haround, -⟩ := linked_plug.mp h.linked
  have hnodup := h.inner_nodup
  rw [inner_plug] at hnodup
  obtain ⟨-, hnodupk, -⟩ := Multiset.nodup_add.mp hnodup
  have hne : ∀ j ∈ (plug k .nil).inner, j ≠ i := fun j hj hji => hnewi (hji ▸ hj)
  have hne' : ∀ j ∈ (plug k .nil).leaves, j ≠ i := fun j hj hji => hnewl (hji ▸ hj)
  refine
    { linked := ?_
      wf := wf_leaf (h.wf.congr hw) hfits
      inner_nodup := by rw [hinner]; exact h.inner_nodup
      leaves_nodup := by rw [hleaves]; exact Multiset.nodup_cons.mpr ⟨hnewl, h.leaves_nodup⟩
      owned := ?_
      own_inj := by rw [hinner]; exact h.own_inj
      own_self := ?_
      disabled := ?_
      enabled := ?_ }
  · refine linked_plug.mpr ⟨?_, hlink, hi, by rw [hnode, hc]⟩
    refine haround.congr hctx hnodupk (fun hroot => ?_) (fun j hj => ?_) fun j hj => ?_
    · exact hlr 0 hi.symm true hroot
    · have hin : j ∈ (plug k .nil).inner := mem_plug_inner.mpr (.inr hj)
      exact ⟨hcheck j (hne j hin), fun d hd => hlr j (hne j hin) d hd⟩
    · exact (hcheck j (hne' j (mem_plug_leaves.mpr (.inr hj)))).le
  · obtain ⟨-, hownk⟩ := owned_plug.mp h.owned
    refine owned_plug.mpr ⟨trivial, hownk.change (x := i) (fun j hj _ => ?_) ?_ (fun _ _ _ => rfl)
      fun j hj hji => ?_⟩
    · exact absurd hj (Multiset.notMem_zero j)
    · exact fun hk => hnewl (mem_plug_leaves.mpr (.inr hk))
    · exact absurd hji (hne' _ (h.owned.mem_leaves (mem_plug_inner.mpr (.inr hj))))
  · intro a ha hal
    rw [hinner] at ha
    rw [hleaves, Multiset.mem_cons] at hal
    rcases hal with rfl | hal
    · exact absurd ha hnewi
    · exact h.own_self a ha hal
  · intro a ha hfree
    rw [hleaves, Multiset.mem_cons] at ha
    rw [hinner] at hfree
    rcases ha with rfl | ha
    · refine ⟨by rw [hnode]; exact hlen, ?_, .inr (by rw [hnode]; exact hself)⟩
      revert hself hnext
      unfold SelfLoop
      cases (w' a).bit c
      · exact fun h1 h2 => .inr ⟨h2, h1⟩
      · exact fun h1 h2 => .inl ⟨h2, h1⟩
    · have hain := h.not_inner_of_unowned ha hfree
      have ha0 := h.ne_zero (mem_ids.mpr (.inr ha))
      rw [hw a (mem_ids.mpr (.inr ha))]
      exact (h.disabled a ha hfree).congr (hkeep a ha0 (hne' a ha) hain)
        (.inl (hcheck a (hne' a ha)))
  · intro j hj hdead
    rw [hinner] at hj
    rw [hleaves, Multiset.mem_cons, not_or] at hdead
    have hl := h.owned.mem_leaves hj
    rw [SelfLoop.congr (hkeep _ (h.ne_zero (mem_ids.mpr (.inr hl))) (hne' _ hl)
      (h.own_not_inner hj hdead.2))]
    exact h.enabled j hj hdead.2

/-- **Removing a leaf without a branch.** -/
theorem Rooted.pruneLeaf {i : ℕ} (h : Rooted nodes w (plug k (.leaf i)) own)
    (hfree : ∀ j ∈ (plug k (.leaf i)).inner, own j ≠ i)
    (hcheck : ∀ j, (nodes' j).check = (nodes j).check)
    (hlr : ∀ j d, place k ≠ ⟨j, d⟩ → (nodes' j).lr d = (nodes j).lr d)
    (hlink : linkAt nodes' (place k) = 0) : Rooted nodes' w (plug k .nil) own := by
  have hinner : (plug k .nil).inner = (plug k (.leaf i)).inner := by
    rw [inner_plug, inner_plug]
    rfl
  have hleaves : (plug k (.leaf i)).leaves = i ::ₘ (plug k .nil).leaves := by
    rw [leaves_plug, leaves_plug, leaves_leaf, leaves_nil, zero_add, Multiset.singleton_add]
  have hkeep : ∀ j, j ≠ 0 → j ∉ (plug k (.leaf i)).inner → ∀ d, (nodes' j).lr d = (nodes j).lr d :=
    fun j h0 hin d => hlr j d (place_ne_of_not_mem_plug h0 hin)
  have hmem : ∀ j ∈ (plug k .nil).leaves, j ∈ (plug k (.leaf i)).leaves := fun j hj => by
    rw [hleaves]
    exact Multiset.mem_cons_of_mem hj
  obtain ⟨hctx, -, -⟩ := wf_plug.mp h.wf
  obtain ⟨haround, -⟩ := linked_plug.mp h.linked
  have hnodup := h.inner_nodup
  rw [inner_plug] at hnodup
  obtain ⟨-, hnodupk, -⟩ := Multiset.nodup_add.mp hnodup
  have hlnodup := h.leaves_nodup
  rw [hleaves, Multiset.nodup_cons] at hlnodup
  refine
    { linked := ?_
      wf := wf_prune h.wf
      inner_nodup := by rw [hinner]; exact h.inner_nodup
      leaves_nodup := hlnodup.2
      owned := ?_
      own_inj := by rw [hinner]; exact h.own_inj
      own_self := fun a ha hal => h.own_self a (hinner ▸ ha) (hmem a hal)
      disabled := ?_
      enabled := ?_ }
  · refine linked_plug.mpr ⟨?_, hlink⟩
    exact haround.congr hctx hnodupk (fun hroot => hlr 0 true hroot)
      (fun j _ => ⟨hcheck j, fun d hd => hlr j d hd⟩) fun j _ => (hcheck j).le
  · obtain ⟨-, hownk⟩ := owned_plug.mp h.owned
    refine owned_plug.mpr ⟨trivial, hownk.change (x := i) (fun j hj hji => ?_) ?_ (fun _ _ _ => rfl)
      fun j hj hji => ?_⟩
    · exact absurd (Multiset.mem_singleton.mp hj) hji
    · intro hk
      rw [leaves_plug, leaves_nil, zero_add] at hlnodup
      exact hlnodup.1 hk
    · exact absurd hji (hfree j (mem_plug_inner.mpr (.inr hj)))
  · intro a ha hunowned
    rw [hinner] at hunowned
    have hain := h.not_inner_of_unowned (hmem a ha) hunowned
    have ha0 := h.ne_zero (mem_ids.mpr (.inr (hmem a ha)))
    exact (h.disabled a (hmem a ha) hunowned).congr (hkeep a ha0 hain) (.inl (hcheck a))
  · intro j hj hdead
    rw [hinner] at hj
    have hdead' : j ∉ (plug k (.leaf i)).leaves := by
      rw [hleaves, Multiset.mem_cons, not_or]
      refine ⟨?_, hdead⟩
      rintro rfl
      exact hfree j hj (h.own_self j hj (by rw [hleaves]; exact Multiset.mem_cons_self _ _))
    have hl := h.owned.mem_leaves hj
    rw [SelfLoop.congr (hkeep _ (h.ne_zero (mem_ids.mpr (.inr hl))) (h.own_not_inner hj hdead'))]
    exact h.enabled j hj hdead'

/-! ## Removing a branch -/

/-- The owners after the leaf `x` and the branch `p` are gone: what `x` owned goes to
the owner of `p`. -/
def passOn (own : ℕ → ℕ) (x p : ℕ) (j : ℕ) : ℕ := if own j = x then own p else own j

theorem passOn_of_ne {x p j : ℕ} (h : own j ≠ x) : passOn own x p j = own j := if_neg h

theorem passOn_of_eq {x p j : ℕ} (h : own j = x) : passOn own x p j = own p := if_pos h

/-- A branch with a leaf at its place is linked to the leaf. -/
theorem Rooted.lr_dir {x : ℕ} (h : Rooted nodes w (plug (f :: k) (.leaf x)) own) :
    (nodes f.id).lr f.dir = x := (linked_plug.mp h.linked).2.1

/-- **Removing a leaf and the branch above it.** The other side takes the place of the
branch; if it is a leaf, its check must be that of an output there. -/
theorem Rooted.splice {x : ℕ} (h : Rooted nodes w (plug (f :: k) (.leaf x)) own)
    (howned : ∃ j ∈ (plug (f :: k) (.leaf x)).inner, own j = x)
    (hinner : ∀ j ∈ (plug k f.sib).inner, (nodes' j).check = (nodes j).check)
    (hleaves : ∀ j ∈ (plug k f.sib).leaves,
      (nodes' j).check = (nodes j).check ∨ (nodes' j).check = 0)
    (hlr : ∀ j d, place k ≠ ⟨j, d⟩ → (nodes' j).lr d = (nodes j).lr d)
    (hlink : linkAt nodes' (place k) = (nodes f.id).lr (!f.dir))
    (hout : ∀ o, f.sib = .leaf o → ((nodes' o).check : ℤ) ≤ lastCheck k) :
    Rooted nodes' w (plug k f.sib) (passOn own x f.id) := by
  have hoinner : (plug (f :: k) (.leaf x)).inner = f.id ::ₘ (plug k f.sib).inner := by
    rw [inner_plug, inner_plug, innerBeside, inner_leaf, zero_add]
  have holeaves : (plug (f :: k) (.leaf x)).leaves = x ::ₘ (plug k f.sib).leaves := by
    rw [leaves_plug, leaves_plug, leavesBeside, leaves_leaf, Multiset.singleton_add]
  have hinner_nodup := h.inner_nodup
  rw [hoinner, Multiset.nodup_cons] at hinner_nodup
  have hleaves_nodup := h.leaves_nodup
  rw [holeaves, Multiset.nodup_cons] at hleaves_nodup
  have hin : ∀ j ∈ (plug k f.sib).inner, j ∈ (plug (f :: k) (.leaf x)).inner := fun j hj => by
    rw [hoinner]
    exact Multiset.mem_cons_of_mem hj
  have hlf : ∀ j ∈ (plug k f.sib).leaves, j ∈ (plug (f :: k) (.leaf x)).leaves := fun j hj => by
    rw [holeaves]
    exact Multiset.mem_cons_of_mem hj
  have hid : f.id ∈ (plug (f :: k) (.leaf x)).inner := by
    rw [hoinner]
    exact Multiset.mem_cons_self _ _
  have hnex : ∀ j ∈ (plug k f.sib).leaves, j ≠ x := fun j hj hjx => hleaves_nodup.1 (hjx ▸ hj)
  have hneid : ∀ j ∈ (plug k f.sib).inner, j ≠ f.id := fun j hj hjf => hinner_nodup.1 (hjf ▸ hj)
  -- the owner of the removed branch is the leaf or on the other side
  have hownid : own f.id = x ∨ own f.id ∈ f.sib.leaves := by
    have := (owned_plug.mp h.owned).2.1
    rwa [leaves_leaf, Multiset.mem_add, Multiset.mem_singleton] at this
  have hmoved : ∀ j ∈ (plug k f.sib).inner, own j = x → own f.id ∈ f.sib.leaves := by
    intro j hj hjx
    rcases hownid with hx | hx
    · exact absurd (h.own_inj j (hin j hj) _ hid (hjx.trans hx.symm)) (hneid j hj)
    · exact hx
  have hkeep : ∀ j, j ≠ 0 → j ∉ (plug k f.sib).inner → ∀ d, (nodes' j).lr d = (nodes j).lr d :=
    fun j h0 hj d => hlr j d (place_ne_of_not_mem_plug h0 hj)
  obtain ⟨⟨hlt, -, -, hsibwf, -, -, hctx⟩, -, -⟩ := wf_plug.mp h.wf
  obtain ⟨⟨-, -, -, hsib, haround⟩, -⟩ := linked_plug.mp h.linked
  have hnodup := hinner_nodup.2
  rw [inner_plug] at hnodup
  obtain ⟨-, hnodupk, hdisj⟩ := Multiset.nodup_add.mp hnodup
  refine
    { linked := ?_
      wf := wf_splice h.wf
      inner_nodup := hinner_nodup.2
      leaves_nodup := hleaves_nodup.2
      owned := ?_
      own_inj := ?_
      own_self := ?_
      disabled := ?_
      enabled := ?_ }
  · refine linked_plug.mpr ⟨haround.congr hctx hnodupk (fun hroot => hlr 0 true hroot)
      (fun j hj => ⟨hinner j (mem_plug_inner.mpr (.inr hj)), fun d hd => hlr j d hd⟩)
      fun j hj => ?_, ?_⟩
    · have := hleaves j (mem_plug_leaves.mpr (.inr hj))
      omega
    · rw [hlink]
      cases hs : f.sib with
      | nil =>
        rw [hs] at hsib
        exact hsib
      | leaf o =>
        rw [hs] at hsib
        exact ⟨hsib.1, hsib.2.1, hout o hs⟩
      | node o c child =>
        -- below the branch every check is larger than that of the removed branch
        have hsib' : Linked nodes' f.check ((nodes f.id).lr (!f.dir)) f.sib := by
          refine hsib.congr hsibwf (fun j hj => ?_) fun j hj => ?_
          · have hjin : j ∈ (plug k f.sib).inner := mem_plug_inner.mpr (.inl hj)
            have h0 : j ≠ 0 := h.ne_zero (mem_ids.mpr (.inl (hin j hjin)))
            refine ⟨hinner j hjin, funext fun d => hlr j d (place_ne h0 ?_)⟩
            exact fun hk => Multiset.disjoint_left.mp hdisj hj hk
          · have := hleaves j (mem_plug_leaves.mpr (.inl hj))
            omega
        rw [hs] at hsib'
        exact hsib'
  · obtain ⟨-, -, hownsib, hownk⟩ := owned_plug.mp h.owned
    rw [leaves_leaf] at hownk
    have hxsib : x ∉ f.sib.leaves := fun hx => hnex x (mem_plug_leaves.mpr (.inl hx)) rfl
    refine owned_plug.mpr ⟨hownsib.congr fun j hj => ?_, hownk.change (x := x) (fun j hj hjx => ?_) ?_
      (fun j _ hjx => passOn_of_ne hjx) fun j hj hjx => ?_⟩
    · exact passOn_of_ne fun hjx => hxsib (hjx ▸ hownsib.mem_leaves hj)
    · rw [Multiset.mem_add, Multiset.mem_singleton] at hj
      exact hj.resolve_left hjx
    · exact fun hx => hnex x (mem_plug_leaves.mpr (.inr hx)) rfl
    · rw [passOn_of_eq hjx]
      exact hmoved j (mem_plug_inner.mpr (.inr hj)) hjx
  · intro a ha b hb hab
    have hfa := hneid a ha
    have hfb := hneid b hb
    by_cases hax : own a = x <;> by_cases hbx : own b = x
    · exact h.own_inj a (hin a ha) b (hin b hb) (hax.trans hbx.symm)
    · rw [passOn_of_eq hax, passOn_of_ne hbx] at hab
      exact absurd (h.own_inj _ hid b (hin b hb) hab).symm hfb
    · rw [passOn_of_ne hax, passOn_of_eq hbx] at hab
      exact absurd (h.own_inj a (hin a ha) _ hid hab) hfa
    · rw [passOn_of_ne hax, passOn_of_ne hbx] at hab
      exact h.own_inj a (hin a ha) b (hin b hb) hab
  · intro a ha hal
    have hself := h.own_self a (hin a ha) (hlf a hal)
    rw [passOn_of_ne (by rw [hself]; exact hnex a hal), hself]
  · intro a ha hfree
    have hunowned : ∀ j ∈ (plug (f :: k) (.leaf x)).inner, own j ≠ a := by
      intro j hj hja
      rw [hoinner, Multiset.mem_cons] at hj
      rcases hj with rfl | hj
      · -- what the leaf owned is owned by `a` now
        obtain ⟨m, hm, hmx⟩ := howned
        rw [hoinner, Multiset.mem_cons] at hm
        rcases hm with rfl | hm
        · exact hnex a ha (hja.symm.trans hmx)
        · exact hfree m hm ((passOn_of_eq hmx).trans hja)
      · exact hfree j hj ((passOn_of_ne (by rw [hja]; exact hnex a ha)).trans hja)
    have hain := h.not_inner_of_unowned (hlf a ha) hunowned
    have ha0 := h.ne_zero (mem_ids.mpr (.inr (hlf a ha)))
    exact (h.disabled a (hlf a ha) hunowned).congr (hkeep a ha0 fun hj => hain (hin a hj))
      (hleaves a ha)
  · intro j hj hdead
    by_cases hjx : own j = x
    · rw [passOn_of_eq hjx]
      have hy := hmoved j hj hjx
      have hyl : own f.id ∈ (plug (f :: k) (.leaf x)).leaves := hlf _ (mem_plug_leaves.mpr (.inl hy))
      have hynex : own f.id ≠ x := hnex _ (mem_plug_leaves.mpr (.inl hy))
      by_cases hlive : f.id ∈ (plug (f :: k) (.leaf x)).leaves
      · -- the branch was live: its node still has the link to the removed leaf
        have hself := h.own_self _ hid hlive
        have h0 : f.id ≠ 0 := h.ne_zero (mem_ids.mpr (.inl hid))
        have hx0 : x ≠ 0 := h.ne_zero (mem_ids.mpr (.inr (by
          rw [holeaves]
          exact Multiset.mem_cons_self _ _)))
        rw [hself] at hynex ⊢
        rw [SelfLoop.congr (hkeep _ h0 hinner_nodup.1)]
        have hdir := h.lr_dir
        intro hloop
        rcases hloop with ⟨h1, h2⟩ | ⟨h1, h2⟩ <;> revert hdir <;> cases f.dir <;> intro hdir
        · exact hx0 (hdir.symm.trans h1)
        · exact hynex (h2.symm.trans hdir)
        · exact hynex (h2.symm.trans hdir)
        · exact hx0 (hdir.symm.trans h1)
      · have hyin := h.own_not_inner hid hlive
        rw [SelfLoop.congr (hkeep _ (h.ne_zero (mem_ids.mpr (.inr hyl))) fun hj => hyin (hin _ hj))]
        exact h.enabled _ hid hlive
    · rw [passOn_of_ne hjx]
      have hdead' : j ∉ (plug (f :: k) (.leaf x)).leaves := by
        rw [holeaves, Multiset.mem_cons, not_or]
        refine ⟨?_, hdead⟩
        rintro rfl
        refine hjx (h.own_self j (hin j hj) ?_)
        rw [holeaves]
        exact Multiset.mem_cons_self _ _
      have hl := h.owned.mem_leaves (hin j hj)
      have hlin := h.own_not_inner (hin j hj) hdead'
      rw [SelfLoop.congr (hkeep _ (h.ne_zero (mem_ids.mpr (.inr hl))) fun hj => hlin (hin _ hj))]
      exact h.enabled j (hin j hj) hdead'

/-- **Removing the first branch** when only a leaf is left: the leaf gets a branch. -/
theorem Rooted.spliceFirst {x o c : ℕ} (h : Rooted nodes w (plug [f] (.leaf x)) own)
    (hsib : f.sib = .leaf o) (hlen : c < (w o).len) (hroot : linkAt nodes' .root = o)
    (hcheck : (nodes' o).check = c) (hself : (nodes' o).lr ((w o).bit c) = o)
    (hnext : (nodes' o).lr (!(w o).bit c) = 0) :
    Rooted nodes' w (plug [⟨o, c, (w o).bit c, .nil⟩] (.leaf o)) fun _ => o := by
  have ho : o ≠ 0 := by
    refine h.ne_zero (mem_ids.mpr (.inr (mem_plug_leaves.mpr (.inr ?_))))
    rw [mem_leavesBeside_cons, hsib]
    exact .inl (Multiset.mem_singleton_self o)
  have hinner : (plug [⟨o, c, (w o).bit c, .nil⟩] (.leaf o)).inner = {o} := by
    rw [inner_plug]
    rfl
  have hleaves : (plug [⟨o, c, (w o).bit c, .nil⟩] (.leaf o)).leaves = {o} := by
    rw [leaves_plug]
    rfl
  refine
    { linked := linked_plug.mpr ⟨⟨ho, hcheck, hroot, hnext, trivial⟩, hself, ho, ?_⟩
      wf := ?_
      inner_nodup := by rw [hinner]; exact Multiset.nodup_singleton o
      leaves_nodup := by rw [hleaves]; exact Multiset.nodup_singleton o
      owned := ?_
      own_inj := ?_
      own_self := ?_
      disabled := ?_
      enabled := ?_ }
  · rw [hcheck]
    exact le_rfl
  · refine @wf_branch ℕ w [] .nil o c trivial (by simp only [lastCheck]; omega) hlen ?_ trivial ?_
    · intro g hg
      cases hg
    · exact fun j hj => absurd hj not_mem_ids_nil
  · refine owned_plug.mpr ⟨trivial, ?_, trivial, trivial⟩
    exact Multiset.mem_add.mpr (.inl (Multiset.mem_singleton_self o))
  · intro a ha b hb _
    rw [hinner, Multiset.mem_singleton] at ha hb
    exact ha.trans hb.symm
  · intro a ha _
    rw [hinner, Multiset.mem_singleton] at ha
    exact ha.symm
  · intro a ha hfree
    rw [hleaves, Multiset.mem_singleton] at ha
    refine absurd ha.symm (hfree o ?_)
    rw [hinner]
    exact Multiset.mem_singleton_self o
  · intro j hj hdead
    rw [hinner, ← hleaves] at hj
    exact absurd hj hdead

/-! ## Another node for a branch -/

/-- **The owner of a dead branch takes it over.** -/
theorem Rooted.takeOver {d c : ℕ} {child : Bool → Trie ℕ}
    (h : Rooted nodes w (plug k (.node d c child)) own)
    (hdead : d ∉ (plug k (.node d c child)).leaves)
    (hnode : (nodes' (own d)).check = c) (hchild : (nodes' (own d)).lr = (nodes d).lr)
    (hcheck : ∀ j, j ≠ own d → (nodes' j).check = (nodes j).check)
    (hlr : ∀ j, j ≠ own d → ∀ e, place k ≠ ⟨j, e⟩ → (nodes' j).lr e = (nodes j).lr e)
    (hlink : linkAt nodes' (place k) = own d) :
    Rooted nodes' w (plug k (.node (own d) c child)) (Function.update own (own d) (own d)) := by
  have hd : d ∈ (plug k (.node d c child)).inner :=
    mem_plug_inner.mpr (.inl (mem_inner_node.mpr (.inl rfl)))
  have hnot := h.own_not_inner hd hdead
  have hbelow : own d ∈ (Trie.node d c child).leaves := (owned_plug.mp h.owned).1.1
  have hlive : own d ∈ (plug k (.node d c child)).leaves := mem_plug_leaves.mpr (.inl hbelow)
  have he0 : own d ≠ 0 := h.ne_zero (mem_ids.mpr (.inr hlive))
  have hoinner : (plug k (.node d c child)).inner =
      d ::ₘ ((child false).inner + (child true).inner + innerBeside k) := by
    rw [inner_plug, Trie.inner, Multiset.cons_add]
  have hinner : (plug k (.node (own d) c child)).inner =
      own d ::ₘ ((child false).inner + (child true).inner + innerBeside k) := by
    rw [inner_plug, Trie.inner, Multiset.cons_add]
  have hleaves : (plug k (.node (own d) c child)).leaves = (plug k (.node d c child)).leaves := by
    rw [leaves_plug, leaves_plug]
    rfl
  have hinner_nodup := h.inner_nodup
  rw [hoinner, Multiset.nodup_cons] at hinner_nodup
  -- the branches other than the one taken over
  have hmem : ∀ j ∈ (plug k (.node (own d) c child)).inner, j ≠ own d →
      j ∈ (plug k (.node d c child)).inner ∧ j ≠ d := by
    intro j hj hne
    rw [hinner, Multiset.mem_cons] at hj
    have hrest := hj.resolve_left hne
    refine ⟨by rw [hoinner]; exact Multiset.mem_cons_of_mem hrest, fun hjd => ?_⟩
    exact hinner_nodup.1 (hjd ▸ hrest)
  have hne : ∀ j ∈ (plug k (.node d c child)).inner, j ≠ own d := fun j hj hje => hnot (hje ▸ hj)
  have hown : ∀ j, j ≠ own d → Function.update own (own d) (own d) j = own j :=
    fun j hj => Function.update_of_ne hj _ _
  have hkeep : ∀ j, j ≠ 0 → j ≠ own d → j ∉ (plug k (.node d c child)).inner →
      ∀ e, (nodes' j).lr e = (nodes j).lr e :=
    fun j h0 hje hj e => hlr j hje e (place_ne_of_not_mem_plug h0 hj)
  obtain ⟨hctx, ⟨hlo, hagree, hside⟩, -⟩ := wf_plug.mp h.wf
  obtain ⟨haround, -, -, -, hchildren⟩ := linked_plug.mp h.linked
  have hnodup := h.inner_nodup
  rw [inner_plug] at hnodup
  obtain ⟨-, hnodupk, hdisj⟩ := Multiset.nodup_add.mp hnodup
  have hlnodup := h.leaves_nodup
  rw [leaves_plug] at hlnodup
  obtain ⟨-, -, hldisj⟩ := Multiset.nodup_add.mp hlnodup
  refine
    { linked := ?_
      wf := wf_rename h.wf (mem_ids.mpr (.inr hbelow))
      inner_nodup := ?_
      leaves_nodup := by rw [hleaves]; exact h.leaves_nodup
      owned := ?_
      own_inj := ?_
      own_self := ?_
      disabled := ?_
      enabled := ?_ }
  · refine linked_plug.mpr ⟨haround.congr hctx hnodupk (fun hroot => hlr 0 he0.symm true hroot)
      (fun j hj => ?_) fun j hj => ?_, hlink, he0, hnode, fun e => ?_⟩
    · have hj := hne j (mem_plug_inner.mpr (.inr hj))
      exact ⟨hcheck j hj, fun e he => hlr j hj e he⟩
    · refine (hcheck j ?_).le
      rintro rfl
      exact Multiset.disjoint_left.mp hldisj hbelow hj
    · rw [hchild]
      refine (hchildren e).congr (hside e).2 (fun j hj => ?_) fun j hj => ?_
      · have hjn : j ∈ (Trie.node d c child).inner := mem_inner_node.mpr (.inr ⟨e, hj⟩)
        have hjin : j ∈ (plug k (.node d c child)).inner := mem_plug_inner.mpr (.inl hjn)
        have h0 : j ≠ 0 := h.ne_zero (mem_ids.mpr (.inl hjin))
        refine ⟨hcheck j (hne j hjin), funext fun e' => hlr j (hne j hjin) e' (place_ne h0 ?_)⟩
        exact fun hk => Multiset.disjoint_left.mp hdisj hjn hk
      · by_cases hje : j = own d
        · exact .inr (by rw [hje, hnode])
        · exact .inl (hcheck j hje).le
  · rw [hinner, Multiset.nodup_cons]
    refine ⟨fun hj => hnot ?_, hinner_nodup.2⟩
    rw [hoinner]
    exact Multiset.mem_cons_of_mem hj
  · obtain ⟨⟨-, hownc⟩, hownk⟩ := owned_plug.mp h.owned
    refine owned_plug.mpr ⟨⟨?_, fun e => (hownc e).congr fun j hj => hown j ?_⟩, ?_⟩
    · rw [Function.update_self]
      exact hbelow
    · exact hne j (mem_plug_inner.mpr (.inl (mem_inner_node.mpr (.inr ⟨e, hj⟩))))
    · -- no leaf changes; `d` stands for one that is not there
      refine hownk.change (x := d) (fun j hj _ => hj) ?_ (fun j hj _ => ?_) fun j hj hjd => ?_
      · exact fun hk => hdead (mem_plug_leaves.mpr (.inr hk))
      · exact hown j (hne j (mem_plug_inner.mpr (.inr hj)))
      · refine absurd (h.owned.mem_leaves (mem_plug_inner.mpr (.inr hj))) ?_
        rwa [hjd]
  · intro a ha b hb hab
    by_cases hae : a = own d <;> by_cases hbe : b = own d
    · exact hae.trans hbe.symm
    · rw [hae, Function.update_self, hown b hbe] at hab
      obtain ⟨hb', hbd⟩ := hmem b hb hbe
      exact absurd (h.own_inj d hd b hb' hab).symm hbd
    · rw [hbe, Function.update_self, hown a hae] at hab
      obtain ⟨ha', had⟩ := hmem a ha hae
      exact absurd (h.own_inj a ha' d hd hab) had
    · rw [hown a hae, hown b hbe] at hab
      exact h.own_inj a (hmem a ha hae).1 b (hmem b hb hbe).1 hab
  · intro a ha hal
    rw [hleaves] at hal
    by_cases hae : a = own d
    · rw [hae]
      exact Function.update_self ..
    · rw [hown a hae]
      exact h.own_self a (hmem a ha hae).1 hal
  · intro a ha hfree
    rw [hleaves] at ha
    have hae : a ≠ own d := by
      rintro rfl
      refine hfree (own d) ?_ (Function.update_self ..)
      rw [hinner]
      exact Multiset.mem_cons_self _ _
    have hunowned : ∀ j ∈ (plug k (.node d c child)).inner, own j ≠ a := by
      intro j hj hja
      by_cases hjd : j = d
      · rw [hjd] at hja
        exact hae hja.symm
      · have hje := hne j hj
        refine hfree j ?_ ((hown j hje).trans hja)
        rw [hinner]
        rw [hoinner, Multiset.mem_cons] at hj
        exact Multiset.mem_cons_of_mem (hj.resolve_left hjd)
    have ha0 := h.ne_zero (mem_ids.mpr (.inr ha))
    exact (h.disabled a ha hunowned).congr (hkeep a ha0 hae (h.not_inner_of_unowned ha hunowned))
      (.inl (hcheck a hae))
  · intro j hj hjdead
    rw [hleaves] at hjdead
    have hje : j ≠ own d := by
      rintro rfl
      exact hjdead hlive
    obtain ⟨hj', hjd⟩ := hmem j hj hje
    have hl := h.owned.mem_leaves hj'
    have hle : own j ≠ own d := fun heq => hjd (h.own_inj j hj' d hd heq)
    rw [hown j hje, SelfLoop.congr (hkeep _ (h.ne_zero (mem_ids.mpr (.inr hl))) hle
      (h.own_not_inner hj' hjdead))]
    exact h.enabled j hj' hjdead

end Groonga.Pat
