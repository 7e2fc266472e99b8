import Groonga.Pat.Word

/-!
# Trees in the node array

`Linked nodes lo r t` says that the links from the id `r` on spell the tree `t`: an
inner node has its own check, a link to a leaf leads to a node whose check is not
larger than `lo`, the check of the node the link comes from. The loops of the source
follow `descend` on the tree that is linked.
-/

namespace Groonga.Pat

open Lib.Patricia Lib.Patricia.Trie

/-- The link stored at a location. -/
def linkAt (nodes : ℕ → Node) (p : Loc) : ℕ := (nodes p.node).lr p.direction

theorem load_eq (s : GrnPat) (p : Loc) : s.load p = linkAt s.nodes p := rfl

/-- The tree behind the link `r` of a node with the check `lo`. -/
def Linked (nodes : ℕ → Node) : ℤ → ℕ → Trie ℕ → Prop
  | _, r, .nil => r = 0
  | lo, r, .leaf i => r = i ∧ i ≠ 0 ∧ ((nodes i).check : ℤ) ≤ lo
  | _, r, .node i c child =>
    r = i ∧ i ≠ 0 ∧ (nodes i).check = c ∧ ∀ d, Linked nodes c ((nodes i).lr d) (child d)

/-- The link that holds a place. -/
def place : List (Frame ℕ) → Loc
  | [] => .root
  | f :: _ => ⟨f.id, f.dir⟩

/-- The frames of a place are linked, whatever its own link is. -/
def LinkedAround (nodes : ℕ → Node) : List (Frame ℕ) → Prop
  | [] => True
  | f :: k => f.id ≠ 0 ∧ (nodes f.id).check = f.check ∧ linkAt nodes (place k) = f.id ∧
      Linked nodes f.check ((nodes f.id).lr (!f.dir)) f.sib ∧ LinkedAround nodes k

variable {nodes nodes' : ℕ → Node} {k : List (Frame ℕ)} {t : Trie ℕ}

theorem linked_fill {lo : ℤ} {r : ℕ} {f : Frame ℕ} :
    Linked nodes lo r (f.fill t) ↔ r = f.id ∧ f.id ≠ 0 ∧ (nodes f.id).check = f.check ∧
      Linked nodes f.check ((nodes f.id).lr (!f.dir)) f.sib ∧
      Linked nodes f.check ((nodes f.id).lr f.dir) t := by
  refine and_congr_right fun _ => and_congr_right fun _ => and_congr_right fun _ =>
    ⟨fun h => ?_, fun ⟨hsib, ht⟩ d => ?_⟩
  · have hin := h f.dir
    have hout := h (!f.dir)
    rw [Frame.child_dir] at hin
    rw [Frame.child_not_dir] at hout
    exact ⟨hout, hin⟩
  · rcases eq_or_eq_not_dir d f with rfl | rfl
    · rwa [Frame.child_dir]
    · rwa [Frame.child_not_dir]

/-- **Taking a linked tree apart at a place.** -/
theorem linked_plug : Linked nodes (-1) (linkAt nodes .root) (plug k t) ↔
    LinkedAround nodes k ∧ Linked nodes (lastCheck k) (linkAt nodes (place k)) t := by
  induction k generalizing t with
  | nil => exact ⟨fun h => ⟨trivial, h⟩, And.right⟩
  | cons f k ih =>
    rw [plug_cons, ih, linked_fill, LinkedAround]
    constructor
    · rintro ⟨hk, hr, hne, hcheck, hsib, ht⟩
      exact ⟨⟨hne, hcheck, hr, hsib, hk⟩, ht⟩
    · rintro ⟨⟨hne, hcheck, hr, hsib, hk⟩, ht⟩
      exact ⟨hk, hr, hne, hcheck, hsib, ht⟩

theorem LinkedAround.check {f : Frame ℕ} (h : LinkedAround nodes k) (hf : f ∈ k) :
    (nodes f.id).check = f.check := by
  induction k with
  | nil => cases hf
  | cons g k ih =>
    rcases List.mem_cons.mp hf with rfl | hf
    · exact h.2.1
    · exact ih h.2.2.2.2 hf

/-! ## Frame rules -/

/-- Nothing that a linked tree reads has changed; the check of an output may fall, or be
any that is not above the tree. -/
theorem Linked.congr {w : ℕ → Word} {lo : ℤ} {r : ℕ} (h : Linked nodes lo r t) (hwf : WF w lo t)
    (hinner : ∀ i ∈ t.inner, (nodes' i).check = (nodes i).check ∧ (nodes' i).lr = (nodes i).lr)
    (hleaves : ∀ i ∈ t.leaves, (nodes' i).check ≤ (nodes i).check ∨ ((nodes' i).check : ℤ) ≤ lo) :
    Linked nodes' lo r t := by
  induction t generalizing lo r with
  | nil => exact h
  | leaf i =>
    obtain ⟨hr, hne, hlo⟩ := h
    have := hleaves i (Multiset.mem_singleton_self i)
    exact ⟨hr, hne, by omega⟩
  | node i c child ih =>
    obtain ⟨hr, hne, hcheck, hchild⟩ := h
    obtain ⟨hlo, -, hside⟩ := hwf
    obtain ⟨h1, h2⟩ := hinner i (mem_inner_node.mpr (.inl rfl))
    refine ⟨hr, hne, h1.trans hcheck, fun d => ?_⟩
    rw [h2]
    refine ih d (hchild d) (hside d).2 (fun j hj => hinner j (mem_inner_node.mpr (.inr ⟨d, hj⟩)))
      fun j hj => ?_
    have := hleaves j (mem_leaves_node.mpr ⟨d, hj⟩)
    omega

theorem Linked.mono {lo lo' : ℤ} {r : ℕ} (h : Linked nodes lo r t) (hlo : lo ≤ lo') :
    Linked nodes lo' r t := by
  cases t with
  | nil => exact h
  | leaf i => exact ⟨h.1, h.2.1, h.2.2.trans hlo⟩
  | node i c child => exact h

theorem Linked.ne_zero {lo : ℤ} {r i : ℕ} (h : Linked nodes lo r t) (hi : i ∈ t.ids) : i ≠ 0 := by
  induction t generalizing lo r with
  | nil => exact absurd hi not_mem_ids_nil
  | leaf j =>
    obtain rfl := mem_ids_leaf.mp hi
    exact h.2.1
  | node j c child ih =>
    rcases mem_ids_node.mp hi with rfl | ⟨d, hd⟩
    · exact h.2.1
    · exact ih d (h.2.2.2 d) hd

/-- The links of a context other than its own place are unchanged. -/
theorem LinkedAround.congr {w : ℕ → Word} (h : LinkedAround nodes k) (hwf : ContextWF w k)
    (hnodup : (innerBeside k).Nodup)
    (hroot : place k ≠ .root → linkAt nodes' .root = linkAt nodes .root)
    (hinner : ∀ i ∈ innerBeside k, (nodes' i).check = (nodes i).check ∧
      ∀ d, place k ≠ ⟨i, d⟩ → (nodes' i).lr d = (nodes i).lr d)
    (hleaves : ∀ i ∈ leavesBeside k, (nodes' i).check ≤ (nodes i).check) :
    LinkedAround nodes' k := by
  induction k with
  | nil => trivial
  | cons f k ih =>
    obtain ⟨hne, hcheck, hlink, hsib, hk⟩ := h
    obtain ⟨-, -, -, hsibwf, -, -, hkwf⟩ := hwf
    have hid := hinner f.id (Multiset.mem_cons_self _ _)
    obtain ⟨hnotin, hnodup⟩ := Multiset.nodup_cons.mp hnodup
    rw [Multiset.mem_add, not_or] at hnotin
    obtain ⟨-, hnodupk, -⟩ := Multiset.nodup_add.mp hnodup
    -- no link of another node is the place
    have hother : ∀ i ∈ f.sib.inner + innerBeside k, (nodes' i).check = (nodes i).check ∧
        ∀ d, (nodes' i).lr d = (nodes i).lr d := by
      intro i hi
      refine ⟨(hinner i (Multiset.mem_cons_of_mem hi)).1, fun d => ?_⟩
      refine (hinner i (Multiset.mem_cons_of_mem hi)).2 d fun hplace => ?_
      obtain rfl : f.id = i := congrArg Loc.node hplace
      rcases Multiset.mem_add.mp hi with hi | hi
      · exact hnotin.1 hi
      · exact hnotin.2 hi
    have hroot' : linkAt nodes' .root = linkAt nodes .root :=
      hroot fun hplace => hne (congrArg Loc.node hplace)
    have hplace : linkAt nodes' (place k) = linkAt nodes (place k) := by
      rcases k with _ | ⟨g, k⟩
      · exact hroot'
      · exact (hother g.id (Multiset.mem_add.mpr (.inr (Multiset.mem_cons_self _ _)))).2 _
    refine ⟨hne, hid.1.trans hcheck, hplace.trans hlink, ?_, ih hk hkwf hnodupk (fun _ => hroot')
      (fun i hi => ?_) fun i hi => hleaves i (Multiset.mem_add.mpr (.inr hi))⟩
    · rw [hid.2 (!f.dir) (by simp [place])]
      refine hsib.congr hsibwf (fun i hi => ?_) fun i hi =>
        .inl (hleaves i (Multiset.mem_add.mpr (.inl hi)))
      obtain ⟨h1, h2⟩ := hother i (Multiset.mem_add.mpr (.inl hi))
      exact ⟨h1, funext h2⟩
    · obtain ⟨h1, h2⟩ := hother i (Multiset.mem_add.mpr (.inr hi))
      exact ⟨h1, fun d _ => h2 d⟩

/-! ## The loops -/

/-- There are more rounds left than checks above the last one. -/
def EnoughFuel (len fuel : ℕ) (k : List (Frame ℕ)) : Prop := (len : ℤ) + 1 ≤ fuel + lastCheck k

theorem EnoughFuel.next {len fuel c : ℕ} {i : ℕ} {d : Bool} {sib : Trie ℕ}
    (h : EnoughFuel len (fuel + 1) k) (hc : lastCheck k < c) :
    EnoughFuel len fuel (⟨i, c, d, sib⟩ :: k) := by
  have hlast : lastCheck (⟨i, c, d, sib⟩ :: k) = c := rfl
  unfold EnoughFuel at h ⊢
  rw [hlast]
  push_cast at h
  omega

/-- A loop that is not behind the end of the key has a round left. -/
theorem EnoughFuel.exists_succ {len fuel : ℕ} (h : EnoughFuel len fuel k)
    (hk : lastCheck k < len) : ∃ n, fuel = n + 1 := by
  unfold EnoughFuel at h
  exact ⟨fuel - 1, by omega⟩

theorem enoughFuel_start (len : ℕ) : EnoughFuel len (len + 2) [] := by
  simp only [EnoughFuel, lastCheck]
  push_cast
  omega

variable {s : GrnPat} {key : List UInt8} {w : ℕ → Word}

/-- The output that a search ends at. -/
def outputOf (s : GrnPat) (key : List UInt8) : Trie ℕ → ℕ
  | .leaf i => if s.keyOf i = key then i else 0
  | _ => 0

theorem getLoop_eq {fuel r : ℕ} (hlink : Linked s.nodes (lastCheck k) r t)
    (hwf : WF w (lastCheck k) t) (hk : lastCheck k < (key.length * 16 : ℕ))
    (hfuel : EnoughFuel (key.length * 16) fuel k) :
    getLoop s key (key.length * 16) fuel r (lastCheck k) =
      some (outputOf s key (descend (word key) k t).2) := by
  induction t generalizing k fuel r with
  | nil =>
    obtain ⟨fuel, rfl⟩ := hfuel.exists_succ hk
    obtain rfl : r = 0 := hlink
    rfl
  | leaf i =>
    obtain ⟨fuel, rfl⟩ := hfuel.exists_succ hk
    obtain ⟨rfl, hne, hlo⟩ := hlink
    simp only [getLoop, if_neg hne, if_neg (show ¬ key.length * 16 ≤ (s.nodes r).check by omega),
      if_pos hlo, descend, outputOf]
    split_ifs <;> rfl
  | node i c child ih =>
    obtain ⟨fuel, rfl⟩ := hfuel.exists_succ hk
    obtain ⟨rfl, hne, hcheck, hchild⟩ := hlink
    obtain ⟨hlo, -, hside⟩ := hwf
    rw [getLoop, if_neg hne]
    simp only [hcheck]
    rcases Nat.lt_or_ge c (key.length * 16) with hc | hc
    · rw [if_neg (Nat.not_le.mpr hc), if_neg (not_le.mpr hlo), descend, word_len, if_pos hc]
      exact @ih _ (⟨r, c, (word key).bit c, child (!(word key).bit c)⟩ :: k) _ _ (hchild _)
        (hside _).2 (Int.ofNat_lt.mpr hc) (hfuel.next hlo)
    · rw [if_pos hc, descend, word_len,
        if_neg (Nat.not_lt.mpr hc)]
      rfl

/-- The id of the last node above a place, 0 at the root. -/
def lastId : List (Frame ℕ) → ℕ
  | [] => 0
  | f :: _ => f.id

/-- The variables of `grn_pat_add_internal_find` at a place. -/
def findStateAt (k : List (Frame ℕ)) : FindState where
  id := lastId k
  idLocation := place k
  idLocationPrevious := place k.tail
  checkNode := lastCheck k
  checkNodePrevious := lastCheck k.tail

/-- What the search of `grn_pat_add_internal_find` ends with. -/
def foundAt (s : GrnPat) (key : List UInt8) : List (Frame ℕ) × Trie ℕ → Found
  | (k, .nil) => .compare { findStateAt k with id := 0 } (s.keyOf (lastId k))
  | (k, .leaf i) | (k, .node i _ _) =>
    if s.keyOf i = key then .found i else .compare { findStateAt k with id := i } (s.keyOf i)

theorem findLoop_eq {fuel : ℕ} (hlink : Linked s.nodes (lastCheck k) (linkAt s.nodes (place k)) t)
    (hwf : WF w (lastCheck k) t) (hk : lastCheck k < (key.length * 16 : ℕ))
    (hfuel : EnoughFuel (key.length * 16) fuel k) :
    findLoop s key (key.length * 16) fuel (findStateAt k) =
      some (foundAt s key (descend (word key) k t)) := by
  induction t generalizing k fuel with
  | nil =>
    obtain ⟨fuel, rfl⟩ := hfuel.exists_succ hk
    have hr : s.load (findStateAt k).idLocation = 0 := hlink
    rw [findLoop]
    simp only [hr, if_true]
    rfl
  | leaf i =>
    obtain ⟨fuel, rfl⟩ := hfuel.exists_succ hk
    obtain ⟨hr, hne, hlo⟩ := hlink
    have hr : s.load (findStateAt k).idLocation = i := hr
    have hstop : ¬ ((findStateAt k).checkNode < ((s.nodes i).check : ℤ) ∧
        (s.nodes i).check < key.length * 16) := fun h => absurd hlo (not_le.mpr h.1)
    rw [findLoop]
    simp only [hr, if_neg hne, if_neg hstop, descend, foundAt]
    split_ifs <;> rfl
  | node i c child ih =>
    obtain ⟨fuel, rfl⟩ := hfuel.exists_succ hk
    obtain ⟨hr, hne, hcheck, hchild⟩ := hlink
    obtain ⟨hlo, -, hside⟩ := hwf
    have hr : s.load (findStateAt k).idLocation = i := hr
    rw [findLoop]
    simp only [hr, if_neg hne, hcheck]
    rcases Nat.lt_or_ge c (key.length * 16) with hc | hc
    · rw [if_pos ⟨hlo, hc⟩, descend, word_len, if_pos hc]
      exact @ih _ (⟨i, c, (word key).bit c, child (!(word key).bit c)⟩ :: k) _ (hchild _)
        (hside _).2 (Int.ofNat_lt.mpr hc) (hfuel.next hlo)
    · rw [if_neg fun h => absurd h.2 (Nat.not_lt.mpr hc), descend, word_len,
        if_neg (Nat.not_lt.mpr hc)]
      simp only [foundAt]
      split_ifs <;> rfl

/-- The variables of `_grn_pat_del` at a place. -/
def delStateAt (k : List (Frame ℕ)) : DelState where
  p := place k
  p0 := place k.tail
  nodePrevious := lastId k
  nodeCheck := lastCheck k
  nodePreviousCheck := lastCheck k.tail

/-- What the search of `_grn_pat_del` ends with. -/
def delFoundAt (s : GrnPat) (key : List UInt8) : List (Frame ℕ) × Trie ℕ → Option DelState
  | (k, .leaf i) => if s.keyOf i = key then some (delStateAt k) else none
  | _ => none

theorem delLoop_eq {fuel : ℕ} (hlink : Linked s.nodes (lastCheck k) (linkAt s.nodes (place k)) t)
    (hwf : WF w (lastCheck k) t) (hk : lastCheck k < (key.length * 16 : ℕ))
    (hfuel : EnoughFuel (key.length * 16) fuel k) :
    delLoop s key (key.length * 16) fuel (delStateAt k) =
      some (delFoundAt s key (descend (word key) k t)) := by
  induction t generalizing k fuel with
  | nil =>
    obtain ⟨fuel, rfl⟩ := hfuel.exists_succ hk
    have hr : s.load (delStateAt k).p = 0 := hlink
    rw [delLoop]
    simp only [hr, if_true]
    rfl
  | leaf i =>
    obtain ⟨fuel, rfl⟩ := hfuel.exists_succ hk
    obtain ⟨hr, hne, hlo⟩ := hlink
    have hr : s.load (delStateAt k).p = i := hr
    have hout : ((s.nodes i).check : ℤ) ≤ (delStateAt k).nodeCheck := hlo
    rw [delLoop]
    simp only [hr, if_neg hne, if_neg (show ¬ key.length * 16 ≤ (s.nodes i).check by omega),
      if_pos hout, descend, delFoundAt]
    split_ifs <;> rfl
  | node i c child ih =>
    obtain ⟨fuel, rfl⟩ := hfuel.exists_succ hk
    obtain ⟨hr, hne, hcheck, hchild⟩ := hlink
    obtain ⟨hlo, -, hside⟩ := hwf
    have hr : s.load (delStateAt k).p = i := hr
    have hdown : ¬ (c : ℤ) ≤ (delStateAt k).nodeCheck := not_le.mpr hlo
    rw [delLoop]
    simp only [hr, if_neg hne, hcheck]
    rcases Nat.lt_or_ge c (key.length * 16) with hc | hc
    · rw [if_neg (Nat.not_le.mpr hc), if_neg hdown, descend, word_len, if_pos hc]
      exact @ih _ (⟨i, c, (word key).bit c, child (!(word key).bit c)⟩ :: k) _ (hchild _)
        (hside _).2 (Int.ofNat_lt.mpr hc) (hfuel.next hlo)
    · rw [if_pos hc, descend, word_len,
        if_neg (Nat.not_lt.mpr hc)]
      rfl

/-- The search of `delinfo_turn_2_internal` finds the branch of a node that is still in
the tree. -/
theorem turn2Loop_eq {d fuel : ℕ}
    (hlink : Linked s.nodes (lastCheck k) (linkAt s.nodes (place k)) t)
    (hwf : WF w (lastCheck k) t) (hd : d ∈ t.inner) (hw : w d = word key)
    (hfuel : EnoughFuel (key.length * 16) fuel k) :
    ∃ k' c child, plug k' (.node d c child) = plug k t ∧
      turn2Loop s key (key.length * 16) d fuel (place k) (lastCheck k) = some (some (place k')) := by
  induction t generalizing k fuel with
  | nil => exact absurd hd (Multiset.notMem_zero d)
  | leaf i => exact absurd hd (Multiset.notMem_zero d)
  | node i c child ih =>
    obtain ⟨hr, hne, hcheck, hchild⟩ := hlink
    obtain ⟨hlo, hbelow, hside⟩ := hwf
    have hc : c < key.length * 16 := by
      have := (hbelow d (mem_ids.mpr (.inl hd))).1
      rwa [hw] at this
    obtain ⟨fuel, rfl⟩ := hfuel.exists_succ (hlo.trans (by exact_mod_cast hc))
    have hr : s.load (place k) = i := hr
    rw [turn2Loop]
    simp only [hr, if_neg hne, hcheck]
    by_cases hid : i = d
    · subst hid
      exact ⟨k, c, child, rfl, by rw [if_pos rfl]⟩
    · obtain ⟨e, he⟩ : ∃ e, d ∈ (child e).inner := by
        rcases mem_inner_node.mp hd with rfl | h
        · exact absurd rfl hid
        · exact h
      have hbit : (word key).bit c = e := by
        rw [← hw]
        exact (hside e).1 d (mem_ids.mpr (.inl he))
      have hstop : ¬ ((c : ℤ) ≤ lastCheck k ∨ key.length * 16 ≤ c) := by omega
      obtain ⟨k', c', child', hplug, hloop⟩ := @ih e (⟨i, c, e, child (!e)⟩ :: k) fuel (hchild e)
        (hside e).2 he (hfuel.next hlo)
      refine ⟨k', c', child', ?_, ?_⟩
      · rw [hplug, plug_cons, fill_child]
      · rw [if_neg hid, if_neg hstop, ← hloop, ← hbit]
        rfl

/-- The second search of `grn_pat_add_internal_find` stops above the frames whose check
is larger. -/
theorem locateLoop_eq {c : ℕ} {k₁ : List (Frame ℕ)} (hk₁ : k₁ ≠ []) (hin : ∀ f ∈ k₁, c < f.check) :
    ∀ {k₂ b : List (Frame ℕ)} {fuel : ℕ},
      Linked s.nodes (-1) (linkAt s.nodes .root) (plug (k₁ ++ (k₂ ++ b)) t) →
      (∀ f ∈ k₂, f.check < c ∧ f.Follows (word key)) → k₂.length + 1 ≤ fuel →
        locateLoop s key c (key.length * 16) fuel (place b) = some (place (k₂ ++ b)) := by
  intro k₂
  induction k₂ using List.reverseRecOn with
  | nil =>
    intro b fuel hlink _ hfuel
    obtain ⟨fuel, rfl⟩ : ∃ n, fuel = n + 1 := ⟨fuel - 1, by simp at hfuel; omega⟩
    obtain ⟨g, l, rfl⟩ := List.exists_cons_of_ne_nil (List.reverse_ne_nil_iff.mpr hk₁) |>.imp
      fun g h => h.imp fun l h => (List.reverse_eq_cons_iff.mp h)
    rw [List.nil_append, plug_append, linked_plug, plug_append, plug_cons, plug_nil,
      linked_fill] at hlink
    obtain ⟨-, hr, hne, hcheck, -⟩ := hlink
    have hr : s.load (place b) = g.id := hr
    have hg := hin g (List.mem_append_right _ (List.mem_singleton_self g))
    rw [locateLoop]
    simp only [hr, if_neg hne, hcheck, if_pos hg, List.nil_append]
  | append_singleton k₂ f ih =>
    intro b fuel hlink hout hfuel
    rw [List.length_append, List.length_singleton] at hfuel
    obtain ⟨fuel, rfl⟩ : ∃ n, fuel = n + 1 := ⟨fuel - 1, by omega⟩
    obtain ⟨hlt, -, hbit⟩ := hout f (List.mem_append_right _ (List.mem_singleton_self f))
    have hrec := @ih (f :: b) fuel
      (by rwa [List.append_assoc, List.singleton_append] at hlink)
      (fun g hg => hout g (List.mem_append_left _ hg)) (by omega)
    have hsplit : k₁ ++ (k₂ ++ [f] ++ b) = (k₁ ++ k₂) ++ ([f] ++ b) := by
      simp only [List.append_assoc]
    rw [hsplit, plug_append, List.singleton_append, plug_cons, linked_plug, linked_fill] at hlink
    obtain ⟨-, hr, hne, hcheck, -⟩ := hlink
    have hr : s.load (place b) = f.id := hr
    have hnext : grnPatNextLocation f.id key f.check (key.length * 16) = place (f :: b) :=
      congrArg _ hbit
    rw [locateLoop]
    simp only [hr, if_neg hne, hcheck, if_neg (Nat.not_lt.mpr hlt.le), hnext, hrec]
    rw [List.append_assoc, List.singleton_append]

end Groonga.Pat
