import Mathlib

/-!
# Patricia trees over code words

A patricia tree branches on positions of the code words of its keys. An inner node
carries an id and a position, a leaf carries an id; a child may be missing. Inner
nodes carry ids of their own because a linked representation stores a branch in the
record of some key, which need not be the key of a leaf below it.

Positions grow on the way down. Below an inner node all words agree before its
position and differ there by the side they are on (`WF`). A place in a tree is a
context: the frames from the place up to the root. Insertion, removal and renaming
are stated at a place, so that a proof about a linked representation only has to say
which place its loop stops at.
-/

namespace Groonga.Lib.Patricia

/-! ## Words -/

/-- A code word: `len` bits. Bits behind its end have no meaning. -/
structure Word where
  len : ℕ
  bit : ℕ → Bool

def Word.AgreeBelow (c : ℕ) (v u : Word) : Prop := ∀ p < c, v.bit p = u.bit p

theorem Word.AgreeBelow.refl {c : ℕ} {v : Word} : v.AgreeBelow c v := fun _ _ => rfl

theorem Word.AgreeBelow.symm {c : ℕ} {v u : Word} (h : v.AgreeBelow c u) : u.AgreeBelow c v :=
  fun p hp => (h p hp).symm

theorem Word.AgreeBelow.trans {c : ℕ} {v u x : Word} (h : v.AgreeBelow c u)
    (h' : u.AgreeBelow c x) : v.AgreeBelow c x :=
  fun p hp => (h p hp).trans (h' p hp)

theorem Word.AgreeBelow.mono {c c' : ℕ} {v u : Word} (h : v.AgreeBelow c u) (hc : c' ≤ c) :
    v.AgreeBelow c' u :=
  fun p hp => h p (hp.trans_le hc)

/-! ## Trees -/

variable {ι : Type}

inductive Trie (ι : Type) where
  | nil
  | leaf (i : ι)
  | node (i : ι) (c : ℕ) (child : Bool → Trie ι)

namespace Trie

/-- The ids of the leaves. -/
def leaves : Trie ι → Multiset ι
  | nil => 0
  | leaf i => {i}
  | node _ _ child => (child false).leaves + (child true).leaves

/-- The ids of the inner nodes. -/
def inner : Trie ι → Multiset ι
  | nil => 0
  | leaf _ => 0
  | node i _ child => i ::ₘ ((child false).inner + (child true).inner)

/-- All ids that occur. -/
def ids (t : Trie ι) : Multiset ι := t.inner + t.leaves

@[simp] theorem leaves_nil : (nil : Trie ι).leaves = 0 := rfl
@[simp] theorem leaves_leaf (i : ι) : (leaf i).leaves = {i} := rfl
@[simp] theorem inner_nil : (nil : Trie ι).inner = 0 := rfl
@[simp] theorem inner_leaf (i : ι) : (leaf i).inner = 0 := rfl

theorem mem_ids {t : Trie ι} {j : ι} : j ∈ t.ids ↔ j ∈ t.inner ∨ j ∈ t.leaves :=
  Multiset.mem_add

theorem mem_leaves_node {i j : ι} {c : ℕ} {child : Bool → Trie ι} :
    j ∈ (node i c child).leaves ↔ ∃ d, j ∈ (child d).leaves := by
  rw [leaves, Multiset.mem_add, Bool.exists_bool]

theorem mem_inner_node {i j : ι} {c : ℕ} {child : Bool → Trie ι} :
    j ∈ (node i c child).inner ↔ j = i ∨ ∃ d, j ∈ (child d).inner := by
  rw [inner, Multiset.mem_cons, Multiset.mem_add, Bool.exists_bool]

theorem mem_ids_node {i j : ι} {c : ℕ} {child : Bool → Trie ι} :
    j ∈ (node i c child).ids ↔ j = i ∨ ∃ d, j ∈ (child d).ids := by
  simp only [mem_ids, mem_inner_node, mem_leaves_node, exists_or, or_assoc]

@[simp] theorem mem_ids_leaf {i j : ι} : j ∈ (leaf i).ids ↔ j = i := by
  simp [mem_ids]

@[simp] theorem not_mem_ids_nil {j : ι} : j ∉ (nil : Trie ι).ids := by
  simp [mem_ids]

/-- **Well-formed tree** below the position `lo`: positions grow downwards, and below a
node all words reach behind its position, agree before it, and are on the side their
bit says. -/
def WF (w : ι → Word) : ℤ → Trie ι → Prop
  | _, nil => True
  | _, leaf _ => True
  | lo, node i c child => lo < c ∧
      (∀ j ∈ (node i c child).ids, c < (w j).len ∧ (w j).AgreeBelow c (w i)) ∧
      ∀ d, (∀ j ∈ (child d).ids, (w j).bit c = d) ∧ WF w c (child d)

theorem WF.mono {w : ι → Word} {lo lo' : ℤ} {t : Trie ι} (h : WF w lo t) (hlo : lo' ≤ lo) :
    WF w lo' t := by
  cases t with
  | nil => trivial
  | leaf i => trivial
  | node i c child => exact ⟨hlo.trans_lt h.1, h.2⟩

theorem WF.congr {w w' : ι → Word} {lo : ℤ} {t : Trie ι} (h : WF w lo t)
    (hw : ∀ j ∈ t.ids, w' j = w j) : WF w' lo t := by
  induction t generalizing lo with
  | nil => trivial
  | leaf i => trivial
  | node i c child ih =>
    obtain ⟨hlo, hbelow, hside⟩ := h
    have hsub : ∀ d, ∀ j ∈ (child d).ids, w' j = w j := fun d j hj =>
      hw j (mem_ids_node.mpr (.inr ⟨d, hj⟩))
    refine ⟨hlo, fun j hj => ?_, fun d => ⟨fun j hj => ?_, ih d (hside d).2 (hsub d)⟩⟩
    · rw [hw j hj, hw i (mem_ids_node.mpr (.inl rfl))]
      exact hbelow j hj
    · rw [hsub d j hj]
      exact (hside d).1 j hj

/-- All words of a tree above a position agree there and before it. -/
theorem WF.agree {w : ι → Word} {c : ℕ} {t : Trie ι} (h : WF w c t) {i j : ι} (hi : i ∈ t.ids)
    (hj : j ∈ t.ids) : (w i).AgreeBelow (c + 1) (w j) := by
  cases t with
  | nil => exact absurd hi not_mem_ids_nil
  | leaf l =>
    obtain rfl := mem_ids_leaf.mp hi
    obtain rfl := mem_ids_leaf.mp hj
    exact .refl
  | node l c' child =>
    obtain ⟨hlo, hbelow, -⟩ := h
    exact ((hbelow i hi).2.trans (hbelow j hj).2.symm).mono (by omega)

/-- All words of a tree above a position reach behind it if one does. -/
theorem WF.lt_len {w : ι → Word} {c : ℕ} {t : Trie ι} (h : WF w c t) {g : ι} (hg : g ∈ t.ids)
    (hc : c < (w g).len) :
    ∀ j ∈ t.ids, c < (w j).len := by
  intro j hj
  cases t with
  | nil => exact absurd hj not_mem_ids_nil
  | leaf i =>
    obtain rfl := mem_ids_leaf.mp hj
    obtain rfl := mem_ids_leaf.mp hg
    exact hc
  | node i c' child =>
    have := (h.2.1 j hj).1
    have := h.1
    omega

end Trie

/-! ## Places in a tree -/

/-- A step from a node to its child on the side `dir`; `sib` is the other child. -/
structure Frame (ι : Type) where
  id : ι
  check : ℕ
  dir : Bool
  sib : Trie ι

open Trie

/-- The children of a frame with `t` at its place. -/
def Frame.child (f : Frame ι) (t : Trie ι) (d : Bool) : Trie ι := if d = f.dir then t else f.sib

/-- The node of a frame with `t` at its place. -/
def Frame.fill (f : Frame ι) (t : Trie ι) : Trie ι := node f.id f.check (f.child t)

@[simp] theorem Frame.child_dir (f : Frame ι) (t : Trie ι) : f.child t f.dir = t := if_pos rfl

@[simp] theorem Frame.child_not_dir (f : Frame ι) (t : Trie ι) : f.child t (!f.dir) = f.sib :=
  if_neg (by simp)

theorem eq_or_eq_not_dir (d : Bool) (f : Frame ι) : d = f.dir ∨ d = !f.dir := by
  cases d <;> cases f.dir <;> simp

/-- The tree with `t` at a place. -/
def plug : List (Frame ι) → Trie ι → Trie ι
  | [], t => t
  | f :: k, t => plug k (f.fill t)

/-- The position above a place, -1 at the root. -/
def lastCheck : List (Frame ι) → ℤ
  | [] => -1
  | f :: _ => f.check

@[simp] theorem plug_nil (t : Trie ι) : plug [] t = t := rfl
@[simp] theorem plug_cons (f : Frame ι) (k : List (Frame ι)) (t : Trie ι) :
    plug (f :: k) t = plug k (f.fill t) := rfl

theorem plug_append (k k' : List (Frame ι)) (t : Trie ι) :
    plug (k ++ k') t = plug k' (plug k t) := by
  induction k generalizing t with
  | nil => rfl
  | cons f k ih => exact ih (f.fill t)

/-- Going down from a node gives a frame. -/
theorem fill_child (i : ι) (c : ℕ) (child : Bool → Trie ι) (d : Bool) :
    (⟨i, c, d, child (!d)⟩ : Frame ι).fill (child d) = node i c child := by
  unfold Frame.fill
  congr 1
  funext e
  cases d <;> cases e <;> rfl

theorem leaves_fill (f : Frame ι) (t : Trie ι) : (f.fill t).leaves = t.leaves + f.sib.leaves := by
  obtain ⟨i, c, _ | _, sib⟩ := f
  · rfl
  · exact add_comm _ _

theorem inner_fill (f : Frame ι) (t : Trie ι) :
    (f.fill t).inner = f.id ::ₘ (t.inner + f.sib.inner) := by
  obtain ⟨i, c, _ | _, sib⟩ := f
  · rfl
  · exact congrArg _ (add_comm _ _)

theorem mem_ids_fill {f : Frame ι} {t : Trie ι} {j : ι} :
    j ∈ (f.fill t).ids ↔ j = f.id ∨ j ∈ t.ids ∨ j ∈ f.sib.ids := by
  simp only [mem_ids, inner_fill, leaves_fill, Multiset.mem_cons, Multiset.mem_add]
  tauto

/-- The leaves beside a place. -/
def leavesBeside : List (Frame ι) → Multiset ι
  | [] => 0
  | f :: k => f.sib.leaves + leavesBeside k

/-- The inner nodes above and beside a place. -/
def innerBeside : List (Frame ι) → Multiset ι
  | [] => 0
  | f :: k => f.id ::ₘ (f.sib.inner + innerBeside k)

theorem leaves_plug (k : List (Frame ι)) (t : Trie ι) :
    (plug k t).leaves = t.leaves + leavesBeside k := by
  induction k generalizing t with
  | nil => exact (add_zero _).symm
  | cons f k ih => rw [plug_cons, ih, leaves_fill, leavesBeside, add_assoc]

theorem inner_plug (k : List (Frame ι)) (t : Trie ι) :
    (plug k t).inner = t.inner + innerBeside k := by
  induction k generalizing t with
  | nil => exact (add_zero _).symm
  | cons f k ih =>
    rw [plug_cons, ih, inner_fill, innerBeside, Multiset.cons_add, Multiset.add_cons, add_assoc]

theorem mem_innerBeside_of_mem {k : List (Frame ι)} {f : Frame ι} (hf : f ∈ k) :
    f.id ∈ innerBeside k := by
  induction k with
  | nil => cases hf
  | cons g k ih =>
    rcases List.mem_cons.mp hf with rfl | hf
    · exact Multiset.mem_cons_self _ _
    · exact Multiset.mem_cons_of_mem (Multiset.mem_add.mpr (.inr (ih hf)))

theorem mem_ids_plug {k : List (Frame ι)} {t : Trie ι} {j : ι} :
    j ∈ (plug k t).ids ↔ j ∈ t.ids ∨ j ∈ innerBeside k ∨ j ∈ leavesBeside k := by
  simp only [mem_ids, inner_plug, leaves_plug, Multiset.mem_add]
  tauto

/-- The place of an inner node. -/
theorem exists_plug_of_mem_inner {t : Trie ι} {i : ι} (hi : i ∈ t.inner) :
    ∃ k c child, plug k (node i c child) = t := by
  induction t with
  | nil => exact absurd hi (Multiset.notMem_zero i)
  | leaf j => exact absurd hi (Multiset.notMem_zero i)
  | node j c child ih =>
    rcases mem_inner_node.mp hi with rfl | ⟨d, hd⟩
    · exact ⟨[], c, child, rfl⟩
    · obtain ⟨k, c', child', h⟩ := ih d hd
      refine ⟨k ++ [⟨j, c, d, child (!d)⟩], c', child', ?_⟩
      rw [plug_append, h, plug_cons, plug_nil, fill_child]

/-! ## Well-formed places -/

/-- The word goes to the place of the frame, and agrees with the words there before its
position. -/
structure Frame.Fits (w : ι → Word) (f : Frame ι) (v : Word) : Prop where
  lt : f.check < v.len
  agree : v.AgreeBelow f.check (w f.id)
  bit : v.bit f.check = f.dir

/-- A word that fits all frames of a place may be put there. -/
def Fits (w : ι → Word) (k : List (Frame ι)) (v : Word) : Prop := ∀ f ∈ k, f.Fits w v

theorem Fits.congr {w w' : ι → Word} {k : List (Frame ι)} {v : Word} (h : Fits w k v)
    (hw : ∀ i ∈ innerBeside k, w' i = w i) : Fits w' k v := by
  intro f hf
  obtain ⟨hlt, hagree, hbit⟩ := h f hf
  exact ⟨hlt, by rwa [hw _ (mem_innerBeside_of_mem hf)], hbit⟩

/-- A well-formed context, whatever stands at its place. -/
def ContextWF (w : ι → Word) : List (Frame ι) → Prop
  | [] => True
  | f :: k => lastCheck k < f.check ∧ f.check < (w f.id).len ∧
      (∀ j ∈ f.sib.ids, f.check < (w j).len ∧ (w j).AgreeBelow f.check (w f.id) ∧
        (w j).bit f.check = !f.dir) ∧
      WF w f.check f.sib ∧ Fits w k (w f.id) ∧ (∀ j ∈ f.sib.ids, Fits w k (w j)) ∧ ContextWF w k

theorem wf_fill {w : ι → Word} {lo : ℤ} {f : Frame ι} {t : Trie ι} :
    WF w lo (f.fill t) ↔ lo < f.check ∧ f.check < (w f.id).len ∧
      (∀ j ∈ f.sib.ids, f.check < (w j).len ∧ (w j).AgreeBelow f.check (w f.id) ∧
        (w j).bit f.check = !f.dir) ∧
      WF w f.check f.sib ∧ (∀ j ∈ t.ids, f.Fits w (w j)) ∧ WF w f.check t := by
  have hids : ∀ j, j ∈ (f.fill t).ids ↔ j = f.id ∨ j ∈ t.ids ∨ j ∈ f.sib.ids := fun j => mem_ids_fill
  constructor
  · rintro ⟨hlo, hbelow, hside⟩
    have hin := hside f.dir
    have hout := hside (!f.dir)
    rw [Frame.child_dir] at hin
    rw [Frame.child_not_dir] at hout
    refine ⟨hlo, (hbelow _ ((hids _).mpr (.inl rfl))).1, fun j hj => ?_, hout.2, fun j hj => ?_,
      hin.2⟩
    · obtain ⟨h1, h2⟩ := hbelow j ((hids j).mpr (.inr (.inr hj)))
      exact ⟨h1, h2, hout.1 j hj⟩
    · obtain ⟨h1, h2⟩ := hbelow j ((hids j).mpr (.inr (.inl hj)))
      exact ⟨h1, h2, hin.1 j hj⟩
  · rintro ⟨hlo, hlen, hsib, hsibwf, hfits, hwf⟩
    refine ⟨hlo, fun j hj => ?_, fun d => ?_⟩
    · rcases (hids j).mp hj with rfl | hj | hj
      · exact ⟨hlen, .refl⟩
      · exact ⟨(hfits j hj).lt, (hfits j hj).agree⟩
      · exact ⟨(hsib j hj).1, (hsib j hj).2.1⟩
    · rcases eq_or_eq_not_dir d f with rfl | rfl
      · rw [Frame.child_dir]
        exact ⟨fun j hj => (hfits j hj).bit, hwf⟩
      · rw [Frame.child_not_dir]
        exact ⟨fun j hj => (hsib j hj).2.2, hsibwf⟩

/-- **Taking a well-formed tree apart at a place.** -/
theorem wf_plug {w : ι → Word} {k : List (Frame ι)} {t : Trie ι} :
    WF w (-1) (plug k t) ↔ ContextWF w k ∧ WF w (lastCheck k) t ∧ ∀ j ∈ t.ids, Fits w k (w j) := by
  induction k generalizing t with
  | nil =>
    refine ⟨fun h => ⟨trivial, h, fun j _ f hf => ?_⟩, fun h => h.2.1⟩
    cases hf
  | cons f k ih =>
    rw [plug_cons, ih, wf_fill]
    constructor
    · rintro ⟨hctx, ⟨hlo, hlen, hsib, hsibwf, hfits, hwf⟩, hk⟩
      refine ⟨⟨hlo, hlen, hsib, hsibwf, hk _ (mem_ids_fill.mpr (.inl rfl)),
        fun j hj => hk j (mem_ids_fill.mpr (.inr (.inr hj))), hctx⟩, hwf, fun j hj g hg => ?_⟩
      rcases List.mem_cons.mp hg with rfl | hg
      · exact hfits j hj
      · exact hk j (mem_ids_fill.mpr (.inr (.inl hj))) g hg
    · rintro ⟨⟨hlo, hlen, hsib, hsibwf, hid, hsibfits, hctx⟩, hwf, hfits⟩
      refine ⟨hctx, ⟨hlo, hlen, hsib, hsibwf, fun j hj => hfits j hj f (List.mem_cons_self ..), hwf⟩,
        fun j hj => ?_⟩
      rcases mem_ids_fill.mp hj with rfl | hj | hj
      · exact hid
      · exact fun g hg => hfits j hj g (List.mem_cons_of_mem _ hg)
      · exact hsibfits j hj

/-! ## Surgery at a place -/

/-- Cutting a node out: its other child takes its place. -/
theorem wf_splice {w : ι → Word} {f : Frame ι} {k : List (Frame ι)} {t : Trie ι}
    (h : WF w (-1) (plug (f :: k) t)) : WF w (-1) (plug k f.sib) := by
  obtain ⟨⟨hlo, -, -, hsib, -, hfits, hctx⟩, -, -⟩ := wf_plug.mp h
  exact wf_plug.mpr ⟨hctx, hsib.mono hlo.le, hfits⟩

/-- Removing what stands at a place. -/
theorem wf_prune {w : ι → Word} {k : List (Frame ι)} {t : Trie ι}
    (h : WF w (-1) (plug k t)) : WF w (-1) (plug k nil) :=
  wf_plug.mpr ⟨(wf_plug.mp h).1, trivial, fun _ hj => absurd hj not_mem_ids_nil⟩

/-- A leaf at a free place. -/
theorem wf_leaf {w : ι → Word} {k : List (Frame ι)} {t : Trie ι} {i : ι}
    (h : WF w (-1) (plug k t)) (hi : Fits w k (w i)) : WF w (-1) (plug k (leaf i)) := by
  refine wf_plug.mpr ⟨(wf_plug.mp h).1, trivial, fun j hj => ?_⟩
  obtain rfl := mem_ids_leaf.mp hj
  exact hi

/-- A new node above a place, with a leaf of its own on the side of its bit. -/
theorem wf_branch {w : ι → Word} {k : List (Frame ι)} {t : Trie ι} {i : ι} {c : ℕ}
    (h : WF w (-1) (plug k t)) (hc : lastCheck k < c) (hlen : c < (w i).len)
    (hi : Fits w k (w i)) (ht : WF w c t)
    (hdiff : ∀ j ∈ t.ids, c < (w j).len ∧ (w j).AgreeBelow c (w i) ∧ (w j).bit c = !(w i).bit c) :
    WF w (-1) (plug (⟨i, c, (w i).bit c, t⟩ :: k) (leaf i)) := by
  obtain ⟨hctx, -, hfits⟩ := wf_plug.mp h
  refine wf_plug.mpr ⟨⟨hc, hlen, hdiff, ht, hi, hfits, hctx⟩, trivial, fun j hj f hf => ?_⟩
  obtain rfl := mem_ids_leaf.mp hj
  rcases List.mem_cons.mp hf with rfl | hf
  · exact ⟨hlen, .refl, rfl⟩
  · exact hi f hf

/-- Another id from below may take over a node. -/
theorem wf_rename {w : ι → Word} {k : List (Frame ι)} {d e : ι} {c : ℕ} {child : Bool → Trie ι}
    (h : WF w (-1) (plug k (node d c child))) (he : e ∈ (node d c child).ids) :
    WF w (-1) (plug k (node e c child)) := by
  obtain ⟨hctx, ⟨hlo, hbelow, hside⟩, hfits⟩ := wf_plug.mp h
  have hids : ∀ j, j ∈ (node e c child).ids → j ∈ (node d c child).ids := by
    intro j hj
    rcases mem_ids_node.mp hj with rfl | hj
    · exact he
    · exact mem_ids_node.mpr (.inr hj)
  refine wf_plug.mpr ⟨hctx, ⟨hlo, fun j hj => ?_, hside⟩, fun j hj => hfits j (hids j hj)⟩
  exact ⟨(hbelow j (hids j hj)).1, (hbelow j (hids j hj)).2.trans (hbelow e he).2.symm⟩

/-- Positions fall on the way from a place to the root. -/
theorem ContextWF.check_lt {w : ι → Word} {f : Frame ι} {k : List (Frame ι)}
    (h : ContextWF w (f :: k)) : ∀ g ∈ k, g.check < f.check := by
  induction k generalizing f with
  | nil => intro g hg; cases hg
  | cons g' k ih =>
    obtain ⟨hlo, -, -, -, -, -, hctx⟩ := h
    have hlo : g'.check < f.check := Int.ofNat_lt.mp hlo
    intro g hg
    rcases List.mem_cons.mp hg with rfl | hg
    · exact hlo
    · exact (ih hctx g hg).trans hlo

theorem ContextWF.check_le_lastCheck {w : ι → Word} {k : List (Frame ι)} (h : ContextWF w k)
    {g : Frame ι} (hg : g ∈ k) : (g.check : ℤ) ≤ lastCheck k := by
  cases k with
  | nil => cases hg
  | cons f k =>
    rcases List.mem_cons.mp hg with rfl | hg
    · exact le_rfl
    · exact Int.ofNat_le.mpr (h.check_lt g hg).le

/-- A branch whose word belongs to a place is above it or below it, not beside it. -/
theorem ContextWF.frame_of_mem {w : ι → Word} {k : List (Frame ι)} {i : ι} (h : ContextWF w k)
    (hfits : Fits w k (w i)) (hi : i ∈ innerBeside k) : ∃ g ∈ k, g.id = i := by
  induction k with
  | nil => exact absurd hi (Multiset.notMem_zero i)
  | cons f k ih =>
    obtain ⟨-, -, hsib, -, -, -, hctx⟩ := h
    rw [innerBeside, Multiset.mem_cons, Multiset.mem_add] at hi
    rcases hi with rfl | hi | hi
    · exact ⟨f, List.mem_cons_self .., rfl⟩
    · have hbit := (hfits f (List.mem_cons_self ..)).bit
      rw [(hsib i (mem_ids.mpr (.inl hi))).2.2] at hbit
      exact absurd hbit (Bool.not_ne_self _)
    · obtain ⟨g, hg, hgi⟩ := ih hctx (fun g hg => hfits g (List.mem_cons_of_mem _ hg)) hi
      exact ⟨g, List.mem_cons_of_mem _ hg, hgi⟩

theorem ContextWF.length_le {w : ι → Word} {k : List (Frame ι)} (h : ContextWF w k) :
    (k.length : ℤ) ≤ lastCheck k + 1 := by
  induction k with
  | nil => simp [lastCheck]
  | cons f k ih =>
    obtain ⟨hlo, -, -, -, -, -, hctx⟩ := h
    have := ih hctx
    have hlast : lastCheck (f :: k) = f.check := rfl
    rw [hlast, List.length_cons]
    push_cast
    omega

theorem ContextWF.of_append {w : ι → Word} {k k' : List (Frame ι)} (h : ContextWF w (k ++ k')) :
    ContextWF w k' := by
  induction k with
  | nil => exact h
  | cons f k ih => exact ih h.2.2.2.2.2.2

/-- **Where a new position belongs.** The frames below it and the frames above it. -/
theorem ContextWF.split {w : ι → Word} {k : List (Frame ι)} (h : ContextWF w k) {c : ℕ}
    (hne : ∀ f ∈ k, f.check ≠ c) :
    ∃ k₁ k₂, k = k₁ ++ k₂ ∧ (∀ f ∈ k₁, c < f.check) ∧ ∀ f ∈ k₂, f.check < c := by
  induction k with
  | nil => exact ⟨[], [], rfl, by simp, by simp⟩
  | cons f k ih =>
    have hf := hne f (List.mem_cons_self ..)
    rcases Nat.lt_or_ge f.check c with hlt | hge
    · refine ⟨[], f :: k, rfl, by simp, fun g hg => ?_⟩
      rcases List.mem_cons.mp hg with rfl | hg
      · exact hlt
      · exact (h.check_lt g hg).trans hlt
    · obtain ⟨k₁, k₂, rfl, h₁, h₂⟩ := ih h.2.2.2.2.2.2 fun g hg => hne g (List.mem_cons_of_mem _ hg)
      refine ⟨f :: k₁, k₂, rfl, fun g hg => ?_, h₂⟩
      rcases List.mem_cons.mp hg with rfl | hg
      · omega
      · exact h₁ g hg

/-- A tree below its first frame only bounds the position of that frame. -/
theorem wf_raise {w : ι → Word} {k₁ : List (Frame ι)} {t : Trie ι} {lo : ℤ} {c : ℕ}
    (h : WF w lo (plug k₁ t)) (hc : ∀ f ∈ k₁, c < f.check) (ht : WF w c t) :
    WF w c (plug k₁ t) := by
  induction k₁ using List.reverseRecOn with
  | nil => exact ht
  | append_singleton k₁ f _ =>
    rw [plug_append, plug_cons, plug_nil] at h ⊢
    have := hc f (List.mem_append_right _ (List.mem_singleton_self f))
    exact ⟨by exact_mod_cast this, h.2⟩

/-! ## Going down -/

/-- The word takes the side of the frame. -/
def Frame.Follows (v : Word) (f : Frame ι) : Prop := f.check < v.len ∧ v.bit f.check = f.dir

/-- The way of a word down from a place, as far as its bits reach. -/
def descend (v : Word) : List (Frame ι) → Trie ι → List (Frame ι) × Trie ι
  | k, nil => (k, nil)
  | k, leaf i => (k, leaf i)
  | k, node i c child =>
    if c < v.len then descend v (⟨i, c, v.bit c, child (!v.bit c)⟩ :: k) (child (v.bit c))
    else (k, node i c child)

theorem plug_descend (v : Word) (k : List (Frame ι)) (t : Trie ι) :
    plug (descend v k t).1 (descend v k t).2 = plug k t := by
  induction t generalizing k with
  | nil => rfl
  | leaf i => rfl
  | node i c child ih =>
    rw [descend]
    split_ifs with hc
    · rw [ih, plug_cons, fill_child]
    · rfl

theorem follows_descend (v : Word) {k : List (Frame ι)} (t : Trie ι)
    (hk : ∀ f ∈ k, f.Follows v) : ∀ f ∈ (descend v k t).1, f.Follows v := by
  induction t generalizing k with
  | nil => exact hk
  | leaf i => exact hk
  | node i c child ih =>
    rw [descend]
    split_ifs with hc
    · refine ih _ fun f hf => ?_
      rcases List.mem_cons.mp hf with rfl | hf
      · exact ⟨hc, rfl⟩
      · exact hk f hf
    · exact hk

/-- A word that follows the frames of a place comes through it. -/
theorem descend_plug {v : Word} {k k' : List (Frame ι)} {t : Trie ι} (hk : ∀ f ∈ k, f.Follows v) :
    descend v k' (plug k t) = descend v (k ++ k') t := by
  induction k generalizing t with
  | nil => rfl
  | cons f k ih =>
    obtain ⟨hlt, hbit⟩ := hk f (List.mem_cons_self ..)
    rw [plug_cons, ih fun g hg => hk g (List.mem_cons_of_mem _ hg), Frame.fill, descend, if_pos hlt,
      hbit, Frame.child_dir, Frame.child_not_dir]
    rfl

/-- A word only stops at a node behind its end. -/
theorem descend_ne_node {v : Word} {k k' : List (Frame ι)} {t : Trie ι} {i : ι} {c : ℕ}
    {child : Bool → Trie ι} (hc : c < v.len) : descend v k t ≠ (k', node i c child) := by
  induction t generalizing k with
  | nil => exact fun h => by cases h
  | leaf j => exact fun h => by cases h
  | node j c' child' ih =>
    rw [descend]
    split_ifs with hc'
    · exact ih _
    · intro h
      obtain ⟨-, h⟩ := Prod.mk.inj h
      obtain ⟨-, rfl, -⟩ := Trie.node.inj h
      exact hc' hc

/-- The word of a leaf leads to it. -/
theorem descend_leaf {w : ι → Word} {lo : ℤ} {k : List (Frame ι)} {t : Trie ι} {i : ι}
    (h : WF w lo t) (hi : i ∈ t.leaves) : (descend (w i) k t).2 = leaf i := by
  induction t generalizing k lo with
  | nil => exact absurd hi (Multiset.notMem_zero i)
  | leaf j =>
    obtain rfl := Multiset.mem_singleton.mp hi
    rfl
  | node j c child ih =>
    obtain ⟨-, hbelow, hside⟩ := h
    obtain ⟨d, hd⟩ := mem_leaves_node.mp hi
    have hids : i ∈ (child d).ids := mem_ids.mpr (.inr hd)
    have hlen := (hbelow i (mem_ids_node.mpr (.inr ⟨d, hids⟩))).1
    rw [descend, if_pos hlen, (hside d).1 i hids]
    exact ih d (hside d).2 hd

/-! ## Owners

Every inner node is owned by a leaf below it. The owner of a node is the node itself
while it has a leaf, and some other leaf afterwards. -/

def Owned (own : ι → ι) : Trie ι → Prop
  | nil => True
  | leaf _ => True
  | node i c child => own i ∈ (node i c child).leaves ∧ ∀ d, Owned own (child d)

/-- The owners of the nodes above and beside a place with the leaves `l`. -/
def OwnedAround (own : ι → ι) : List (Frame ι) → Multiset ι → Prop
  | [], _ => True
  | f :: k, l => own f.id ∈ l + f.sib.leaves ∧ Owned own f.sib ∧
      OwnedAround own k (l + f.sib.leaves)

theorem owned_fill {own : ι → ι} {f : Frame ι} {t : Trie ι} :
    Owned own (f.fill t) ↔ own f.id ∈ t.leaves + f.sib.leaves ∧ Owned own t ∧ Owned own f.sib := by
  rw [← leaves_fill]
  refine and_congr_right fun _ => ⟨fun h => ?_, fun ⟨ht, hsib⟩ d => ?_⟩
  · have hin := h f.dir
    have hout := h (!f.dir)
    rw [Frame.child_dir] at hin
    rw [Frame.child_not_dir] at hout
    exact ⟨hin, hout⟩
  · rcases eq_or_eq_not_dir d f with rfl | rfl
    · rwa [Frame.child_dir]
    · rwa [Frame.child_not_dir]

theorem owned_plug {own : ι → ι} {k : List (Frame ι)} {t : Trie ι} :
    Owned own (plug k t) ↔ Owned own t ∧ OwnedAround own k t.leaves := by
  induction k generalizing t with
  | nil => exact ⟨fun h => ⟨h, trivial⟩, And.left⟩
  | cons f k ih =>
    rw [plug_cons, ih, owned_fill, leaves_fill, OwnedAround]
    tauto

theorem Owned.mem_leaves {own : ι → ι} {t : Trie ι} (h : Owned own t) {i : ι} (hi : i ∈ t.inner) :
    own i ∈ t.leaves := by
  induction t with
  | nil => exact absurd hi (Multiset.notMem_zero i)
  | leaf j => exact absurd hi (Multiset.notMem_zero i)
  | node j c child ih =>
    rcases mem_inner_node.mp hi with rfl | ⟨d, hd⟩
    · exact h.1
    · exact mem_leaves_node.mpr ⟨d, ih d (h.2 d) hd⟩

theorem Owned.congr {own own' : ι → ι} {t : Trie ι} (h : Owned own t)
    (hown : ∀ i ∈ t.inner, own' i = own i) : Owned own' t := by
  induction t with
  | nil => trivial
  | leaf j => trivial
  | node j c child ih =>
    refine ⟨?_, fun d => ih d (h.2 d) fun i hi => hown i (mem_inner_node.mpr (.inr ⟨d, hi⟩))⟩
    rw [hown j (mem_inner_node.mpr (.inl rfl))]
    exact h.1

/-- **Owners when the leaves at a place change.** The leaf `x` may disappear if the
nodes that it owned get another owner at the place. -/
theorem OwnedAround.change {own own' : ι → ι} {k : List (Frame ι)} {l l' : Multiset ι} {x : ι}
    (h : OwnedAround own k l) (hl : ∀ j ∈ l, j ≠ x → j ∈ l') (hx : x ∉ leavesBeside k)
    (hkeep : ∀ i ∈ innerBeside k, own i ≠ x → own' i = own i)
    (hmove : ∀ i ∈ innerBeside k, own i = x → own' i ∈ l') : OwnedAround own' k l' := by
  induction k generalizing l l' with
  | nil => trivial
  | cons f k ih =>
    obtain ⟨hf, hsib, hk⟩ := h
    rw [leavesBeside, Multiset.mem_add, not_or] at hx
    have hid : f.id ∈ innerBeside (f :: k) := Multiset.mem_cons_self _ _
    have hup : ∀ i ∈ innerBeside k, i ∈ innerBeside (f :: k) := fun i hi =>
      Multiset.mem_cons_of_mem (Multiset.mem_add.mpr (.inr hi))
    refine ⟨?_, hsib.congr fun i hi => ?_, ih hk ?_ hx.2 (fun i hi => hkeep i (hup i hi)) ?_⟩
    · by_cases hown : own f.id = x
      · exact Multiset.mem_add.mpr (.inl (hmove _ hid hown))
      · rw [hkeep _ hid hown]
        rcases Multiset.mem_add.mp hf with hf | hf
        · exact Multiset.mem_add.mpr (.inl (hl _ hf hown))
        · exact Multiset.mem_add.mpr (.inr hf)
    · refine hkeep i (Multiset.mem_cons_of_mem (Multiset.mem_add.mpr (.inl hi))) ?_
      rintro rfl
      exact hx.1 (hsib.mem_leaves hi)
    · intro j hj hne
      rcases Multiset.mem_add.mp hj with hj | hj
      · exact Multiset.mem_add.mpr (.inl (hl j hj hne))
      · exact Multiset.mem_add.mpr (.inr hj)
    · intro i hi hown
      exact Multiset.mem_add.mpr (.inl (hmove i (hup i hi) hown))

end Groonga.Lib.Patricia
