import Groonga.Pat.Recover

/-!
# What the entries of a log change

When the process ends after its writes and before the log is cleared, the recovery does all entries again
on the file from after them. An entry that writes what it says does no harm there, and a node that is
written as a whole is right from then on, whatever was done to it before.

Three kinds of entries look at what they find. A reused node is taken from its list of free nodes by its
left link, which is right if the node was given back by the same log. A deletion looks at the check of the
node on the other side and at its own links. And a deletion below the branch of another record, or the
second phase of it, looks at the tree: they are not redone here.
-/

namespace Groonga.Pat

open Lib Lib.Patricia Lib.Patricia.Trie

variable {s s' n r r' : GrnPat} {t t' : Trie ℕ} {tn : Trie ℕ} {own own' : ℕ → ℕ} {lost : Finset ℕ}
  {key : List UInt8} {id i j c : ℕ} {d : Bool} {p : Loc} {e : WalEntry} {log es es' : List WalEntry}

/-! ## What the entries are about -/

/-- The record whose node is written as a whole. -/
def WalEntry.target : WalEntry → Option ℕ
  | .addEntry id .. => some id
  | .reuseEntry id .. => some id
  | _ => none

/-- The node that is given back. -/
def WalEntry.freed : WalEntry → Option ℕ
  | .deleteInfoPhase3 id .. => some id
  | _ => none

/-- The record that is deleted below the branch of another one. -/
def WalEntry.deletedBelow : WalEntry → Option ℕ
  | .deleteEntry id location .. => if id = location.node then none else some id
  | _ => none

/-- The nodes that are free and were given back by the log, after one more entry. -/
def givenAfter (ids : List ℕ) : WalEntry → List ℕ
  | .deleteInfoPhase3 id .. => id :: ids
  | .reuseEntry id .. => ids.filter (· ≠ id)
  | _ => ids

/-- The nodes that were given back by the log and not used again. -/
def givenBack (log : List WalEntry) : List ℕ := log.foldl givenAfter []

theorem givenBack_append (log : List WalEntry) (e : WalEntry) :
    givenBack (log ++ [e]) = givenAfter (givenBack log) e := List.foldl_append ..

/-- **The entry may be done again**: a reused node was given back by the log, a deletion has its own
branch or only a self-loop, and a node that is given back had its own branch when it was deleted. -/
def WalEntry.Again (s : GrnPat) (log : List WalEntry) : WalEntry → Prop
  | .reuseEntry id .. => id ∈ givenBack log
  | .deleteInfoPhase2 .. => False
  | .deleteInfoPhase3 id .. => ∀ e ∈ log, e.deletedBelow ≠ some id
  | .deleteEntry id location .. => id = location.node ∨ SelfLoop s.nodes id
  | .defragKey .. => False
  | .defragCurrentKey .. => False
  | _ => True

instance (s : GrnPat) (log : List WalEntry) : (e : WalEntry) → Decidable (e.Again s log)
  | .addEntry .. => .isTrue trivial
  | .reuseEntry id .. => inferInstanceAs (Decidable (id ∈ givenBack log))
  | .deleteInfoPhase1 .. => .isTrue trivial
  | .deleteInfoPhase2 .. => .isFalse fun h => h
  | .deleteInfoPhase3 id .. => inferInstanceAs (Decidable (∀ e ∈ log, e.deletedBelow ≠ some id))
  | .deleteEntry id location .. => inferInstanceAs (Decidable (id = location.node ∨ SelfLoop s.nodes id))
  | .defragKey .. => .isFalse fun h => h
  | .defragCurrentKey .. => .isFalse fun h => h

/-! ## Cells -/

/-- A place in the file. -/
inductive Cell where
  | nEntries
  | currRec
  | currKey
  | currDel
  | currDel2
  | currDel3
  | nGarbages
  | slotD (i : ℕ)
  | slotLd (i : ℕ)
  | slotStat (i : ℕ)
  | garbage (size : ℕ)
  | byte (a : ℕ)
  | key (id : ℕ)
  | deleting (id : ℕ)
  | check (id : ℕ)
  | link (id : ℕ) (d : Bool)

/-- What a cell has. -/
inductive Value where
  | nat (n : ℕ)
  | stat (stat : Stat)
  | byte (b : UInt8)
  | key (key : StoredKey)
  | flag (on : Bool)

def GrnPat.cell (s : GrnPat) : Cell → Value
  | .nEntries => .nat s.nEntries
  | .currRec => .nat s.currRec
  | .currKey => .nat s.currKey
  | .currDel => .nat s.currDel
  | .currDel2 => .nat s.currDel2
  | .currDel3 => .nat s.currDel3
  | .nGarbages => .nat s.nGarbages
  | .slotD i => .nat (s.delinfos i).d
  | .slotLd i => .nat (s.delinfos i).ld
  | .slotStat i => .stat (s.delinfos i).stat
  | .garbage size => .nat (s.garbages size)
  | .byte a => .byte (s.keys a)
  | .key id => .key (s.nodes id).key
  | .deleting id => .flag (s.nodes id).deleting
  | .check id => .nat (s.nodes id).check
  | .link id d => .nat ((s.nodes id).lr d)

/-- The same cells are the same file. -/
theorem eq_of_cell (hcell : r.cell = n.cell) (hlarge : r.isKeyLarge = n.isKeyLarge)
    (hsize : r.cacheSize = n.cacheSize) (hcache : r.cache = n.cache) : r = n := by
  have hat : ∀ c, r.cell c = n.cell c := congrFun hcell
  have hnodes : r.nodes = n.nodes := funext fun id => by
    have hlr : (r.nodes id).lr = (n.nodes id).lr := funext fun d => Value.nat.inj (hat (.link id d))
    have hkey := Value.key.inj (hat (.key id))
    have hcheck := Value.nat.inj (hat (.check id))
    have hdeleting := Value.flag.inj (hat (.deleting id))
    cases hr : r.nodes id
    cases hn : n.nodes id
    rw [hr, hn] at hlr hkey hcheck hdeleting
    subst hlr hkey hcheck hdeleting
    rfl
  have hdelinfos : r.delinfos = n.delinfos := funext fun i => by
    have hd := Value.nat.inj (hat (.slotD i))
    have hld := Value.nat.inj (hat (.slotLd i))
    have hstat := Value.stat.inj (hat (.slotStat i))
    cases hr : r.delinfos i
    cases hn : n.delinfos i
    rw [hr, hn] at hd hld hstat
    subst hd hld hstat
    rfl
  have hkeys : r.keys = n.keys := funext fun a => Value.byte.inj (hat (.byte a))
  have hgarbages : r.garbages = n.garbages := funext fun size => Value.nat.inj (hat (.garbage size))
  have h1 := Value.nat.inj (hat .nEntries)
  have h2 := Value.nat.inj (hat .currRec)
  have h3 := Value.nat.inj (hat .currKey)
  have h4 := Value.nat.inj (hat .currDel)
  have h5 := Value.nat.inj (hat .currDel2)
  have h6 := Value.nat.inj (hat .currDel3)
  have h7 := Value.nat.inj (hat .nGarbages)
  cases r
  cases n
  subst hlarge hsize hcache hnodes hdelinfos hkeys hgarbages h1 h2 h3 h4 h5 h6 h7
  rfl

/-- The cell is written as a whole by one of the entries. -/
def Cell.Later (es : List WalEntry) : Cell → Prop
  | .check id => ∃ e ∈ es, e.target = some id
  | .link id _ => ∃ e ∈ es, e.target = some id
  | _ => False

theorem not_later_cons {c : Cell} (h : ¬ c.Later es) (he : e.target = none) : ¬ c.Later (e :: es) := by
  have hcons : ∀ id, ¬ (∃ e ∈ es, e.target = some id) → ¬ ∃ e' ∈ e :: es, e'.target = some id := by
    rintro id hno ⟨e', he', htarget⟩
    rcases List.mem_cons.mp he' with rfl | he'
    · rw [he] at htarget
      cases htarget
    · exact hno ⟨e', he', htarget⟩
  cases c with
  | check id => exact hcons id h
  | link id d => exact hcons id h
  | _ => exact h

theorem not_later_cons_target {c : Cell} (h : ¬ c.Later es) (he : e.target = some id)
    (hc : ∀ d, c ≠ .link id d) (hc' : c ≠ .check id) : ¬ c.Later (e :: es) := by
  have hcons : ∀ id', id' ≠ id → ¬ (∃ e ∈ es, e.target = some id') →
      ¬ ∃ e' ∈ e :: es, e'.target = some id' := by
    rintro id' hne hno ⟨e', he', htarget⟩
    rcases List.mem_cons.mp he' with rfl | he'
    · exact hne (Option.some.inj (htarget.symm.trans he))
    · exact hno ⟨e', he', htarget⟩
  cases c with
  | check id' => exact hcons id' (fun hid => hc' (by rw [hid])) h
  | link id' d => exact hcons id' (fun hid => hc d (by rw [hid])) h
  | _ => exact h

/-! ## What additions write -/

/-- The nodes after a record is put at a link that had `previousId`. -/
def putNodes (nodes : ℕ → Node) (id : ℕ) (p : Loc) (key : List UInt8) (check previousId : ℕ) (k : StoredKey)
    (j : ℕ) : Node where
  lr := fun d =>
    if p = ⟨j, d⟩ then id
    else if j = id then
      if d = direction key check (patCheckPack key.length 0 false) then id else previousId
    else (nodes j).lr d
  key := if j = id then k else (nodes j).key
  check := if j = id then check else (nodes j).check
  deleting := if j = id then false else (nodes j).deleting

/-- `grn_pat_enable_node` behind the link that the entry has. -/
theorem grnPatEnableNode_nodes {previousId : ℕ} {k : StoredKey}
    (hnodes : s'.nodes = Function.update (s.store p previousId).nodes id
      { (s.store p previousId).nodes id with key := k }) :
    (grnPatEnableNode s' id key c (patCheckPack key.length 0 false) p).nodes =
      putNodes s.nodes id p key c previousId k := by
  have hself : s'.nodes id = { (s.store p previousId).nodes id with key := k } := by
    rw [hnodes, Function.update_self]
  have hne : ∀ j, j ≠ id → s'.nodes j = (s.store p previousId).nodes j := fun j hj => by
    rw [hnodes, Function.update_of_ne hj]
  have hkey : ∀ j, (s'.nodes j).key = if j = id then k else (s.nodes j).key := by
    intro j
    by_cases hj : j = id
    · rw [if_pos hj, hj, hself]
    · rw [if_neg hj, hne j hj, store_key]
  have hcheck : ∀ j, (s'.nodes j).check = (s.nodes j).check := by
    intro j
    by_cases hj : j = id
    · rw [hj, hself]
      exact store_check
    · rw [hne j hj, store_check]
  have hdeleting : ∀ j, (s'.nodes j).deleting = (s.nodes j).deleting := by
    intro j
    by_cases hj : j = id
    · rw [hj, hself]
      exact store_deleting
    · rw [hne j hj, store_deleting]
  have hlr : ∀ j d, (s'.nodes j).lr d = if p = ⟨j, d⟩ then previousId else (s.nodes j).lr d := by
    intro j d
    by_cases hj : j = id
    · rw [hj, hself]
      exact store_lr
    · rw [hne j hj]
      exact store_lr
  have hload : s'.load p = previousId := (hlr p.node p.direction).trans (if_pos rfl)
  have hlink : ∀ j d, ((grnPatEnableNode s' id key c (patCheckPack key.length 0 false) p).nodes j).lr d =
      (putNodes s.nodes id p key c previousId k j).lr d := by
    intro j d
    rw [grnPatEnableNode, store_lr, hload]
    show _ = if p = ⟨j, d⟩ then id else _
    by_cases hp : p = ⟨j, d⟩
    · rw [if_pos hp, if_pos hp]
    rw [if_neg hp, if_neg hp]
    by_cases hj : j = id
    · rw [if_pos hj, hj, modify_self]
    · rw [if_neg hj, modify_of_ne hj, hlr, if_neg hp]
  have hfields : ∀ j, ((grnPatEnableNode s' id key c (patCheckPack key.length 0 false) p).nodes j).key =
        (putNodes s.nodes id p key c previousId k j).key ∧
      ((grnPatEnableNode s' id key c (patCheckPack key.length 0 false) p).nodes j).check =
        (putNodes s.nodes id p key c previousId k j).check ∧
      ((grnPatEnableNode s' id key c (patCheckPack key.length 0 false) p).nodes j).deleting =
        (putNodes s.nodes id p key c previousId k j).deleting := by
    intro j
    rw [grnPatEnableNode, store_key, store_check, store_deleting]
    by_cases hj : j = id
    · subst hj
      rw [modify_self]
      exact ⟨(hkey j).trans rfl, (if_pos rfl).symm, (if_pos rfl).symm⟩
    · rw [modify_of_ne hj]
      exact ⟨hkey j, (hcheck j).trans (if_neg hj).symm, (hdeleting j).trans (if_neg hj).symm⟩
  funext j
  obtain ⟨hk, hc, hd⟩ := hfields j
  have hl := funext (hlink j)
  generalize (grnPatEnableNode s' id key c (patCheckPack key.length 0 false) p).nodes j = node at hk hc hd hl
  cases node
  subst hk hc hd hl
  rfl

/-- **What an addition writes** does not depend on the table, but for the layout of its nodes. -/
theorem recoverAddEntry_eq {keyOffset check nEntries previousId : ℕ}
    (h : recoverAddEntry s id p key keyOffset check nEntries previousId = some s') :
    ∃ k currKey, ∃ write : (ℕ → UInt8) → ℕ → UInt8,
      ((∀ keys, write keys = keys) ∨ ∃ o, ∀ keys, write keys = writeKey keys o key) ∧
      ∀ r : GrnPat, r.isKeyLarge = s.isKeyLarge →
        recoverAddEntry r id p key keyOffset check nEntries previousId = some { r with
          nodes := putNodes r.nodes id p key check previousId k
          keys := write r.keys
          nEntries := nEntries + 1
          currRec := id
          currKey := currKey } := by
  have hid : ¬ grnIdMax < id := by
    intro hid
    rw [recoverAddEntry, if_pos hid] at h
    cases h
  have hkey : key ≠ [] := by
    rintro rfl
    rw [recoverAddEntry, if_neg hid] at h
    cases h
  -- what is behind the key that is stored
  have hrest : ∀ (r r₁ : GrnPat) (k : StoredKey) (keys : ℕ → UInt8) (currKey : ℕ),
      patNodeSetKey (({ r with currKey := keyOffset, nEntries := nEntries } : GrnPat).store p previousId) id
          key = some r₁ →
      r₁ = { ({ r with currKey := keyOffset, nEntries := nEntries } : GrnPat).store p previousId with
        nodes := Function.update (r.store p previousId).nodes id
          { (r.store p previousId).nodes id with key := k }
        keys := keys
        currKey := currKey } →
      recoverAddEntry r id p key keyOffset check nEntries previousId = some { r with
        nodes := putNodes r.nodes id p key check previousId k
        keys := keys
        nEntries := nEntries + 1
        currRec := id
        currKey := currKey } := by
    rintro r r₁ k keys currKey hset rfl
    rw [recoverAddEntry, if_neg hid]
    dsimp only
    rw [grnPatAddNode, hset]
    refine congrArg some ?_
    have hnodes := @grnPatEnableNode_nodes r { r with
        nodes := Function.update (r.store p previousId).nodes id
          { (r.store p previousId).nodes id with key := k }
        keys := keys
        nEntries := nEntries + 1
        currRec := id
        currKey := currKey } key id check p previousId k rfl
    exact congrArg (fun nodes => ({ r with
      nodes := nodes, keys := keys, nEntries := nEntries + 1, currRec := id, currKey := currKey } : GrnPat)) hnodes
  by_cases hembed : patKeyIsEmbeddable s.isKeyLarge key.length = true
  · refine ⟨.immediate key, keyOffset, fun keys => keys, .inl fun _ => rfl, fun r hlarge => ?_⟩
    refine hrest r _ (.immediate key) r.keys keyOffset ?_ rfl
    have hlarge' : (({ r with currKey := keyOffset, nEntries := nEntries } : GrnPat).store p
        previousId).isKeyLarge = s.isKeyLarge := hlarge
    rw [patNodeSetKey, if_neg hkey, hlarge', if_pos hembed]
    rfl
  · -- the place of the key is found by the layout and the end of the keys
    have hput : ∃ o, ∀ r : GrnPat, r.isKeyLarge = s.isKeyLarge → r.currKey = keyOffset →
        keyPut r key = some ({ r with keys := writeKey r.keys o key, currKey := o + key.length }, o) := by
      rw [recoverAddEntry, if_neg hid] at h
      dsimp only at h
      have hlarge' : (({ s with currKey := keyOffset, nEntries := nEntries } : GrnPat).store p
        previousId).isKeyLarge = s.isKeyLarge := rfl
      rw [grnPatAddNode, patNodeSetKey, if_neg hkey, hlarge', if_neg hembed] at h
      have hcurr' : (({ s with currKey := keyOffset, nEntries := nEntries } : GrnPat).store p
        previousId).currKey = keyOffset := rfl
      unfold keyPut at h ⊢
      rw [hlarge', hcurr'] at h
      generalize hmax : grnPatMaxTotalKeySize s.isKeyLarge = max at h
      generalize hsegments : maxNSegments s.isKeyLarge = segments at h
      generalize keySegmentSize = size at h ⊢
      dsimp only at h
      by_cases hfull : keyOffset < max ∧ max - keyOffset < key.length
      · rw [if_pos hfull] at h
        cases h
      rw [if_neg hfull] at h
      generalize ho : (if keyOffset / size ≠ (keyOffset + key.length - 1) / size then
        (keyOffset + key.length - 1) / size * size else keyOffset) = o at h
      by_cases hend : segments ≤ o / size
      · rw [if_pos hend] at h
        cases h
      refine ⟨o, fun r hlarge hcurr => ?_⟩
      dsimp only
      rw [hlarge, hcurr, hmax, hsegments, if_neg hfull, ho, if_neg hend]
    obtain ⟨o, hput⟩ := hput
    refine ⟨.stored o key.length, o + key.length, fun keys => writeKey keys o key, .inr ⟨o, fun _ => rfl⟩,
      fun r hlarge => ?_⟩
    refine hrest r _ (.stored o key.length) (writeKey r.keys o key) (o + key.length) ?_ rfl
    have hlarge' : (({ r with currKey := keyOffset, nEntries := nEntries } : GrnPat).store p
        previousId).isKeyLarge = s.isKeyLarge := hlarge
    rw [patNodeSetKey, if_neg hkey, hlarge', if_neg hembed,
      hput (({ r with currKey := keyOffset, nEntries := nEntries } : GrnPat).store p previousId) hlarge rfl]
    rfl

/-- Where a key is stored, and how long it is there. -/
def StoredKey.shape : StoredKey → Option (ℕ × ℕ)
  | .immediate _ => none
  | .stored offset length => some (offset, length)

/-- The key field of a node that is used again. -/
def StoredKey.recycled (key : List UInt8) : StoredKey → StoredKey
  | .immediate _ => .immediate key
  | .stored offset _ => .stored offset key.length

/-- The key area after the node is used again. -/
def StoredKey.written (keys : ℕ → UInt8) (key : List UInt8) : StoredKey → ℕ → UInt8
  | .immediate _ => keys
  | .stored offset _ => writeKey keys offset key

/-- **What a reuse writes.** -/
theorem recoverReuseEntry_eq (s : GrnPat) (id : ℕ) (p : Loc) (key : List UInt8)
    (check nGarbages nEntries previousId : ℕ) :
    recoverReuseEntry s id p key check nGarbages nEntries previousId = { s with
      nodes := putNodes s.nodes id p key check previousId ((s.nodes id).key.recycled key)
      keys := (s.nodes id).key.written s.keys key
      garbages := Function.update s.garbages (patKeyStorageSize s.isKeyLarge key.length)
        (((s.store p previousId).nodes id).lr false)
      nGarbages := nGarbages - 1
      nEntries := nEntries + 1 } := by
  rw [recoverReuseEntry]
  rw [grnPatReuseNode]
  have hkey : ((({ s with nGarbages := nGarbages, nEntries := nEntries } : GrnPat).store p
      previousId).nodes id).key = (s.nodes id).key := store_key
  rw [hkey]
  cases hk : (s.nodes id).key with
  | immediate old =>
    have hnodes := @grnPatEnableNode_nodes s ((s.store p previousId).modify id ({ · with key := .immediate key }))
      key id check p previousId (.immediate key) rfl
    exact congrArg (fun nodes => ({ s with
      nodes := nodes
      garbages := Function.update s.garbages (patKeyStorageSize s.isKeyLarge key.length)
        (((s.store p previousId).nodes id).lr false)
      nGarbages := nGarbages - 1
      nEntries := nEntries + 1 } : GrnPat)) hnodes
  | stored offset length =>
    have hnodes := @grnPatEnableNode_nodes s
      ((s.store p previousId).modify id ({ · with key := .stored offset key.length }))
      key id check p previousId (.stored offset key.length) rfl
    exact congrArg (fun nodes => ({ s with
      nodes := nodes
      keys := writeKey s.keys offset key
      garbages := Function.update s.garbages (patKeyStorageSize s.isKeyLarge key.length)
        (((s.store p previousId).nodes id).lr false)
      nGarbages := nGarbages - 1
      nEntries := nEntries + 1 } : GrnPat)) hnodes

/-! ## What the other side of a deletion gets -/

/-- The check of an output that takes the place of a branch. -/
def outputCheck (check0 check c : ℕ) : ℕ := if check0 < c ∧ c ≤ check then 0 else c

theorem outputCheck_eq_or (check0 check c : ℕ) :
    outputCheck check0 check c = c ∨ outputCheck check0 check c = 0 := by
  unfold outputCheck
  split_ifs
  · exact .inr rfl
  · exact .inl rfl

theorem outputCheck_zero (check0 check : ℕ) : outputCheck check0 check 0 = 0 :=
  by
  rcases outputCheck_eq_or check0 check 0 with h | h <;> exact h

variable {o check0 check : ℕ}

/-- Nothing but the check and the links of the node on the other side is changed. -/
theorem keepOtherside_fields (s : GrnPat) (o : ℕ) (p : Loc) (check0 check : ℕ) :
    ∃ nodes', keepOtherside s o p check0 check = { s with nodes := nodes' } ∧
      (∀ j, (nodes' j).key = (s.nodes j).key ∧ (nodes' j).deleting = (s.nodes j).deleting) ∧
      (∀ j, j ≠ o ∨ o = 0 → (nodes' j).check = (s.nodes j).check ∧ (nodes' j).lr = (s.nodes j).lr) ∧
      (o ≠ 0 → (nodes' o).check = outputCheck check0 check (s.nodes o).check ∧
        ∀ d, (nodes' o).lr d = if p = .root ∧ outputCheck check0 check (s.nodes o).check = 0 then
          if d = nthBit (s.keyOf o) 0 then o else 0 else (s.nodes o).lr d) := by
  by_cases ho : o = 0
  · exact ⟨s.nodes, if_pos ho, fun j => ⟨rfl, rfl⟩, fun j _ => ⟨rfl, rfl⟩, fun hne => absurd ho hne⟩
  have hreset : resetCheck s o check0 check = s.setCheck o (outputCheck check0 check (s.nodes o).check) := by
    unfold resetCheck outputCheck
    split_ifs
    · rfl
    · have hself : ({ s.nodes o with check := (s.nodes o).check } : Node) = s.nodes o := rfl
      rw [GrnPat.setCheck, GrnPat.modify, hself, Function.update_eq_self]
  rw [keepOtherside_eq ho, hreset, setCheck_check_self]
  generalize hs₁ : s.setCheck o (outputCheck check0 check (s.nodes o).check) = s₁
  have hcheck : (s₁.nodes o).check = outputCheck check0 check (s.nodes o).check := by
    rw [← hs₁, setCheck_check_self]
  have hne : ∀ j, j ≠ o → (s₁.nodes j).check = (s.nodes j).check := fun j hj => by
    rw [← hs₁, setCheck_check_of_ne hj]
  have hlr : ∀ j, (s₁.nodes j).lr = (s.nodes j).lr := fun j => by rw [← hs₁, setCheck_lr]
  have hkey : ∀ j, (s₁.nodes j).key = (s.nodes j).key := fun j => by rw [← hs₁, setCheck_key]
  have hdeleting : ∀ j, (s₁.nodes j).deleting = (s.nodes j).deleting := fun j => by
    rw [← hs₁, setCheck_deleting]
  have hkeyOf : s₁.keyOf o = s.keyOf o := keyOf_congr (hkey o) (by rw [← hs₁]; rfl)
  have hrest : { s with nodes := s₁.nodes } = s₁ := by rw [← hs₁]; rfl
  by_cases hfirst : p = .root ∧ outputCheck check0 check (s.nodes o).check = 0
  · rw [if_pos hfirst]
    refine ⟨(becomeFirst s₁ o).nodes, ?_, fun j => ?_, fun j hj => ?_, fun _ => ⟨?_, fun d => ?_⟩⟩
    · rw [← hs₁]
      rfl
    · rw [becomeFirst_key, becomeFirst_deleting]
      exact ⟨hkey j, hdeleting j⟩
    · have hj := hj.resolve_right ho
      refine ⟨becomeFirst_check.trans (hne j hj), funext fun d => ?_⟩
      rw [becomeFirst_lr_of_ne hj, hlr]
    · rw [becomeFirst_check, hcheck]
    · rw [if_pos hfirst, becomeFirst, store_lr, store_lr, hkeyOf]
      cases d <;> cases nthBit (s.keyOf o) 0 <;> simp
  · rw [if_neg hfirst]
    exact ⟨s₁.nodes, hrest.symm, fun j => ⟨hkey j, hdeleting j⟩,
      fun j hj => ⟨hne j (hj.resolve_right ho), hlr j⟩,
      fun _ => ⟨hcheck, fun d => by rw [if_neg hfirst, hlr]⟩⟩

end Groonga.Pat
