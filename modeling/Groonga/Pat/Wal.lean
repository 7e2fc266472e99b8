import Groonga.Pat.Defrag
import Groonga.Lib.Redo

/-!
# The write ahead log of a patricia trie

An operation writes what it is going to do into the log, in entries that remember the links and the
counters they change. The recovery does the entries again, one after another.

A defragmentation writes one entry for each key that it moves, and then one with the end of the keys.
The recovery waits for the latter and then reads the moves, from the first one of them on.

The ids of the entries of a log grow, so here they are the positions from 1 on. What an entry has and
the recovery does not read is left out, but for the next free node of a reused one.
-/

namespace Groonga.Pat

open Lib

/-! ## Entries -/

/-- An entry of the log. A link is given by its node and its direction. -/
inductive WalEntry where
  | addEntry (id : ℕ) (location : Loc) (key : List UInt8) (keyOffset check nEntries previousId : ℕ)
  | reuseEntry (id : ℕ) (location : Loc) (key : List UInt8)
      (check nextGarbageId nGarbages nEntries previousId : ℕ)
  | deleteInfoPhase1 (index : ℕ)
  | deleteInfoPhase2 (id keySize check parentId leftId rightId index : ℕ)
  | deleteInfoPhase3 (id nextGarbageId index : ℕ)
  | deleteEntry (id : ℕ) (location : Loc) (check : ℕ) (parentLocation : Loc)
      (parentCheck othersideId nGarbages nEntries index phase1Index phase2Index : ℕ)
  | defragKey (id : ℕ) (key : List UInt8) (keyOffset : ℕ)
  | defragCurrentKey (id keyOffset : ℕ)
deriving DecidableEq

/-- The entries of `grn_pat_add`. -/
def addWal (s : GrnPat) (key : List UInt8) : List WalEntry :=
  if key = [] ∨ maxKeySize < key.length then []
  else
    let cached := s.cache (grnPatCacheComputeId s.cacheSize key)
    if s.cacheSize ≠ 0 ∧ cached ≠ 0 ∧ s.keyOf cached = key then []
    else
      match grnPatAddInternalFind s key with
      | some (.inr (idLocation, check)) =>
        let garbage := s.garbages (patKeyStorageSize s.isKeyLarge key.length)
        if garbage ≠ 0 then
          [.reuseEntry garbage idLocation key check ((s.nodes garbage).lr false) s.nGarbages s.nEntries
            (s.load idLocation)]
        else [.addEntry (s.currRec + 1) idLocation key s.currKey check s.nEntries (s.load idLocation)]
      | _ => []

/-- The entry of `delinfo_turn_2` on the slot `i`. -/
def turn2Wal (s : GrnPat) (i : ℕ) : List WalEntry :=
  let di := s.delinfos i
  if di.stat ≠ .phase1 then []
  else
    let dn := s.nodes di.d
    [.deleteInfoPhase2 di.d dn.key.length dn.check di.ld (dn.lr false) (dn.lr true) i]

/-- The entry of `delinfo_turn_3` on the slot `i`. -/
def turn3Wal (s : GrnPat) (i : ℕ) : List WalEntry :=
  let di := s.delinfos i
  if di.stat ≠ .phase2 then []
  else [.deleteInfoPhase3 di.d (s.garbages (s.nodes di.d).key.storageSize) i]

/-- The entries of the loop of `delinfo_new`. -/
def turn2sWal (s : GrnPat) : ℕ → List WalEntry
  | 0 => []
  | gap + 1 => turn2Wal s s.currDel2 ++
    match delinfoTurn2 s s.currDel2 with
    | some s => turn2sWal { s with currDel2 := (s.currDel2 + 1) % nDelinfos } gap
    | none => []

/-- How many slots leave the first phase in `delinfo_new`. -/
def deletionGap (s : GrnPat) : ℕ :=
  ((s.currDel + 1) % nDelinfos + nDelinfos - s.currDel2) % nDelinfos - nDelinfos / 2

/-- The entries of `delinfo_new`. -/
def delinfoNewWal (s : GrnPat) : List WalEntry :=
  .deleteInfoPhase1 s.currDel :: (turn2sWal s (deletionGap s) ++
    match turn2s s (deletionGap s) with
    | some s => if (s.currDel + 1) % nDelinfos = s.currDel3 then turn3Wal s s.currDel3 else []
    | none => [])

/-- The entry of `_grn_pat_del` for the record that its search has found. -/
def deleteEntryWal (s : GrnPat) (slot : ℕ) (st : DelState) : List WalEntry :=
  let id := s.load st.p
  let previous := s.nodes st.nodePrevious
  if previous.lr false = previous.lr true then []
  else
    let otherside := if previous.lr true = id then previous.lr false else previous.lr true
    [.deleteEntry id st.p st.nodeCheck.toNat st.p0
      (if st.nodePreviousCheck < 0 then 65535 else st.nodePreviousCheck.toNat) otherside
      (s.nGarbages + 1) (s.nEntries - 1) slot s.currDel s.currDel2]

/-- The entries of `_grn_pat_del`. -/
def delWal (s : GrnPat) (key : List UInt8) : List WalEntry :=
  delinfoNewWal s ++
    match delinfoNew s with
    | none => []
    | some (s, slot) =>
      let checkMax := patCheckPack key.length 0 false
      match delLoop s key checkMax (checkMax + 2) ⟨.root, .root, 0, -1, -1⟩ with
      | some (some st) => deleteEntryWal s slot st
      | _ => []

/-- The entries of `delinfos_turn_2_force`. -/
def turn2ForceWal (s : GrnPat) : ℕ → ℕ → List WalEntry
  | 0, _ => []
  | n + 1, i => turn2Wal s i ++
    if (s.delinfos i).stat ≠ .phase1 then turn2ForceWal s n (i + 1)
    else
      match delinfoTurn2 s i with
      | some s => turn2ForceWal { s with currDel2 := (s.currDel2 + 1) % nDelinfos } n (i + 1)
      | none => []

/-- `pat_key_defrag_each` with `pat_key_defrag_wal_add_entry_callback`: the entries and the end of the
keys. No key is moved yet. -/
def defragKeysWal (s : GrnPat) : List ℕ → ℕ → List WalEntry × ℕ
  | [], newCurrKey => ([], newCurrKey)
  | id :: ids, newCurrKey =>
    let key := (s.nodes id).key
    let position := defragPosition newCurrKey key.length
    let rest := defragKeysWal s ids (position + key.length)
    (if key.offset ≠ position then .defragKey id (s.keyOf id) position :: rest.1 else rest.1, rest.2)

/-- The entries of `grn_pat_defrag` when the pending deletions are finished. -/
def compactWal (s : GrnPat) : List WalEntry :=
  if s.nEntries = 0 then [.defragCurrentKey 0 0]
  else
    let keys := defragKeysWal s (defragTargets s) 0
    keys.1 ++ [.defragCurrentKey (activeMaxId s) keys.2]

/-- The entries of `grn_pat_defrag`. -/
def defragWal (s : GrnPat) : List WalEntry :=
  turn2ForceWal s nDelinfos 0 ++
    match delinfosTurn2Force s nDelinfos 0 with
    | some s => compactWal s
    | none => []

/-- The entries of an operation. -/
def opWal (s : GrnPat) : Op → List WalEntry
  | .call (.add key) => addWal s key
  | .call (.delete key) => if key = [] then [] else delWal s key
  | .call (.deleteById id) => if id = 0 then [] else delWal s (_grnPatKey s id)
  | .call (.get _) => []
  | .defrag => defragWal s

/-- The entries of a run. -/
def opsWal : GrnPat → List Op → List WalEntry
  | _, [] => []
  | s, o :: ops => opWal s o ++ opsWal (op s o) ops

/-! ## The recovery -/

/-- `grn_pat_wal_recover_add_entry`. -/
def recoverAddEntry (s : GrnPat) (id : ℕ) (location : Loc) (key : List UInt8)
    (keyOffset check nEntries previousId : ℕ) : Option GrnPat :=
  if grnIdMax < id then none
  else
    let s := { s with currKey := keyOffset, nEntries := nEntries }
    grnPatAddNode (s.store location previousId) id key check (patCheckPack key.length 0 false) location

/-- `grn_pat_wal_recover_reuse_entry`. -/
def recoverReuseEntry (s : GrnPat) (id : ℕ) (location : Loc) (key : List UInt8)
    (check nGarbages nEntries previousId : ℕ) : GrnPat :=
  let s := { s with nGarbages := nGarbages, nEntries := nEntries }
  grnPatReuseNode (s.store location previousId) id key check (patCheckPack key.length 0 false) location

/-- `grn_pat_wal_recover_delete_info_phase1`. -/
def recoverDeleteInfoPhase1 (s : GrnPat) (index : ℕ) : GrnPat :=
  { s with currDel := (index + 1) % nDelinfos }

/-- `pat_node_set_key_length`. What a node has behind its own key is not part of the model. -/
def StoredKey.setLength (n : ℕ) : StoredKey → StoredKey
  | .immediate key => .immediate ((List.range n).map fun i => key.getD i 0)
  | .stored offset _ => .stored offset n

/-- `grn_pat_wal_recover_delete_info_phase2`. -/
def recoverDeleteInfoPhase2 (s : GrnPat) (id keySize check parentId leftId rightId index : ℕ) :
    Option GrnPat :=
  let s := ({ s with currDel2 := index } : GrnPat).setDelinfo index ⟨id, parentId, .phase1⟩
  let s := s.modify id fun n =>
    { n with key := n.key.setLength keySize, check := check, lr := fun d => if d then rightId else leftId }
  (delinfoTurn2 s index).map fun s => { s with currDel2 := (s.currDel2 + 1) % nDelinfos }

/-- `grn_pat_wal_recover_delete_info_phase3`. -/
def recoverDeleteInfoPhase3 (s : GrnPat) (id nextGarbageId index : ℕ) : GrnPat :=
  let s := { s with currDel3 := index }
  let s := s.setDelinfo index { s.delinfos index with d := id, stat := .phase2 }
  let s := { s with garbages := Function.update s.garbages (s.nodes id).key.storageSize nextGarbageId }
  let s := delinfoTurn3 s index
  { s with currDel3 := (s.currDel3 + 1) % nDelinfos }

/-- The bookkeeping of `grn_pat_del_internal` as in the source: the slot of the deletion may be one of
those that the search finds, and `previousId` is what the link to the previous node has. -/
def recordDeletionAt (s : GrnPat) (slot id previous previousId : ℕ) : GrnPat :=
  let ldi := if (s.nodes id).deleting then delinfoSearch s id else none
  let ddi := if (s.nodes previous).deleting then delinfoSearch s previousId else none
  let setStat (s : GrnPat) (i : ℕ) (stat : Stat) : GrnPat := s.setDelinfo i { s.delinfos i with stat := stat }
  let setD (s : GrnPat) : GrnPat := s.setDelinfo slot { s.delinfos slot with d := id }
  let setLd (s : GrnPat) (i ld : ℕ) : GrnPat := s.setDelinfo i { s.delinfos i with ld := ld }
  match ldi with
  | some ldi =>
    let s := setStat (s.setDeleting id false) slot .phase2
    match ddi with
    | some ddi =>
      let s := setStat (s.setDeleting previous false) ddi .phase2
      if ddi = ldi then setD s else setD (setLd s ldi (s.delinfos ddi).ld)
    | none => setD (setLd (s.setDeleting previous true) ldi previousId)
  | none =>
    let s := s.setDeleting id true
    match ddi with
    | some ddi =>
      let s := setStat (setStat (s.setDeleting previous false) ddi .phase2) slot .phase1
      setD (setLd s slot (s.delinfos ddi).ld)
    | none => setD (setLd (setStat (s.setDeleting previous true) slot .phase1) slot previousId)

/-- `grn_pat_del_internal` with the data of an entry. -/
def recoverDelInternal (s : GrnPat) (slot id otherside : ℕ) (p p0 : Loc) (check0 check : ℕ) : GrnPat :=
  let node := s.nodes id
  if id = p.node then
    let s := s.setDelinfo slot { s.delinfos slot with d := id, stat := .phase2 }
    (keepOtherside s otherside p0 check0 check).store p0 otherside
  else if (node.lr false = 0 ∧ node.lr true = id) ∨ (node.lr true = 0 ∧ node.lr false = id) then
    let s := s.setDelinfo slot { s.delinfos slot with d := id, stat := .phase2 }
    s.store p 0
  else
    let previousId := s.load p0
    let s := recordDeletionAt s slot id p.node previousId
    if previousId = otherside then
      let s := s.setCheck otherside 0
      if p0 = .root then becomeFirst s otherside else s
    else (keepOtherside s otherside p0 check0 check).store p0 otherside

/-- `grn_pat_wal_recover_delete_entry`. -/
def recoverDeleteEntry (s : GrnPat) (id : ℕ) (location : Loc) (check : ℕ) (parentLocation : Loc)
    (parentCheck othersideId nGarbages nEntries index phase1Index phase2Index : ℕ) : GrnPat :=
  let s := { s with currDel := phase1Index, currDel2 := phase2Index }
  { recoverDelInternal s index id othersideId location parentLocation parentCheck check with
    nGarbages := nGarbages
    nEntries := nEntries }

/-- `grn_pat_wal_recover_defrag_key`. -/
def recoverDefragKey (s : GrnPat) (id : ℕ) (key : List UInt8) (keyOffset : ℕ) : GrnPat :=
  { s.modify id ({ · with key := .stored keyOffset (s.nodes id).key.length }) with
    keys := writeKey s.keys keyOffset key }

/-- The loop of `grn_pat_wal_recover_defrag_current_key`: the moves until another entry comes. -/
def recoverDefragKeys (s : GrnPat) : List WalEntry → GrnPat
  | .defragKey id key keyOffset :: es => recoverDefragKeys (recoverDefragKey s id key keyOffset) es
  | _ => s

/-- `grn_pat_wal_recover_defrag_current_key`: the entries of the whole log whose id is not less than
`startId` are read. -/
def recoverDefragCurrentKey (s : GrnPat) (wal : List WalEntry) (startId id keyOffset : ℕ) : GrnPat :=
  let s := recoverDefragKeys s (wal.drop (startId - 1))
  grnPatDefragClearDelinfos { s with currKey := keyOffset } id

/-- An entry that is done at once. -/
def recoverEntry (s : GrnPat) : WalEntry → Option GrnPat
  | .addEntry id location key keyOffset check nEntries previousId =>
    recoverAddEntry s id location key keyOffset check nEntries previousId
  | .reuseEntry id location key check _ nGarbages nEntries previousId =>
    some (recoverReuseEntry s id location key check nGarbages nEntries previousId)
  | .deleteInfoPhase1 index => some (recoverDeleteInfoPhase1 s index)
  | .deleteInfoPhase2 id keySize check parentId leftId rightId index =>
    recoverDeleteInfoPhase2 s id keySize check parentId leftId rightId index
  | .deleteInfoPhase3 id nextGarbageId index => some (recoverDeleteInfoPhase3 s id nextGarbageId index)
  | .deleteEntry id location check parentLocation parentCheck othersideId nGarbages nEntries index phase1Index
      phase2Index =>
    some (recoverDeleteEntry s id location check parentLocation parentCheck othersideId nGarbages nEntries index
      phase1Index phase2Index)
  | _ => some s

/-- The loop of `grn_pat_wal_recover`: `id` is the id of the next entry, and `startId` the one of the first
move of a key that is still to be done, 0 if there is none. -/
def recoverLoop (wal : List WalEntry) : ℕ → ℕ → List WalEntry → GrnPat → Option GrnPat
  | _, _, [], s => some s
  | id, startId, .defragKey _ _ _ :: es, s =>
    recoverLoop wal (id + 1) (if startId = 0 then id else startId) es s
  | id, startId, .defragCurrentKey recordId keyOffset :: es, s =>
    recoverLoop wal (id + 1) 0 es (recoverDefragCurrentKey s wal startId recordId keyOffset)
  | id, startId, e :: es, s => (recoverEntry s e).bind (recoverLoop wal (id + 1) startId es)

/-- `grn_pat_wal_recover`, nothing when it stops with an error. -/
def grnPatWalRecover (s : GrnPat) (wal : List WalEntry) : Option GrnPat := recoverLoop wal 1 0 wal s

/-- What the file has: the cache belongs to the process. -/
def GrnPat.file (s : GrnPat) : GrnPat := { s with cacheSize := 0, cache := fun _ => 0 }

end Groonga.Pat
