import Groonga.Load.Reads

/-!
# The reader on any text

The reader does not know the grammar: a closing bracket acts on the innermost position of the level,
whatever was opened there, and what makes a record takes names and values in turn. This is what
holds in spite of it for every text, and on what the rest depends.

The entries in front of `values_size` stand in frames, one for each open array or object: the
entry of the array or object, and behind it closed values, one after the other.
-/

namespace Groonga.Load

variable {F σ : Type}

/-! ## Frames -/

/-- The entries from one position to another are values with all that belongs to them. -/
def Laid (values : List (Entry F)) (b n : ℕ) : Prop :=
  Reaches values b n ∧
    ∀ p, b ≤ p → p < n → Reaches values (p + 1) (nextAt values p) ∧ nextAt values p ≤ n

/-- **The frames of the open arrays and objects**, the innermost one first. -/
inductive Stands (values : List (Entry F)) : ℕ → List ℕ → List Kind → Prop
  | nil : Stands values 0 [] []
  | cons {start n size : ℕ} {level : List ℕ} {kind : Kind} {opened : List Kind}
      (outer : Stands values start level opened) (hlt : start < n)
      (hentry : values[start]? = some (kind.entry size)) (hlaid : Laid values (start + 1) n) :
      Stands values n (start :: level) (kind :: opened)

variable {values values' : List (Entry F)} {b n p q start : ℕ} {level : List ℕ} {opened : List Kind}
  {kind : Kind}

theorem Stands.of_cons_level (h : Stands values n (start :: level) opened) :
    ∃ size kind outer, opened = kind :: outer ∧ Stands values start level outer ∧ start < n ∧
      values[start]? = some (kind.entry size) ∧ Laid values (start + 1) n := by
  cases h with
  | @cons _ _ size _ kind outer houter hlt hentry hlaid =>
    exact ⟨size, kind, outer, rfl, houter, hlt, hentry, hlaid⟩

theorem Stands.of_nil_level (h : Stands values n [] opened) : opened = [] := by
  cases h with
  | nil => rfl

/-- Two arrays have the same arrays and objects from one position to another. -/
def Agree (values values' : List (Entry F)) (b n : ℕ) : Prop :=
  ∀ p, b ≤ p → p < n → sizeAt values' p = sizeAt values p ∧
    ∀ kind size, values[p]? = some (Kind.entry kind size) → values'[p]? = some (kind.entry size)

theorem Agree.nextAt (h : Agree values values' b n) (hb : b ≤ p) (hn : p < n) :
    nextAt values' p = nextAt values p := by
  rw [Load.nextAt, Load.nextAt, (h p hb hn).1]

theorem Agree.mono (h : Agree values values' b n) {b' n' : ℕ} (hb : b ≤ b') (hn : n' ≤ n) :
    Agree values values' b' n' := fun p hbp hpn =>
  h p (Nat.le_trans hb hbp) (Nat.lt_of_lt_of_le hpn hn)

theorem Agree.reaches (h : Agree values values' b n) (hreach : Reaches values p q) (hb : b ≤ p)
    (hn : q ≤ n) : Reaches values' p q := by
  induction hreach with
  | refl p => exact .refl p
  | @step p q hlt hrest ih =>
    have hnext := h.nextAt hb (Nat.lt_of_lt_of_le hlt hn)
    refine .step hlt ?_
    rw [hnext]
    exact ih (Nat.le_trans hb (Nat.le_of_lt (lt_nextAt values p))) hn

theorem Agree.laid (h : Agree values values' b n) (hlaid : Laid values b n) : Laid values' b n := by
  refine ⟨h.reaches hlaid.1 (Nat.le_refl _) (Nat.le_refl _), fun p hb hn => ?_⟩
  obtain ⟨hreach, hle⟩ := hlaid.2 p hb hn
  rw [h.nextAt hb hn]
  exact ⟨h.reaches hreach (Nat.le_succ_of_le hb) hle, hle⟩

theorem Agree.stands (h : Agree values values' 0 n) (hstands : Stands values n level opened) :
    Stands values' n level opened := by
  induction hstands with
  | nil => exact .nil
  | @cons start n size level kind opened outer hlt hentry hlaid ih =>
    exact .cons (ih (h.mono (Nat.le_refl _) (Nat.le_of_lt hlt))) hlt
      ((h start (Nat.zero_le _) hlt).2 kind size hentry)
      ((h.mono (Nat.zero_le _) (Nat.le_refl _)).laid hlaid)

/-- A value without entries inside, behind the last one. -/
theorem Laid.add (hlaid : Laid values b n) (hsize : sizeAt values n = 0) :
    Laid values b (n + 1) := by
  have hnext : nextAt values n = n + 1 := by rw [nextAt, hsize]
  refine ⟨hlaid.1.trans (.step (Nat.lt_succ_self n) (hnext ▸ .refl _)), fun p hb hn => ?_⟩
  rcases Nat.lt_or_eq_of_le (Nat.le_of_lt_succ hn) with hlt | rfl
  · exact ⟨(hlaid.2 p hb hlt).1, Nat.le_succ_of_le (hlaid.2 p hb hlt).2⟩
  · rw [hnext]
    exact ⟨.refl _, Nat.le_refl _⟩

/-- An array or object that gets its size. -/
theorem Laid.close (houter : Laid values b start) (hinner : Laid values (start + 1) n)
    (hlt : start < n) (hnext : nextAt values start = n) : Laid values b n := by
  refine ⟨houter.1.trans (.step hlt (hnext ▸ .refl _)), fun p hb hn => ?_⟩
  rcases Nat.lt_trichotomy p start with hp | rfl | hp
  · obtain ⟨hreach, hle⟩ := houter.2 p hb hp
    exact ⟨hreach, by omega⟩
  · rw [hnext]
    exact ⟨hinner.1, Nat.le_refl _⟩
  · exact hinner.2 p hp hn

/-! ## The array of values -/

/-- **The frames of the loader.** -/
structure Framed (st : Store F σ) (opened : List Kind) : Prop where
  stands : Stands st.values st.valuesSize st.level opened
  length : st.valuesSize ≤ st.values.length

section Store

variable {env : Env F σ} {st : Store F σ}

/-- The array can have so many entries: their size has 32 bits. -/
def maxEntries : ℕ := 2 ^ 27

/-- Where an entry is added, as long as the sizes do not wrap around. -/
theorem add_values (hlen : st.valuesSize ≤ st.values.length) (hmax : st.valuesSize < maxEntries)
    (e : Entry F) :
    (st.add e).valuesSize = st.valuesSize + 1 ∧ (st.add e).values.length ≥ st.valuesSize + 1 ∧
      (st.add e).values[st.valuesSize]? = some e ∧
      ∀ p < st.valuesSize, (st.add e).values[p]? = st.values[p]? := by
  have hplace : st.place = st.valuesSize := by
    rw [Store.place]
    simp only [maxEntries] at hmax
    omega
  simp only [maxEntries] at hmax
  have hsize : (st.add e).valuesSize = st.valuesSize + 1 := by
    rw [Store.add]
    exact Nat.mod_eq_of_lt (by omega)
  simp only [Store.add, hplace] at hsize ⊢
  refine ⟨hsize, ?_⟩
  split_ifs with hlt
  · refine ⟨by rw [List.length_set]; exact hlt, by simp [hlt], fun p hp => ?_⟩
    rw [List.getElem?_set_ne (Nat.ne_of_gt hp)]
  · have heq : st.values.length = st.valuesSize := by omega
    refine ⟨by simp [heq], by simp [← heq], fun p hp => ?_⟩
    rw [List.getElem?_append_left (by omega)]

/-- What is not changed agrees. -/
theorem agree_of_eq (h : ∀ p, b ≤ p → p < n → values'[p]? = values[p]?) :
    Agree values values' b n := by
  intro p hb hn
  rw [sizeAt, sizeAt, h p hb hn]
  exact ⟨rfl, fun _ _ he => he⟩

theorem sizeAt_of_getElem? {e : Entry F} (h : values[p]? = some e) : sizeAt values p = e.size := by
  rw [sizeAt, h]
  rfl

theorem size_entry (kind : Kind) (size : ℕ) : (kind.entry size : Entry F).size = size := by
  cases kind <;> rfl

/-- **A scalar is added** inside an open array or object. -/
theorem Framed.add (h : Framed st opened) (hlevel : st.level ≠ [])
    (hmax : st.valuesSize < maxEntries)
    {e : Entry F} (he : e.size = 0) : Framed (st.add e) opened := by
  obtain ⟨hsize, hlen, hentry, hsame⟩ := add_values h.length hmax e
  have hagree : Agree st.values (st.add e).values 0 st.valuesSize :=
    agree_of_eq fun p _ hp => hsame p hp
  have hstands := hagree.stands h.stands
  refine ⟨?_, by omega⟩
  have hlevel' : (st.add e).level = st.level := rfl
  obtain ⟨start, level, hcons⟩ := List.exists_cons_of_ne_nil hlevel
  rw [hlevel', hsize, hcons]
  rw [hcons] at hstands
  obtain ⟨size, kind, outer, rfl, houter, hlt, hstart, hlaid⟩ := hstands.of_cons_level
  refine .cons houter (Nat.lt_succ_of_lt hlt) hstart (hlaid.add ?_)
  rw [sizeAt_of_getElem? hentry, he]

/-- **An array or object is opened.** -/
theorem Framed.openContainer (h : Framed st opened) (hmax : st.valuesSize < maxEntries)
    (kind : Kind) : Framed (st.openContainer kind) (kind :: opened) := by
  obtain ⟨hsize, hlen, hentry, hsame⟩ :=
    @add_values F σ { st with level := st.valuesSize :: st.level } h.length hmax (kind.entry 0)
  have hagree : Agree st.values (st.openContainer kind).values 0 st.valuesSize :=
    agree_of_eq fun p _ hp => hsame p hp
  refine ⟨?_, hsize ▸ hlen⟩
  have hvalues : (st.openContainer kind).valuesSize = st.valuesSize + 1 := hsize
  rw [hvalues]
  refine .cons (hagree.stands h.stands) (Nat.lt_succ_self _) hentry ⟨.refl _, fun p hb hn => ?_⟩
  exact absurd hn (Nat.not_lt.mpr hb)

/-- The array when the innermost array or object has its size. -/
def sized (st : Store F σ) (start : ℕ) : List (Entry F) :=
  st.values.modify start (Entry.setSize ((st.valuesSize + 2 ^ 32 - start - 1) % 2 ^ 32))

/-- **The innermost array or object, when it has its size**: all of it is inside. -/
theorem sized_laid (h : Framed st (kind :: opened)) (hmax : st.valuesSize ≤ maxEntries)
    (hlevel : st.level = start :: level) :
    Stands (sized st start) start level opened ∧ start < st.valuesSize ∧
      (∃ size, (sized st start)[start]? = some (kind.entry size)) ∧
      nextAt (sized st start) start = st.valuesSize ∧
      Laid (sized st start) (start + 1) st.valuesSize := by
  have hstands := h.stands
  rw [hlevel] at hstands
  obtain ⟨size, kind', opened', heq, outer, hlt, hentry, hlaid⟩ := hstands.of_cons_level
  obtain ⟨rfl, rfl⟩ := List.cons.inj heq
  have hsame : ∀ p, p ≠ start → (sized st start)[p]? = st.values[p]? := fun p hp =>
    List.getElem?_modify_ne _ _ (Ne.symm hp)
  have hat : (sized st start)[start]? =
      some (kind.entry ((st.valuesSize + 2 ^ 32 - start - 1) % 2 ^ 32)) := by
    rw [sized, List.getElem?_modify_eq, hentry]
    cases kind <;> rfl
  have hlow : Agree st.values (sized st start) 0 start :=
    agree_of_eq fun p _ hp => hsame p (Nat.ne_of_lt hp)
  have hhigh : Agree st.values (sized st start) (start + 1) st.valuesSize :=
    agree_of_eq fun p hp _ => hsame p (Nat.ne_of_gt hp)
  refine ⟨hlow.stands outer, hlt, ⟨_, hat⟩, ?_, hhigh.laid hlaid⟩
  rw [nextAt, sizeAt_of_getElem? hat, size_entry]
  simp only [maxEntries] at hmax
  omega

/-- **The innermost array or object is closed.** -/
theorem Framed.close (h : Framed st (kind :: opened)) (hmax : st.valuesSize ≤ maxEntries)
    (kind' : Kind) : Framed (st.close env kind') opened := by
  have hlength := h.length
  rcases hlevel : st.level with - | ⟨start, level⟩
  · have hstands := h.stands
    rw [hlevel] at hstands
    exact absurd hstands.of_nil_level (List.cons_ne_nil _ _)
  · obtain ⟨houter, hlt, ⟨size, hentry⟩, hnext, hlaid⟩ := sized_laid h hmax hlevel
    have hlen : (sized st start).length = st.values.length := by rw [sized, List.length_modify]
    rw [Store.close, hlevel]
    simp only
    by_cases hemit : env.emitLevel < level.length
    · rw [if_pos hemit]
      refine ⟨?_, by simpa using hlength⟩
      change Stands (sized st start) st.valuesSize level opened
      cases level with
      | nil => exact absurd hemit (Nat.not_lt_zero _)
      | cons start' level =>
        obtain ⟨size', kind'', outer, rfl, houter', hlt', hentry', hlaid'⟩ := houter.of_cons_level
        exact .cons houter' (Nat.lt_trans hlt' hlt) hentry' (hlaid'.close hlaid hlt hnext)
    · rw [if_neg hemit]
      refine ⟨houter, ?_⟩
      change start ≤ (sized st start).length
      omega

/-- A change of a scalar to another one. -/
theorem Framed.modify (h : Framed st opened) {f : Entry F → Entry F}
    (hsize : ∀ e, (f e).size = e.size)
    (hkind : ∀ kind size, f (Kind.entry kind size) = kind.entry size) (last : ℕ) :
    Framed { st with values := st.values.modify last f } opened := by
  have hget : ∀ p : ℕ, (st.values.modify last f)[p]? = st.values[p]? ∨
      (st.values.modify last f)[p]? = st.values[p]?.map f := by
    intro p
    by_cases hp : last = p
    · rw [hp]
      exact .inr (List.getElem?_modify_eq _ _ _)
    · exact .inl (List.getElem?_modify_ne _ _ hp)
  have hagree : Agree st.values (st.values.modify last f) 0 st.valuesSize := by
    intro p _ _
    rcases hget p with heq | heq
    · rw [sizeAt, sizeAt, heq]
      exact ⟨rfl, fun _ _ he => he⟩
    · rw [sizeAt, sizeAt, heq]
      refine ⟨?_, fun kind size he => ?_⟩
      · cases st.values[p]? with
        | none => rfl
        | some e => exact hsize e
      · rw [he]
        exact congrArg some (hkind kind size)
  exact ⟨hagree.stands h.stands, by simpa using h.length⟩

end Store

/-! ## What the bytes open and close -/

/-- The array or object that a byte closes. -/
def closing (r : Reader F σ) (c : UInt8) : Option Kind :=
  if r.stat = .token then
    if c = 0x5d then some .bracket else if c = 0x7d then some .brace else none
  else none

/-- The array or object that a byte opens. -/
def opening (r : Reader F σ) (c : UInt8) : Option Kind :=
  if r.stat = .begin ∨ r.stat = .token then
    if c = 0x5b then some .bracket else if c = 0x7b then some .brace else none
  else none

/-- The arrays and objects that the bytes have opened and not closed again, the innermost first. -/
def openedNext (r : Reader F σ) (opened : List Kind) (c : UInt8) : List Kind :=
  match opening r c with
  | some kind => kind :: opened
  | none => if (closing r c).isSome then opened.tail else opened

/-- A moment of the loop: the reader, what is open, and the next byte. -/
structure Moment (F σ : Type) where
  reader : Reader F σ
  opened : List Kind
  byte : UInt8

/-- The moments of `json_read`. -/
def momentsLoop (env : Env F σ) (beg : List UInt8) :
    ℕ → Reader F σ → List Kind → List UInt8 → List (Moment F σ)
  | 0, _, _, _ => []
  | _ + 1, _, _, [] => []
  | fuel + 1, r, opened, c :: rest =>
    ⟨r, opened, c⟩ ::
      momentsLoop env beg fuel (r.step env beg c rest).1 (openedNext r opened c)
        (r.step env beg c rest).2

/-- What is open behind the loop. -/
def openedLoop (env : Env F σ) (beg : List UInt8) :
    ℕ → Reader F σ → List Kind → List UInt8 → List Kind
  | 0, _, opened, _ => opened
  | _ + 1, _, opened, [] => opened
  | fuel + 1, r, opened, c :: rest =>
    openedLoop env beg fuel (r.step env beg c rest).1 (openedNext r opened c)
      (r.step env beg c rest).2

/-- **The moments of a load**, piece by piece. -/
def moments (env : Env F σ) : List (List UInt8) → Reader F σ → List Kind → List (Moment F σ)
  | [], _, _ => []
  | str :: pieces, r, opened =>
    momentsLoop env str (3 * str.length) r opened str ++
      moments env pieces (jsonRead env str r) (openedLoop env str (3 * str.length) r opened str)

section Steps

variable {env : Env F σ} {r : Reader F σ} {c : UInt8} {beg rest : List UInt8}

/-- A space opens and closes nothing. -/
theorem openedNext_of_space (h : grnIsspace (c :: rest) ≠ 0) (opened : List Kind) :
    openedNext r opened c = opened := by
  have hne : c ≠ 0x5b ∧ c ≠ 0x7b ∧ c ≠ 0x5d ∧ c ≠ 0x7d := by
    refine ⟨?_, ?_, ?_, ?_⟩ <;> (rintro rfl; exact h rfl)
  obtain ⟨h₁, h₂, h₃, h₄⟩ := hne
  simp [openedNext, opening, closing, h₁, h₂, h₃, h₄]

/-- A change of scalars only. -/
def KeepsKinds (f : Entry F → Entry F) : Prop :=
  (∀ e, (f e).size = e.size) ∧ ∀ kind size, f (Kind.entry kind size) = kind.entry size

theorem keepsKinds_put (bytes : List UInt8) : KeepsKinds (Entry.put bytes : Entry F → Entry F) := by
  refine ⟨fun e => ?_, fun kind size => ?_⟩
  · rcases e with ⟨_ | _ | _ | _ | _ | _⟩ | size | size <;> rfl
  · cases kind <;> rfl

theorem keepsKinds_convert (f : List UInt8 → Scalar F) : KeepsKinds (Entry.convert f) := by
  refine ⟨fun e => ?_, fun kind size => ?_⟩
  · rcases e with ⟨_ | _ | _ | _ | _ | _⟩ | size | size <;> rfl
  · cases kind <;> rfl

theorem keepsKinds_id : KeepsKinds (id : Entry F → Entry F) := ⟨fun _ => rfl, fun _ _ => rfl⟩

/-- **What a step does** to the array of values and to the level. -/
inductive Does (env : Env F σ) (r : Reader F σ) (c : UInt8) (r' : Reader F σ) : Prop
  | keeps (f : Entry F → Entry F) (last : ℕ) (hf : KeepsKinds f)
      (hvalues : r'.store.values = r.store.values.modify last f)
      (hsize : r'.store.valuesSize = r.store.valuesSize) (hlevel : r'.store.level = r.store.level)
      (hopened : ∀ opened, openedNext r opened c = opened)
      (hstat : r'.stat = r.stat ∨ r'.stat = .ended ∨ r.stat ≠ .begin ∧ r.stat ≠ .ended)
  | adds (e : Entry F) (he : e.size = 0) (hstore : r'.store = r.store.add e)
    (hstat : r.stat = .token)
      (hopened : ∀ opened, openedNext r opened c = opened)
  | opens (kind : Kind) (hkind : opening r c = some kind) (hr : r' = r.openContainer kind)
  | closes (kind : Kind) (hkind : closing r c = some kind) (hr : r' = r.close env kind)

/-- Nothing happens to the array. -/
theorem Does.nothing {r' : Reader F σ} (hstore : r'.store = r.store)
    (hopened : ∀ opened, openedNext r opened c = opened)
    (hstat : r'.stat = r.stat ∨ r'.stat = .ended ∨ r.stat ≠ .begin ∧ r.stat ≠ .ended) :
    Does env r c r' := by
  refine .keeps id 0 keepsKinds_id ?_ (hstore ▸ rfl) (hstore ▸ rfl) hopened hstat
  rw [hstore]
  exact (List.modify_id 0 _).symm

/-- In any other state than the first one and `GRN_LOADER_TOKEN` nothing is opened or closed. -/
theorem openedNext_of_stat (hbegin : r.stat ≠ .begin) (htoken : r.stat ≠ .token)
    (opened : List Kind) :
    openedNext r opened c = opened := by
  simp only [openedNext, opening, closing, hbegin, htoken, or_self, if_false, Option.isSome_none,
    Bool.false_eq_true]

theorem openedNext_of_byte (h : c ≠ 0x5b ∧ c ≠ 0x7b ∧ c ≠ 0x5d ∧ c ≠ 0x7d) (opened : List Kind) :
    openedNext r opened c = opened := by
  obtain ⟨h₁, h₂, h₃, h₄⟩ := h
  simp only [openedNext, opening, closing, h₁, h₂, h₃, h₄, if_false, ite_self, Option.isSome_none,
    Bool.false_eq_true]

theorem does_stepBegin (hstat : r.stat = .begin) :
    Does env r c (r.stepBegin env beg c rest).1 := by
  rw [Reader.stepBegin]
  by_cases hspace : grnIsspace (c :: rest) ≠ 0
  · rw [if_pos hspace]
    exact .nothing rfl (openedNext_of_space hspace) (.inl rfl)
  · rw [if_neg hspace]
    by_cases hbracket : c = 0x5b
    · rw [if_pos hbracket]
      exact .opens .bracket (by rw [opening, if_pos (.inl hstat), if_pos hbracket]) rfl
    · rw [if_neg hbracket]
      by_cases hbrace : c = 0x7b
      · rw [if_pos hbrace]
        exact .opens .brace
          (by rw [opening, if_pos (.inl hstat), if_neg hbracket, if_pos hbrace]) rfl
      · rw [if_neg hbrace]
        refine .keeps id 0 keepsKinds_id (List.modify_id 0 _).symm rfl rfl (fun opened => ?_)
          (.inr (.inl rfl))
        have hopening : opening r c = none := by
          rw [opening, if_pos (.inl hstat), if_neg hbracket, if_neg hbrace]
        have hclosing : closing r c = none := by
          rw [closing, if_neg (by rw [hstat]; decide)]
        rw [openedNext, hopening, hclosing]
        rfl

theorem does_stepToken (hstat : r.stat = .token) : Does env r c (r.stepToken env c rest).1 := by
  have hin : r.stat ≠ .begin ∧ r.stat ≠ .ended := by
    rw [hstat]
    decide
  rw [Reader.stepToken]
  by_cases hspace : grnIsspace (c :: rest) ≠ 0
  · rw [if_pos hspace]
    exact .nothing rfl (openedNext_of_space hspace) (.inl rfl)
  rw [if_neg hspace]
  by_cases hquote : c = 0x22
  · rw [if_pos hquote]
    exact .adds _ rfl rfl hstat (openedNext_of_byte (by subst hquote; decide))
  rw [if_neg hquote]
  by_cases hbracket : c = 0x5b
  · rw [if_pos hbracket]
    exact .opens .bracket (by rw [opening, if_pos (.inr hstat), if_pos hbracket]) rfl
  rw [if_neg hbracket]
  by_cases hbrace : c = 0x7b
  · rw [if_pos hbrace]
    exact .opens .brace (by rw [opening, if_pos (.inr hstat), if_neg hbracket, if_pos hbrace]) rfl
  rw [if_neg hbrace]
  by_cases hcolon : c = 0x3a
  · rw [if_pos hcolon]
    exact .nothing rfl (openedNext_of_byte (by subst hcolon; decide)) (.inl rfl)
  rw [if_neg hcolon]
  by_cases hcomma : c = 0x2c
  · rw [if_pos hcomma]
    exact .nothing rfl (openedNext_of_byte (by subst hcomma; decide)) (.inl rfl)
  rw [if_neg hcomma]
  by_cases hcloseBracket : c = 0x5d
  · rw [if_pos hcloseBracket]
    exact .closes .bracket (by rw [closing, if_pos hstat, if_pos hcloseBracket]) rfl
  rw [if_neg hcloseBracket]
  by_cases hcloseBrace : c = 0x7d
  · rw [if_pos hcloseBrace]
    exact .closes .brace
      (by rw [closing, if_pos hstat, if_neg hcloseBracket, if_pos hcloseBrace]) rfl
  rw [if_neg hcloseBrace]
  have hopened : ∀ opened, openedNext r opened c = opened :=
    openedNext_of_byte ⟨hbracket, hbrace, hcloseBracket, hcloseBrace⟩
  by_cases hnumber : c = 0x2b ∨ c = 0x2d ∨ isDigit c = true
  · rw [if_pos hnumber]
    exact .adds _ rfl rfl hstat hopened
  rw [if_neg hnumber]
  by_cases halpha : isAlpha c = true
  · rw [if_pos halpha]
    exact .adds _ rfl rfl hstat hopened
  rw [if_neg halpha]
  by_cases hchar : grnStrCharlenUtf8 (c :: rest) ≠ 0
  · rw [if_pos hchar]
    exact .nothing rfl hopened (.inl rfl)
  rw [if_neg hchar]
  exact .nothing rfl hopened (.inl rfl)

section Texts

variable (hbegin : r.stat ≠ .begin) (htoken : r.stat ≠ .token) (hended : r.stat ≠ .ended)
include hbegin htoken hended

/-- The text of the last entry is changed. -/
theorem Does.put {r' : Reader F σ} (bytes : List UInt8) (hstore : r'.store = (r.put bytes).store) :
    Does env r c r' :=
  .keeps _ r.last (keepsKinds_put bytes) (hstore ▸ rfl) (hstore ▸ rfl) (hstore ▸ rfl)
    (openedNext_of_stat hbegin htoken) (.inr (.inr ⟨hbegin, hended⟩))

theorem Does.same {r' : Reader F σ} (hstore : r'.store = r.store) : Does env r c r' :=
  .nothing hstore (openedNext_of_stat hbegin htoken) (.inr (.inr ⟨hbegin, hended⟩))

theorem does_stepSymbol : Does env r c (r.stepSymbol c rest).1 := by
  rw [Reader.stepSymbol]
  split_ifs
  · exact .put hbegin htoken hended _ rfl
  · exact .keeps _ r.last (keepsKinds_convert _) rfl rfl rfl (openedNext_of_stat hbegin htoken)
      (.inr (.inr ⟨hbegin, hended⟩))

theorem does_stepNumber : Does env r c (r.stepNumber env c rest).1 := by
  rw [Reader.stepNumber]
  split_ifs
  · exact .put hbegin htoken hended _ rfl
  · exact .keeps _ r.last (keepsKinds_convert _) rfl rfl rfl (openedNext_of_stat hbegin htoken)
      (.inr (.inr ⟨hbegin, hended⟩))

theorem does_stepString : Does env r c (r.stepString c rest).1 := by
  rw [Reader.stepString]
  split_ifs
  · exact .same hbegin htoken hended rfl
  · exact .same hbegin htoken hended rfl
  · exact .put hbegin htoken hended _ rfl
  · exact .same hbegin htoken hended rfl

theorem does_stepStringEsc : Does env r c (r.stepStringEsc c) := by
  rw [Reader.stepStringEsc]
  split_ifs
  · exact .put hbegin htoken hended _ rfl
  · exact .put hbegin htoken hended _ rfl
  · exact .put hbegin htoken hended _ rfl
  · exact .put hbegin htoken hended _ rfl
  · exact .put hbegin htoken hended _ rfl
  · exact .same hbegin htoken hended rfl
  · exact .put hbegin htoken hended _ rfl

theorem does_stepUnicode3 : Does env r c (r.stepUnicode3 c) := by
  simp only [Reader.stepUnicode3]
  split_ifs
  · exact .same hbegin htoken hended rfl
  · exact .put hbegin htoken hended _ rfl
  · exact .put hbegin htoken hended _ rfl

end Texts

/-- **What a step does.** -/
theorem does_step : Does env r c (r.step env beg c rest).1 := by
  rw [Reader.step]
  cases hstat : r.stat with
  | begin => exact does_stepBegin hstat
  | token => exact does_stepToken hstat
  | string => exact does_stepString (by simp [hstat]) (by simp [hstat]) (by simp [hstat])
  | symbol => exact does_stepSymbol (by simp [hstat]) (by simp [hstat]) (by simp [hstat])
  | number => exact does_stepNumber (by simp [hstat]) (by simp [hstat]) (by simp [hstat])
  | stringEsc => exact does_stepStringEsc (by simp [hstat]) (by simp [hstat]) (by simp [hstat])
  | unicode0 => exact .same (by simp [hstat]) (by simp [hstat]) (by simp [hstat]) rfl
  | unicode1 => exact .same (by simp [hstat]) (by simp [hstat]) (by simp [hstat]) rfl
  | unicode2 => exact .same (by simp [hstat]) (by simp [hstat]) (by simp [hstat]) rfl
  | unicode3 => exact does_stepUnicode3 (by simp [hstat]) (by simp [hstat]) (by simp [hstat])
  | ended => exact .nothing rfl (openedNext_of_stat (by simp [hstat]) (by simp [hstat])) (.inl rfl)

/-- **An array or object is open** when the reader is not before the text or behind it. -/
def Nested (r : Reader F σ) : Prop := r.stat ≠ .begin → r.stat ≠ .ended → r.store.level ≠ []

theorem nested_afterValue (r : Reader F σ) : Nested r.afterValue := by
  intro _ hended hlevel
  apply hended
  have hlevel : r.store.level = [] := hlevel
  rw [Reader.afterValue, if_pos hlevel]

theorem nested_close (r : Reader F σ) (kind : Kind) : Nested (r.close env kind) := by
  rw [Reader.close]
  split_ifs
  · exact fun _ h => absurd rfl h
  · exact nested_afterValue _

/-- The level has a position at every closing byte. -/
theorem Nested.step (h : Nested r) {r' : Reader F σ} (hdoes : Does env r c r') : Nested r' := by
  cases hdoes with
  | keeps f last hf hvalues hsize hlevel hopened hstat =>
    intro hbegin hended
    rw [hlevel]
    rcases hstat with heq | heq | ⟨hin, hin'⟩
    · exact h (heq ▸ hbegin) (heq ▸ hended)
    · exact absurd heq hended
    · exact h hin hin'
  | adds e he hstore hstat hopened =>
    intro _ _
    rw [hstore]
    exact h (by simp [hstat]) (by simp [hstat])
  | opens kind hkind hr =>
    intro _ _
    rw [hr]
    exact List.cons_ne_nil _ _
  | closes kind hkind hr =>
    rw [hr]
    exact nested_close r kind

theorem token_of_closing {kind : Kind} (h : closing r c = some kind) : r.stat = .token := by
  rw [closing] at h
  by_contra hne
  rw [if_neg hne] at h
  cases h

end Steps

/-! ## Runs -/

/-- `bracket_close` and `brace_close` make a record of an array or object. -/
def Builds (a : Answers) (depth : ℕ) : Kind → Prop
  | .bracket => depth ≠ 0 ∧ a.table = true ∧ a.columnsStatus = .set
  | .brace => a.table = true

/-- **What the text has to keep to**: the array of values is not too long; what is closed was opened
so; and when a record is made, no object that ends with the last entry has a name without a value,
and the value of `_key` is not looked for behind the values. -/
structure Meets (env : Env F σ) (answers : σ → Answers) (x : Moment F σ) : Prop where
  size : x.reader.store.valuesSize ≤ maxEntries
  kind : ∀ kind ∈ closing x.reader x.byte, x.opened.head? = some kind
  even : ∀ kind ∈ closing x.reader x.byte, ∀ start level, x.reader.store.level = start :: level →
    level.length ≤ env.emitLevel → Builds (answers x.reader.store.loader) level.length kind →
    ∀ p size, start ≤ p → (sized x.reader.store start)[p]? = some (.openBrace size) →
      nextAt (sized x.reader.store start) p = x.reader.store.valuesSize →
      (heads (sized x.reader.store start) p).length % 2 = 0
  key : .bracket ∈ closing x.reader x.byte → ∀ start level, x.reader.store.level = start :: level →
    level.length ≤ env.emitLevel → Builds (answers x.reader.store.loader) level.length .bracket →
    KeyInside (sized x.reader.store start) (answers x.reader.store.loader) start

/-- **The closing byte stays inside**: the entry whose position is popped has its kind, and if a
record is made of it, every entry that is read is in front of `values_size`. -/
def Safe (env : Env F σ) (answers : σ → Answers) (x : Moment F σ) : Prop :=
  ∀ kind ∈ closing x.reader x.byte, ∃ start level, x.reader.store.level = start :: level ∧
    start < x.reader.store.valuesSize ∧
    (∃ size, x.reader.store.values[start]? = some (kind.entry size)) ∧
    (level.length ≤ env.emitLevel →
      Below x.reader.store.valuesSize (closeReads (sized x.reader.store start)
        (answers x.reader.store.loader) kind level.length start))

section Runs

variable {env : Env F σ} {answers : σ → Answers} {x : Moment F σ} {r : Reader F σ} {c : UInt8}
  {beg rest str : List UInt8}

theorem openedNext_of_opening (h : opening r c = some kind) (opened : List Kind) :
    openedNext r opened c = kind :: opened := by
  rw [openedNext, h]

theorem openedNext_of_closing (h : closing r c = some kind) (outer : List Kind) :
    openedNext r (kind :: outer) c = outer := by
  have hbyte : c = 0x5d ∨ c = 0x7d := by
    rw [closing] at h
    split_ifs at h with _ h₁ h₂
    · exact .inl h₁
    · exact .inr h₂
  have hopening : opening r c = none := by
    rw [opening]
    rcases hbyte with rfl | rfl
    · exact ite_self _
    · exact ite_self _
  rw [openedNext, hopening, h]
  rfl

/-- **The frames are kept** by a step, as long as the array of values does not get too long. -/
theorem Framed.step (h : Framed r.store opened) (hmeets : Meets env answers ⟨r, opened, c⟩)
    {r' : Reader F σ} (hdoes : Does env r c r') (hnested : Nested r)
    (hmax : r'.store.valuesSize ≤ maxEntries) : Framed r'.store (openedNext r opened c) := by
  have hsize : r.store.valuesSize ≤ maxEntries := hmeets.size
  have hlt : (r.store.valuesSize + 1) % 2 ^ 32 ≤ maxEntries → r.store.valuesSize < maxEntries := by
    intro hadd
    simp only [maxEntries] at hadd hsize ⊢
    omega
  cases hdoes with
  | keeps f last hf hvalues hsize' hlevel hopened hstat =>
    obtain ⟨hstands, hlength⟩ := h.modify hf.1 hf.2 last
    rw [hopened]
    refine ⟨?_, ?_⟩
    · rw [hvalues, hsize', hlevel]
      exact hstands
    · rw [hvalues, hsize']
      exact hlength
  | adds e he hstore hstat hopened =>
    rw [hstore] at hmax
    rw [hopened, hstore]
    exact h.add (hnested (by simp [hstat]) (by simp [hstat])) (hlt hmax) he
  | opens kind hkind hr =>
    rw [hr] at hmax
    rw [openedNext_of_opening hkind, hr]
    exact h.openContainer (hlt hmax) kind
  | closes kind hkind hr =>
    have hhead : opened.head? = some kind := hmeets.kind kind hkind
    obtain ⟨outer, rfl⟩ : ∃ outer, opened = kind :: outer := by
      cases opened with
      | nil => cases hhead
      | cons k outer => exact ⟨outer, by rw [Option.some.inj hhead]⟩
    rw [openedNext_of_closing hkind, hr]
    have hstore : (r.close env kind).store = r.store.close env kind := by
      rw [Reader.close]
      split_ifs <;> rfl
    rw [hstore]
    exact h.close hsize kind

/-- **A closing byte stays inside** when the frames stand and the text keeps to what it has to. -/
theorem Framed.safe (h : Framed r.store opened) (hnested : Nested r)
    (hmeets : Meets env answers ⟨r, opened, c⟩) : Safe env answers ⟨r, opened, c⟩ := by
  intro kind hkind
  have hstat : r.stat = .token := token_of_closing hkind
  obtain ⟨start, level, hlevel⟩ := List.exists_cons_of_ne_nil
    (hnested (by simp [hstat]) (by simp [hstat]))
  have hhead : opened.head? = some kind := hmeets.kind kind hkind
  obtain ⟨outer, rfl⟩ : ∃ outer, opened = kind :: outer := by
    cases opened with
    | nil => cases hhead
    | cons k outer => exact ⟨outer, by rw [Option.some.inj hhead]⟩
  have hstands := h.stands
  rw [hlevel] at hstands
  obtain ⟨size, kind', outer', heq, -, hlt, hentry, -⟩ := hstands.of_cons_level
  obtain ⟨rfl, rfl⟩ := List.cons.inj heq
  refine ⟨start, level, hlevel, hlt, ⟨size, hentry⟩, fun hemit => ?_⟩
  obtain ⟨-, -, ⟨size', hsized⟩, hnext, hlaid⟩ := sized_laid h hmeets.size hlevel
  change Below r.store.valuesSize
    (closeReads (sized r.store start) (answers r.store.loader) kind level.length start)
  have hreaches : ∀ p, start ≤ p → p < r.store.valuesSize →
      Reaches (sized r.store start) (p + 1) (nextAt (sized r.store start) p) ∧
        nextAt (sized r.store start) p ≤ r.store.valuesSize := by
    intro p hb hn
    rcases Nat.lt_or_eq_of_le hb with hp | rfl
    · exact hlaid.2 p hp hn
    · rw [hnext]
      exact ⟨hlaid.1, Nat.le_refl _⟩
  have hinside : Builds (answers r.store.loader) level.length kind →
      Inside (sized r.store start) start r.store.valuesSize := fun hbuilds =>
    ⟨hreaches, hmeets.even kind hkind start level hlevel hemit hbuilds⟩
  cases kind with
  | bracket =>
    rw [closeReads]
    by_cases hno : level.length = 0 ∨ (answers r.store.loader).table = false ∨
        (answers r.store.loader).columnsStatus = .broken
    · rw [if_pos hno]
      exact .cons hlt .nil
    · rw [if_neg hno]
      rw [not_or, not_or] at hno
      obtain ⟨hdepth, htable, hbroken⟩ := hno
      by_cases hunset : (answers r.store.loader).columnsStatus = .unset
      · rw [if_pos hunset]
        refine .cons hlt (below_visitAll fun e he => ⟨?_, .nil⟩)
        exact hnext ▸ (Load.lt_of_mem_heads he).2
      · rw [if_neg hunset]
        have hset : (answers r.store.loader).columnsStatus = .set := by
          cases hstatus : (answers r.store.loader).columnsStatus with
          | unset => exact absurd hstatus hunset
          | set => rfl
          | broken => exact absurd hstatus hbroken
        have hbuilds : Builds (answers r.store.loader) level.length .bracket :=
          ⟨hdepth, Bool.not_eq_false _ ▸ htable, hset⟩
        exact (hinside hbuilds).below_bracketAddRecordReads (Nat.le_refl _) hlt
          (hmeets.key hkind start level hlevel hemit hbuilds)
  | brace =>
    rw [closeReads]
    by_cases htable : (answers r.store.loader).table = true
    · rw [if_pos htable]
      exact .cons hlt
        ((hinside htable).below_braceAddRecordReads (Nat.le_refl _) hlt hsized)
    · rw [if_neg htable]
      exact .cons hlt .nil

/-- A property of the reader that every step keeps holds at every moment. -/
theorem forall_momentsLoop {P : Reader F σ → Prop}
    (hstep : ∀ r c rest, P r → P (r.step env beg c rest).1) {fuel : ℕ} (h : P r) :
    (∀ x ∈ momentsLoop env beg fuel r opened str, P x.reader) ∧
      P (jsonReadLoop env beg fuel r str) := by
  induction fuel generalizing r opened str with
  | zero => exact ⟨fun _ hx => (nomatch hx), h⟩
  | succ fuel ih =>
    cases str with
    | nil => exact ⟨fun _ hx => (nomatch hx), h⟩
    | cons c rest =>
      obtain ⟨hmoments, hend⟩ := @ih (openedNext r opened c) _ (r.step env beg c rest).2
        (hstep r c rest h)
      refine ⟨fun x hx => ?_, hend⟩
      rcases List.mem_cons.mp hx with rfl | hx
      · exact h
      · exact hmoments x hx

theorem forall_moments {P : Reader F σ → Prop}
    (hstep : ∀ beg r c rest, P r → P (r.step env beg c rest).1) {pieces : List (List UInt8)}
    (h : P r) : ∀ x ∈ moments env pieces r opened, P x.reader := by
  induction pieces generalizing r opened with
  | nil => exact fun _ hx => nomatch hx
  | cons str pieces ih =>
    obtain ⟨hmoments, hend⟩ := @forall_momentsLoop F σ opened env r str str P (hstep str)
      (3 * str.length) h
    intro x hx
    rcases List.mem_append.mp hx with hx | hx
    · exact hmoments x hx
    · exact ih hend x hx

/-- The frames stand, unless the array of values is too long. -/
def FramedBelow (r : Reader F σ) (opened : List Kind) : Prop :=
  Nested r ∧ (r.store.valuesSize ≤ maxEntries → Framed r.store opened)

theorem FramedBelow.step (h : FramedBelow r opened) (hmeets : Meets env answers ⟨r, opened, c⟩) :
    FramedBelow (r.step env beg c rest).1 (openedNext r opened c) :=
  ⟨h.1.step does_step, (h.2 hmeets.size).step hmeets does_step h.1⟩

/-- **The frames stand as long as the text keeps to what it has to**, and behind it. -/
theorem framedBelow_momentsLoop {fuel n : ℕ} (h : FramedBelow r opened)
    (hmeets : ∀ x ∈ (momentsLoop env beg fuel r opened str).take n, Meets env answers x) :
    (∀ x ∈ (momentsLoop env beg fuel r opened str).take n, FramedBelow x.reader x.opened) ∧
      ((momentsLoop env beg fuel r opened str).length ≤ n →
        FramedBelow (jsonReadLoop env beg fuel r str) (openedLoop env beg fuel r opened str)) := by
  induction fuel generalizing r opened str n with
  | zero => exact ⟨fun x hx => by simp [momentsLoop] at hx, fun _ => h⟩
  | succ fuel ih =>
    cases str with
    | nil => exact ⟨fun x hx => by simp [momentsLoop] at hx, fun _ => h⟩
    | cons c rest =>
      rw [momentsLoop] at hmeets ⊢
      cases n with
      | zero => exact ⟨fun _ hx => (nomatch hx), fun hlen => absurd hlen (Nat.not_succ_le_zero _)⟩
      | succ n =>
        rw [List.take_succ_cons] at hmeets ⊢
        have hnext : FramedBelow (r.step env beg c rest).1 (openedNext r opened c) :=
          h.step (hmeets _ List.mem_cons_self)
        obtain ⟨hmoments, hend⟩ := ih hnext fun x hx => hmeets x (List.mem_cons_of_mem _ hx)
        refine ⟨fun x hx => ?_, fun hlen => hend (Nat.le_of_succ_le_succ hlen)⟩
        rcases List.mem_cons.mp hx with rfl | hx
        · exact h
        · exact hmoments x hx

theorem framedBelow_moments {pieces : List (List UInt8)} {n : ℕ} (h : FramedBelow r opened)
    (hmeets : ∀ x ∈ (moments env pieces r opened).take n, Meets env answers x) :
    ∀ x ∈ (moments env pieces r opened).take n, FramedBelow x.reader x.opened := by
  induction pieces generalizing r opened n with
  | nil => exact fun x hx => by simp [moments] at hx
  | cons str pieces ih =>
    rw [moments, List.take_append] at hmeets ⊢
    obtain ⟨hmoments, hend⟩ := framedBelow_momentsLoop h fun x hx =>
      hmeets x (List.mem_append_left _ hx)
    intro x hx
    rcases List.mem_append.mp hx with hx | hx
    · exact hmoments x hx
    · by_cases hlen : (momentsLoop env str (3 * str.length) r opened str).length ≤ n
      · exact ih (hend hlen) (fun x hx => hmeets x (List.mem_append_right _ hx)) x hx
      · rw [Nat.sub_eq_zero_of_le (by omega), List.take_zero] at hx
        cases hx

end Runs

/-! ## Texts that do not keep to it -/

/-- A loader that makes records at the first two levels, in a table with a key. -/
def plainEnv : Env ℕ Unit where
  emitLevel := 1
  strtod := ⟨fun _ => 0, fun _ => 0, fun _ => false⟩
  close := fun _ _ _ loader => loader
  invalid := fun _ loader => loader
  cancelled := fun _ => false

def plainAnswers : Unit → Answers := fun _ =>
  ⟨true, .unset, 0, none, none, fun _ => false, fun _ => none, fun _ => false, fun _ => false⟩

end Groonga.Load
