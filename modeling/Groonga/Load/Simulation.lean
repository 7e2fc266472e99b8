import Groonga.Load.Reader

/-!
# The reader on valid texts

The reader takes a valid text character by character. Where a piece ends between two
characters makes no difference, since all it does with a character depends on the bytes of
this character and on the loader. The effect of a value on the array of values is that of the
tree of the text: an entry for each scalar and name, and one for each array and object, which
gets its size when it is closed.

A number or symbol is converted when the next byte is read. What there would be then is the
settled reader.
-/

namespace Groonga.Load

open Lib.JsonText

variable {F σ : Type} {env : Env F σ}

/-! ## The effect of a tree -/

/-- Names and strings. -/
def addText (s : List StringChar) (st : Store F σ) : Store F σ :=
  st.add (.scalar (.text (decodeString s)))

mutual

/-- The effect of a value on the array of values. -/
def execValue (env : Env F σ) : Value → Store F σ → Store F σ
  | .null, st => st.add (.scalar .void)
  | .true, st => st.add (.scalar (.bool Bool.true))
  | .false, st => st.add (.scalar (.bool Bool.false))
  | .number n, st => st.add (.scalar (convertNumber env.strtod n.bytes))
  | .string s, st => addText s st
  | .array _ items, st => (execItems env items (st.openContainer .bracket)).close env .bracket
  | .object _ members, st => (execMembers env members (st.openContainer .brace)).close env .brace

def execItems (env : Env F σ) : Items → Store F σ → Store F σ
  | .nil, st => st
  | .cons _ v _ items, st => execItems env items (execValue env v st)

def execMembers (env : Env F σ) : Members → Store F σ → Store F σ
  | .nil, st => st
  | .cons _ name _ _ v _ members, st => execMembers env members (execValue env v (addText name st))

end

@[simp] theorem Store.level_add (e : Entry F) (st : Store F σ) : (st.add e).level = st.level := rfl

theorem Store.level_close {kind : Kind} {st : Store F σ} {start : ℕ} {level : List ℕ}
    (h : st.level = start :: level) : (st.close env kind).level = level := by
  unfold Store.close
  rw [h]
  simp only
  split_ifs <;> rfl

mutual

theorem level_execValue (v : Value) (st : Store F σ) : (execValue env v st).level = st.level := by
  cases v with
  | null => rfl
  | true => rfl
  | false => rfl
  | number n => rfl
  | string s => rfl
  | array inside items =>
    rw [execValue]
    exact Store.level_close (level_execItems items _)
  | object inside members =>
    rw [execValue]
    exact Store.level_close (level_execMembers members _)

theorem level_execItems (items : Items) (st : Store F σ) : (execItems env items st).level = st.level := by
  cases items with
  | nil => rfl
  | cons before v after items =>
    rw [execItems, level_execItems items, level_execValue v]

theorem level_execMembers (members : Members) (st : Store F σ) :
    (execMembers env members st).level = st.level := by
  cases members with
  | nil => rfl
  | cons before name behind inner v after members =>
    rw [execMembers, level_execMembers members, level_execValue v]
    rfl

end

/-! ## Characters -/

/-- The reader goes from `r` to `r'` with the bytes `e`, whatever comes next. -/
def Reads (env : Env F σ) (r : Reader F σ) (e : List UInt8) (r' : Reader F σ) : Prop :=
  ∀ beg rest fuel, 3 * (e.length + rest.length) ≤ fuel →
    ∃ fuel', 3 * rest.length ≤ fuel' ∧
      jsonReadLoop env beg fuel r (e ++ rest) = jsonReadLoop env beg fuel' r' rest

/-- The request was cancelled. -/
def Cancelled (env : Env F σ) (r : Reader F σ) : Prop :=
  r.stat = .ended ∧ env.cancelled r.store.loader = true

/-- The characters of a text, one after the other. A character of several bytes is in a
string, if the request was not cancelled. -/
inductive Path (env : Env F σ) : Reader F σ → List (List UInt8) → Reader F σ → Prop
  | nil (r : Reader F σ) : Path env r [] r
  | cons {r r' r'' : Reader F σ} {e : List UInt8} {es : List (List UInt8)} (step : Reads env r e r')
      (inString : e.length = 1 ∨ r.stat = .string ∨ Cancelled env r) (path : Path env r' es r'') :
      Path env r (e :: es) r''

theorem Path.append {r r' r'' : Reader F σ} {es es' : List (List UInt8)} (h : Path env r es r')
    (h' : Path env r' es' r'') : Path env r (es ++ es') r'' := by
  induction h with
  | nil r => exact h'
  | cons step inString _ ih => exact .cons step inString (ih h')

theorem Path.one {r r' : Reader F σ} {c : UInt8} (h : Reads env r [c] r') : Path env r [[c]] r' :=
  .cons h (.inl rfl) (.nil r')

/-- One iteration reads the character. -/
theorem reads_of_step {r r' : Reader F σ} {c : UInt8} {t : List UInt8}
    (h : ∀ beg rest, r.step env beg c (t ++ rest) = (r', rest)) : Reads env r (c :: t) r' := by
  intro beg rest fuel hfuel
  rw [List.length_cons] at hfuel
  obtain ⟨fuel, rfl⟩ : ∃ n, fuel = n + 1 := ⟨fuel - 1, by omega⟩
  refine ⟨fuel, by omega, ?_⟩
  rw [List.cons_append, jsonReadLoop, h]

/-- The first iteration changes the state only. -/
theorem reads_of_step_step {r r₁ r' : Reader F σ} {c : UInt8}
    (h₁ : ∀ beg rest, r.step env beg c rest = (r₁, c :: rest))
    (h : ∀ beg rest, r₁.step env beg c rest = (r', rest)) : Reads env r [c] r' := by
  intro beg rest fuel hfuel
  rw [List.length_singleton] at hfuel
  obtain ⟨fuel, rfl⟩ : ∃ n, fuel = n + 2 := ⟨fuel - 2, by omega⟩
  refine ⟨fuel, by omega, ?_⟩
  rw [List.singleton_append, jsonReadLoop, h₁, jsonReadLoop, h]

/-- Nothing is read behind the end. -/
theorem reads_of_ended {r : Reader F σ} {e : List UInt8} (h : r.stat = .ended) : Reads env r e r := by
  have hstay : ∀ beg rest fuel, jsonReadLoop env beg fuel r rest = r := by
    intro beg rest fuel
    match fuel, rest with
    | 0, _ => rfl
    | _ + 1, [] => rfl
    | fuel + 1, c :: rest =>
      have hstep : r.step env beg c rest = (r, []) := by simp only [Reader.step, h]
      rw [jsonReadLoop, hstep]
      cases fuel <;> rfl
  intro beg rest fuel _
  exact ⟨3 * rest.length, Nat.le_refl _, by rw [hstay, hstay]⟩

theorem Path.of_ended {r : Reader F σ} {es : List (List UInt8)} (h : r.stat = .ended)
    (hes : ∀ e ∈ es, e.length = 1 ∨ Cancelled env r) : Path env r es r := by
  induction es with
  | nil => exact .nil r
  | cons e es ih =>
    have hrest := ih fun e he => hes e (List.mem_cons_of_mem _ he)
    rcases hes e List.mem_cons_self with hone | hcancelled
    · exact .cons (reads_of_ended h) (.inl hone) hrest
    · exact .cons (reads_of_ended h) (.inr (.inr hcancelled)) hrest

/-! ## Settled readers -/

/-- The reader behind the number or symbol that is being read. -/
def settle (env : Env F σ) (r : Reader F σ) : Reader F σ :=
  match r.stat with
  | .symbol => (r.modifyLast (Entry.convert convertSymbol)).afterValue
  | .number => (r.modifyLast (Entry.convert (convertNumber env.strtod))).afterValue
  | _ => r

theorem settle_of_token {r : Reader F σ} (h : r.stat = .token) : settle env r = r := by
  simp only [settle, h]

/-- The reader waits for a token, with this array of values. -/
def At (st : Store F σ) (r : Reader F σ) : Prop := r.stat = .token ∧ r.store = st

/-- The characters lead to a settled reader of this kind, if the request is not cancelled. -/
def Leads (env : Env F σ) (r : Reader F σ) (es : List (List UInt8)) (P : Reader F σ → Prop) : Prop :=
  ∃ r', Path env r es r' ∧ (P (settle env r') ∨ Cancelled env r')

theorem Leads.bind {r : Reader F σ} {es es' : List (List UInt8)} {P Q : Reader F σ → Prop}
    (h : Leads env r es P) (h' : ∀ r', P (settle env r') → Leads env r' es' Q) :
    Leads env r (es ++ es') Q := by
  obtain ⟨r₁, hpath, hP | hcancelled⟩ := h
  · obtain ⟨r₂, hpath', hQ⟩ := h' r₁ hP
    exact ⟨r₂, hpath.append hpath', hQ⟩
  · exact ⟨r₁, hpath.append (.of_ended hcancelled.1 fun _ _ => .inr hcancelled), .inr hcancelled⟩

theorem Path.leads {r r' : Reader F σ} {es es' : List (List UInt8)} {P : Reader F σ → Prop}
    (h : Path env r es r') (h' : Leads env r' es' P) : Leads env r (es ++ es') P := by
  obtain ⟨r'', hpath, hP⟩ := h'
  exact ⟨r'', h.append hpath, hP⟩

theorem leads_nil {r : Reader F σ} {P : Reader F σ → Prop} (h : P (settle env r)) :
    Leads env r [] P := ⟨r, .nil r, .inl h⟩

/-- A byte that ends a number or symbol. -/
def IsDelim (c : UInt8) : Prop := isNumber c = false ∧ isAlpha c = false ∧ isDigit c = false

/-- Such a byte first settles the reader. -/
theorem step_delim {r : Reader F σ} {c : UInt8} (hc : IsDelim c)
    (hstat : r.stat = .symbol ∨ r.stat = .number) (beg rest : List UInt8) :
    r.step env beg c rest = (settle env r, c :: rest) := by
  obtain ⟨hnumber, halpha, hdigit⟩ := hc
  rcases hstat with h | h
  · simp [Reader.step, settle, h, Reader.stepSymbol, halpha, hdigit]
  · simp [Reader.step, settle, h, Reader.stepNumber, hnumber]

/-- What a byte does to a settled reader, it does to the reader. -/
theorem reads_of_settle {r r' : Reader F σ} {c : UInt8} (hc : IsDelim c)
    (h : ∀ beg rest, (settle env r).step env beg c rest = (r', rest)) : Reads env r [c] r' := by
  by_cases hstat : r.stat = .symbol ∨ r.stat = .number
  · exact reads_of_step_step (step_delim hc hstat) h
  · have hsettle : settle env r = r := by
      unfold settle
      split
      · next h => exact absurd (.inl h) hstat
      · next h => exact absurd (.inr h) hstat
      · rfl
    rw [hsettle] at h
    exact reads_of_step h

/-- A space, a comma or a colon. -/
def IsSeparator (c : UInt8) : Prop :=
  c = 0x20 ∨ c = 0x09 ∨ c = 0x0a ∨ c = 0x0d ∨ c = 0x2c ∨ c = 0x3a

theorem reads_separator {r : Reader F σ} {c : UInt8} (hc : IsSeparator c)
    (htoken : (settle env r).stat = .token) : Reads env r [c] (settle env r) := by
  refine reads_of_settle ?_ fun beg rest => ?_
  · rcases hc with rfl | rfl | rfl | rfl | rfl | rfl <;> exact ⟨by decide, by decide, by decide⟩
  · rcases hc with rfl | rfl | rfl | rfl | rfl | rfl <;>
      simp [Reader.step, htoken, Reader.stepToken, grnIsspace]

/-- Separators settle the reader, if there are any. -/
theorem path_separators {r : Reader F σ} {st : Store F σ} {es : List (List UInt8)}
    (hes : ∀ e ∈ es, ∃ c, IsSeparator c ∧ e = [c]) (h : At st (settle env r)) :
    ∃ r', Path env r es r' ∧ At st (settle env r') ∧ (es ≠ [] ∨ r.stat = .token → r'.stat = .token) := by
  induction es generalizing r with
  | nil => exact ⟨r, .nil r, h, by simp⟩
  | cons e es ih =>
    obtain ⟨c, hc, rfl⟩ := hes e List.mem_cons_self
    have hsettled : settle env (settle env r) = settle env r := settle_of_token h.1
    obtain ⟨r', hpath, hat, htoken⟩ := @ih (settle env r)
      (fun e he => hes e (List.mem_cons_of_mem _ he)) (by rw [hsettled]; exact h)
    exact ⟨r', .cons (reads_separator hc h.1) (.inl rfl) hpath, hat, fun _ => htoken (.inr h.1)⟩

theorem isSeparator_spaces (ws : List Space) : ∀ e ∈ spaces ws, ∃ c, IsSeparator c ∧ e = [c] := by
  intro e he
  obtain ⟨w, -, rfl⟩ := List.mem_map.mp he
  exact ⟨w.byte, by cases w <;> simp [IsSeparator, Space.byte], rfl⟩

/-! ## Scalars -/

/-- The entry at the end of the array is being written. -/
structure Writing (st : Store F σ) (e : Entry F) (r : Reader F σ) : Prop where
  store : r.store = st.add e
  last : r.last = st.place

theorem modify_set {α : Type} (l : List α) (i : ℕ) (a : α) (f : α → α) :
    (l.set i a).modify i f = l.set i (f a) := by
  apply List.ext_getElem?
  intro j
  rw [List.getElem?_modify, List.getElem?_set, List.getElem?_set]
  by_cases h : i = j
  · subst h
    by_cases hlt : i < l.length <;> simp [hlt]
  · simp [h]

theorem modify_concat {α : Type} (l : List α) (a : α) (f : α → α) :
    (l ++ [a]).modify l.length f = l ++ [f a] := by
  induction l with
  | nil => rfl
  | cons x l ih => simp [List.modify_succ_cons, ih]

theorem Store.modify_add (st : Store F σ) (e : Entry F) (f : Entry F → Entry F) :
    { st.add e with values := (st.add e).values.modify st.place f } = st.add (f e) := by
  unfold Store.add
  simp only [Store.mk.injEq, and_true]
  split_ifs with h
  · exact modify_set _ _ _ _
  · have hplace : st.place = st.values.length := by
      have : st.place ≤ st.values.length := Nat.min_le_right _ _
      omega
    rw [hplace]
    exact modify_concat _ _ _

theorem Writing.modifyLast {st : Store F σ} {e : Entry F} {r : Reader F σ} (h : Writing st e r)
    (f : Entry F → Entry F) : Writing st (f e) (r.modifyLast f) := by
  refine ⟨?_, h.last⟩
  have := st.modify_add e f
  simp only [Reader.modifyLast, h.store, h.last]
  exact this

/-- A text is being written, in this state. -/
structure InText (stat : Stat) (st : Store F σ) (text : List UInt8) (r : Reader F σ) : Prop where
  stat_eq : r.stat = stat
  writing : Writing st (.scalar (.text text)) r

theorem InText.put {stat : Stat} {st : Store F σ} {text : List UInt8} {r : Reader F σ}
    (h : InText stat st text r) (bytes : List UInt8) : InText stat st (text ++ bytes) (r.put bytes) :=
  ⟨h.stat_eq, h.writing.modifyLast (Entry.put bytes)⟩

/-- The code point of an escape is no part of the text. -/
theorem InText.unichar {stat : Stat} {st : Store F σ} {text : List UInt8} {r : Reader F σ}
    (h : InText stat st text r) (u hi : ℕ) :
    InText stat st text { r with unichar := u, unicharHi := hi } :=
  ⟨h.stat_eq, h.writing.store, h.writing.last⟩

/-- Bytes that only make the text longer. -/
theorem path_put {stat : Stat} {ok : UInt8 → Prop}
    (hstep : ∀ (r : Reader F σ) c, r.stat = stat → ok c →
      ∀ beg rest, r.step env beg c rest = (r.put [c], rest))
    {r : Reader F σ} {st : Store F σ} {text bytes : List UInt8} (hbytes : ∀ c ∈ bytes, ok c)
    (h : InText stat st text r) :
    ∃ r', Path env r (asciiChars bytes) r' ∧ InText stat st (text ++ bytes) r' := by
  induction bytes generalizing r text with
  | nil => exact ⟨r, .nil r, by simpa using h⟩
  | cons c bytes ih =>
    obtain ⟨r', hpath, htext⟩ := ih (fun c hc => hbytes c (List.mem_cons_of_mem _ hc)) (h.put [c])
    refine ⟨r', .cons (reads_of_step ?_) (.inl rfl) hpath, by simpa using htext⟩
    exact hstep r c h.stat_eq (hbytes c List.mem_cons_self)

/-- A number or symbol from its first byte on, up to where the next byte converts it. -/
theorem leads_text {stat : Stat} {ok : UInt8 → Prop} {f : List UInt8 → Scalar F}
    (hsettle : ∀ r : Reader F σ, r.stat = stat →
      settle env r = (r.modifyLast (Entry.convert f)).afterValue)
    (hstep : ∀ (r : Reader F σ) c, r.stat = stat → ok c →
      ∀ beg rest, r.step env beg c rest = (r.put [c], rest))
    {r : Reader F σ} {st : Store F σ} {c : UInt8} {bytes : List UInt8} (h : At st r)
    (hlevel : st.level ≠ [])
    (hfirst : ∀ beg rest, r.step env beg c rest = ({ r.valuesAdd with stat := stat }, c :: rest))
    (hbytes : ∀ b ∈ c :: bytes, ok b) :
    Leads env r (asciiChars (c :: bytes)) (At (st.add (.scalar (f (c :: bytes))))) := by
  obtain ⟨-, rfl⟩ := h
  have hstart : InText stat r.store [] { r.valuesAdd with stat := stat } :=
    ⟨rfl, ⟨rfl, rfl⟩⟩
  obtain ⟨r', hpath, htext⟩ := path_put hstep (fun b hb => hbytes b (List.mem_cons_of_mem _ hb))
    (hstart.put [c])
  have hread : Reads env r [c] ({ r.valuesAdd with stat := stat }.put [c]) :=
    reads_of_step_step hfirst (hstep _ c rfl (hbytes c List.mem_cons_self))
  refine ⟨r', .cons hread (.inl rfl) hpath, .inl ?_⟩
  have hwriting := htext.writing.modifyLast (Entry.convert f)
  rw [hsettle r' htext.stat_eq]
  refine ⟨?_, hwriting.store⟩
  have hne : (r'.modifyLast (Entry.convert f)).store.level ≠ [] := by
    rw [hwriting.store]
    exact hlevel
  simp [Reader.afterValue, hne]

theorem isNumber_digitByte (d : Fin 10) : isNumber (digitByte d) = true := by
  revert d
  decide

/-- Every byte of a number continues it. -/
theorem isNumber_of_mem {n : Number} : ∀ c ∈ n.bytes, isNumber c = true := by
  obtain ⟨negative, int, frac, exp⟩ := n
  have hdigits : ∀ ds : List (Fin 10), ∀ c ∈ ds.map digitByte, isNumber c = true := by
    intro ds c hc
    obtain ⟨d, -, rfl⟩ := List.mem_map.mp hc
    exact isNumber_digitByte d
  intro c hc
  rw [Number.bytes, List.mem_append, List.mem_append, Number.tail, List.mem_append] at hc
  rcases hc with hc | hc | hc | hc
  · cases negative <;> simp_all [isNumber]
  · exact hdigits _ c hc
  · cases frac with
    | none => simp at hc
    | some f =>
      rcases List.mem_cons.mp hc with rfl | hc
      · rfl
      · exact hdigits _ c hc
  · cases exp with
    | none => simp at hc
    | some e =>
      obtain ⟨upper, sign, first, rest⟩ := e
      simp only [Exponent.bytes, List.cons_append, List.mem_cons, List.mem_append] at hc
      rcases hc with rfl | hc | hc
      · cases upper <;> rfl
      · cases sign with
        | none => simp at hc
        | some negative =>
          obtain rfl : c = signByte negative := by simpa using hc
          cases negative <;> rfl
      · exact hdigits _ c hc

/-- The first byte of a number. -/
theorem exists_bytes_eq (n : Number) :
    ∃ c bytes, n.bytes = c :: bytes ∧ (c = 0x2d ∨ ∃ d, c = digitByte d) := by
  cases hneg : n.negative with
  | true => exact ⟨_, _, bytes_of_negative hneg, .inl rfl⟩
  | false =>
    obtain ⟨d, ds, hds⟩ := exists_toDigits_eq n.int
    refine ⟨digitByte d, ds.map digitByte ++ n.tail, ?_, .inr ⟨d, rfl⟩⟩
    rw [bytes_of_not_negative hneg, hds]
    rfl

/-- A digit starts a number. -/
theorem stepToken_digitByte (r : Reader F σ) (d : Fin 10) (rest : List UInt8) :
    r.stepToken env (digitByte d) rest = ({ r.valuesAdd with stat := .number }, digitByte d :: rest) := by
  have hdigit : ∀ d : Fin 10, isDigit (digitByte d) = true := by decide
  have hne : ∀ d : Fin 10, ∀ c ∈ [0x20, 0x0c, 0x0a, 0x0d, 0x09, 0x0b, 0xe3, 0x22, 0x5b, 0x7b, 0x3a, 0x2c,
      0x5d, 0x7d], digitByte d ≠ c := by decide +kernel
  have hd := hne d
  simp only [List.mem_cons, List.not_mem_nil, or_false, forall_eq_or_imp, forall_eq] at hd
  simp [Reader.stepToken, grnIsspace, hd, hdigit]

/-- **Numbers.** -/
theorem leads_number {r : Reader F σ} {st : Store F σ} (n : Number) (h : At st r)
    (hlevel : st.level ≠ []) :
    Leads env r (asciiChars n.bytes) (At (st.add (.scalar (convertNumber env.strtod n.bytes)))) := by
  have hmem := @isNumber_of_mem n
  obtain ⟨c, bytes, hbytes, hc⟩ := exists_bytes_eq n
  rw [hbytes] at hmem ⊢
  refine @leads_text F σ env .number (isNumber · = true) _ ?_ ?_ r st c bytes h hlevel ?_ hmem
  · intro r hr
    simp only [settle, hr]
  · intro r c hr hc beg rest
    simp [Reader.step, hr, Reader.stepNumber, hc]
  · intro beg rest
    rw [Reader.step, h.1]
    rcases hc with rfl | ⟨d, rfl⟩
    · simp [Reader.stepToken, grnIsspace]
    · exact stepToken_digitByte r d rest

/-- `null`, `true` and `false`. -/
theorem leads_symbol {r : Reader F σ} {st : Store F σ} {c : UInt8} {bytes : List UInt8} (h : At st r)
    (hlevel : st.level ≠ []) (hc : c = 0x6e ∨ c = 0x74 ∨ c = 0x66)
    (hbytes : ∀ b ∈ c :: bytes, isAlpha b = true) :
    Leads env r (asciiChars (c :: bytes)) (At (st.add (.scalar (convertSymbol (c :: bytes))))) := by
  refine @leads_text F σ env .symbol (isAlpha · = true) _ ?_ ?_ r st c bytes h hlevel ?_ hbytes
  · intro r hr
    simp only [settle, hr]
  · intro r c hr hc beg rest
    simp [Reader.step, hr, Reader.stepSymbol, hc]
  · intro beg rest
    rw [Reader.step, h.1]
    rcases hc with rfl | rfl | rfl <;> simp [Reader.stepToken, grnIsspace, isDigit, isAlpha]

/-! ## Strings -/

/-- The bytes that the reader writes for a code point. -/
theorem unicharBytes_eq {u : ℕ} (h : u.isValidChar) :
    unicharBytes u = String.utf8EncodeChar (Char.ofNat u) := by
  have hmax : u < 0x110000 := by
    rcases h with h | h <;> omega
  have hval : (Char.ofNat u).val.toNat = u  := by
    unfold Char.ofNat
    rw [dif_pos h]
    rfl
  have hlow : ∀ x < 64, x ||| 0x80 = x + 0x80 := by decide
  have hand : ∀ x, x &&& 0x3f ||| 0x80 = x % 64 + 0x80 := fun x => by
    rw [Nat.and_two_pow_sub_one_eq_mod x 6]
    exact hlow _ (Nat.mod_lt _ (by decide))
  have htwo : ∀ x < 32, x ||| 0xc0 = x % 32 + 0xc0 := by decide
  have hthree : ∀ x < 16, x ||| 0xe0 = x % 16 + 0xe0 := by decide
  have hfour : ∀ x < 8, x ||| 0xf0 = x % 8 + 0xf0 := by decide
  unfold unicharBytes String.utf8EncodeChar
  simp only [hval, hand, Nat.shiftRight_eq_div_pow]
  split_ifs
  all_goals first | omega | skip
  · rfl
  · rw [htwo _ (by omega)]
  · rw [hthree _ (by omega)]
  · rw [hfour _ (by omega)]

/-- A character as it is. -/
theorem path_plain {r : Reader F σ} {c : Char} (hc : 0x20 ≤ c.toNat ∧ c ≠ '"' ∧ c ≠ '\\')
    (hstat : r.stat = .string) :
    Path env r [String.utf8EncodeChar c] (r.put (String.utf8EncodeChar c)) := by
  obtain ⟨b, others, hbytes, hchar⟩ := isCharacter_utf8EncodeChar c
  have hb : b ≠ 0x5c ∧ b ≠ 0x22 := by
    rcases hchar.cases with ⟨hlt, rfl, -⟩ | ⟨-, hhigh, -⟩
    · have hinj : ∀ x < 128, (UInt8.ofNat x = 0x5c → x = 0x5c) ∧ (UInt8.ofNat x = 0x22 → x = 0x22) := by
        decide
      exact ⟨fun h => hc.2.2 (Char.ext (UInt32.toNat_inj.mp ((hinj _ hlt).1 h))),
        fun h => hc.2.1 (Char.ext (UInt32.toNat_inj.mp ((hinj _ hlt).2 h)))⟩
    · exact ⟨fun h => absurd (h ▸ hhigh) (by decide), fun h => absurd (h ▸ hhigh) (by decide)⟩
  refine .cons ?_ (.inr (.inl hstat)) (.nil _)
  rw [hbytes]
  refine reads_of_step fun beg rest => ?_
  have hlen := hchar.charlen (by omega) rest
  simp [Reader.step, hstat, Reader.stepString, hb, hlen]

/-- A byte that is read in one iteration. -/
theorem Path.step {r r' r'' : Reader F σ} {c : UInt8} {es : List (List UInt8)}
    (h : ∀ beg rest, r.step env beg c rest = (r', rest)) (path : Path env r' es r'') :
    Path env r ([c] :: es) r'' := .cons (reads_of_step h) (.inl rfl) path

theorem step_backslash {r : Reader F σ} (hstat : r.stat = .string) (beg rest : List UInt8) :
    r.step env beg 0x5c rest = ({ r with stat := .stringEsc }, rest) := by
  simp [Reader.step, hstat, Reader.stepString]

/-- The byte behind a backslash. -/
theorem path_escape {r : Reader F σ} (e : Escape) (hstat : r.stat = .string) :
    Path env r [[0x5c], [e.byte]] { r.put [e.decode] with stat := .string } := by
  refine .step (step_backslash hstat) (.step (fun beg rest => ?_) (.nil _))
  cases e <;> rfl

theorem hexDigit?_byte (h : Hex) : hexDigit? h.byte = some h.value.val := by
  obtain ⟨value, upper⟩ := h
  revert value upper
  decide

theorem addHex_byte {u weight : ℕ} (h : Hex) (hlt : u + h.value * weight < 2 ^ 32) :
    addHex u h.byte weight = u + h.value * weight := by
  simp only [addHex, hexDigit?_byte]
  exact Nat.mod_eq_of_lt hlt

/-- The code point of an escape is read. -/
theorem path_hex4 {r : Reader F σ} (h : Hex4) (hstat : r.stat = .string) :
    Path env r h.chars
      ({ r with
        unichar := h.first.value * 0x1000 + h.second.value * 0x100 + h.third.value * 0x10
        stat := .unicode3 }.stepUnicode3 h.fourth.byte) := by
  have h1 := h.first.value.isLt
  have h2 := h.second.value.isLt
  have h3 := h.third.value.isLt
  refine .step (step_backslash hstat) (.step (fun beg rest => rfl) (.step (fun beg rest => rfl)
    (.step (fun beg rest => rfl) (.step (fun beg rest => rfl) (.step (fun beg rest => ?_) (.nil _))))))
  simp only [Reader.step, Reader.stepUnicode0, hexDigit?_byte]
  rw [@addHex_byte _ 0x100 h.second (by omega), @addHex_byte _ 0x10 h.third (by omega)]
  rfl

/-- The last byte of an escape: the code point that is looked at. -/
theorem addHex_fourth (h : Hex4) :
    addHex (h.first.value * 0x1000 + h.second.value * 0x100 + h.third.value * 0x10) h.fourth.byte 1 =
      h.value := by
  have h1 := h.first.value.isLt
  have h2 := h.second.value.isLt
  have h3 := h.third.value.isLt
  have h4 := h.fourth.value.isLt
  rw [addHex_byte _ (by omega), Hex4.value, Nat.mul_one]

/-- What the code point does. -/
theorem path_unicode {r : Reader F σ} (h : Hex4) (hstat : r.stat = .string) :
    Path env r h.chars
      (if 0xd800 ≤ h.value ∧ h.value ≤ 0xdbff then { r with unichar := h.value, unicharHi := h.value }
      else if 0xdc00 ≤ h.value ∧ h.value ≤ 0xdfff then
        { r with unichar := h.value }.put (unicharBytes
          ((0x10000 + (r.unicharHi + 2 ^ 32 - 0xd800) * 0x400 + h.value - 0xdc00) % 2 ^ 32))
      else { r with unichar := h.value }.put (unicharBytes h.value)) := by
  have hpath := @path_hex4 F σ env r h hstat
  simp only [Reader.stepUnicode3, addHex_fourth] at hpath
  rw [← hstat] at hpath
  exact hpath

/-- **A character of a string** is put behind the text, however it is written. -/
theorem path_stringChar {r : Reader F σ} {st : Store F σ} {text : List UInt8} (ch : StringChar)
    (h : InText .string st text r) :
    ∃ r', Path env r ch.chars r' ∧ InText .string st (text ++ ch.decode) r' := by
  cases ch with
  | plain c hc => exact ⟨_, path_plain hc h.stat_eq, h.put _⟩
  | escape e =>
    have hput := h.put [e.decode]
    exact ⟨_, path_escape e h.stat_eq, rfl, hput.writing.store, hput.writing.last⟩
  | unicode u high low =>
    have hhigh : ¬ (0xd800 ≤ u.value ∧ u.value ≤ 0xdbff) := high
    have hlow : ¬ (0xdc00 ≤ u.value ∧ u.value ≤ 0xdfff) := low
    have hvalid : u.value.isValidChar := by
      have hlt := u.value_lt
      unfold Nat.isValidChar
      omega
    refine ⟨_, path_unicode u h.stat_eq, ?_⟩
    rw [if_neg hhigh, if_neg hlow, unicharBytes_eq hvalid]
    exact (h.unichar _ _).put _
  | surrogates hi lo high low =>
    obtain ⟨hhi, hhi'⟩ := high
    obtain ⟨hlo, hlo'⟩ := low
    have hfirst := @path_unicode F σ env r hi h.stat_eq
    rw [if_pos ⟨hhi, hhi'⟩] at hfirst
    have hsecond := @path_unicode F σ env { r with unichar := hi.value, unicharHi := hi.value } lo h.stat_eq
    have hpair : (0x10000 + (hi.value + 2 ^ 32 - 0xd800) * 0x400 + lo.value - 0xdc00) % 2 ^ 32 =
        pairValue hi lo := by
      unfold pairValue
      omega
    have hvalid : (pairValue hi lo).isValidChar := by
      unfold pairValue Nat.isValidChar
      omega
    rw [if_neg (by omega), if_pos ⟨hlo, hlo'⟩, hpair, unicharBytes_eq hvalid] at hsecond
    refine ⟨_, hfirst.append hsecond, ?_⟩
    exact (h.unichar _ _).put _

/-- **Strings.** -/
theorem path_string {r : Reader F σ} {st : Store F σ} (s : List StringChar) (h : At st r)
    (hlevel : st.level ≠ []) :
    ∃ r', Path env r (stringChars s) r' ∧ At (addText s st) r' := by
  have hchars : ∀ (s : List StringChar) {r : Reader F σ} {text : List UInt8},
      InText .string st text r →
      ∃ r', Path env r (s.flatMap StringChar.chars) r' ∧ InText .string st (text ++ decodeString s) r' := by
    intro s
    induction s with
    | nil => intro r text h; exact ⟨r, .nil r, by simpa [decodeString] using h⟩
    | cons ch s ih =>
      intro r text h
      obtain ⟨r₁, hpath, htext⟩ := @path_stringChar F σ env r st text ch h
      obtain ⟨r₂, hpath', htext'⟩ := ih htext
      refine ⟨r₂, by rw [List.flatMap_cons]; exact hpath.append hpath', ?_⟩
      simpa [decodeString] using htext'
  obtain ⟨hstat, rfl⟩ := h
  have hopen : ∀ beg rest, r.step env beg 0x22 rest = ({ r.valuesAdd with stat := .string }, rest) := by
    intro beg rest
    simp [Reader.step, hstat, Reader.stepToken, grnIsspace]
  obtain ⟨r', hpath, htext⟩ := @hchars s { r.valuesAdd with stat := .string } [] ⟨rfl, rfl, rfl⟩
  have hclose : ∀ beg rest, r'.step env beg 0x22 rest = (r'.afterValue, rest) := by
    intro beg rest
    simp [Reader.step, htext.stat_eq, Reader.stepString]
  refine ⟨r'.afterValue, (Path.step hopen hpath).append (.step hclose (.nil _)), ?_, ?_⟩
  · have hne : r'.store.level ≠ [] := by
      rw [htext.writing.store]
      exact hlevel
    simp [Reader.afterValue, hne]
  · exact htext.writing.store

/-! ## Values -/

theorem leads_of_path {r r' : Reader F σ} {st : Store F σ} {es : List (List UInt8)}
    (hpath : Path env r es r') (h : At st r') : Leads env r es (At st) :=
  ⟨r', hpath, .inl (by rw [settle_of_token h.1]; exact h)⟩

def Kind.openByte : Kind → UInt8
  | .bracket => 0x5b
  | .brace => 0x7b

def Kind.closeByte : Kind → UInt8
  | .bracket => 0x5d
  | .brace => 0x7d

/-- An array or object begins. -/
theorem path_open {r : Reader F σ} {st : Store F σ} (kind : Kind) (h : At st r) :
    Path env r [[kind.openByte]] (r.openContainer kind) ∧
      At (st.openContainer kind) (r.openContainer kind) := by
  obtain ⟨hstat, rfl⟩ := h
  refine ⟨.step (fun beg rest => ?_) (.nil _), rfl, rfl⟩
  cases kind <;> simp [Kind.openByte, Reader.step, hstat, Reader.stepToken, grnIsspace]

/-- An array or object ends. -/
theorem path_close {r : Reader F σ} (kind : Kind) (htoken : (settle env r).stat = .token) :
    Path env r [[kind.closeByte]] ((settle env r).close env kind) := by
  refine .one (reads_of_settle ?_ fun beg rest => ?_)
  · cases kind <;> exact ⟨by decide, by decide, by decide⟩
  · cases kind <;> simp [Kind.closeByte, Reader.step, htoken, Reader.stepToken, grnIsspace]

theorem leads_close {r : Reader F σ} {st : Store F σ} (kind : Kind) (h : At st (settle env r))
    (hlevel : (st.close env kind).level ≠ []) :
    Leads env r [[kind.closeByte]] (At (st.close env kind)) := by
  obtain ⟨hstat, rfl⟩ := h
  refine ⟨_, path_close kind hstat, ?_⟩
  by_cases hcancelled : env.cancelled ((settle env r).store.close env kind).loader = true
  · refine .inr ⟨?_, ?_⟩ <;> simp [Reader.close, Reader.afterValue, hcancelled]
  · have hat : At ((settle env r).store.close env kind) ((settle env r).close env kind) := by
      simp [At, Reader.close, Reader.afterValue, hcancelled, hlevel]
    exact .inl (by rw [settle_of_token hat.1]; exact hat)

/-- Separators in front of something that starts with a token. -/
theorem leads_separators {r : Reader F σ} {st : Store F σ} {es es' : List (List UInt8)}
    {P : Reader F σ → Prop} (hes : ∀ e ∈ es, ∃ c, IsSeparator c ∧ e = [c])
    (h : At st (settle env r)) (hne : es ≠ [] ∨ r.stat = .token)
    (h' : ∀ r', At st r' → Leads env r' es' P) : Leads env r (es ++ es') P := by
  obtain ⟨r', hpath, hat, htoken⟩ := path_separators hes h
  rw [settle_of_token (htoken hne)] at hat
  exact hpath.leads (h' r' hat)

/-- The parts of an array or object between its brackets or braces. -/
theorem leads_container {r : Reader F σ} {st st' : Store F σ} (kind : Kind) (inside : List Space)
    {es : List (List UInt8)} (h : At st r) (hlevel : st'.level = (st.openContainer kind).level)
    (hst : st.level ≠ [])
    (hinside : ∀ r', At (st.openContainer kind) r' → Leads env r' es (At st')) :
    Leads env r ([[kind.openByte]] ++ (spaces inside ++ es) ++ [[kind.closeByte]])
      (At (st'.close env kind)) := by
  obtain ⟨hpath, hat⟩ := @path_open F σ env r st kind h
  have hbetween : Leads env r ([[kind.openByte]] ++ (spaces inside ++ es)) (At st') := by
    refine hpath.leads (leads_separators (isSeparator_spaces inside) ?_ (.inr hat.1) hinside)
    rw [settle_of_token hat.1]
    exact hat
  refine hbetween.bind fun r' hr' => leads_close kind hr' ?_
  rw [Store.level_close hlevel]
  exact hst

/-- A comma is a separator. -/
theorem isSeparator_append {es es' : List (List UInt8)}
    (h : ∀ e ∈ es, ∃ c, IsSeparator c ∧ e = [c]) (h' : ∀ e ∈ es', ∃ c, IsSeparator c ∧ e = [c]) :
    ∀ e ∈ es ++ es', ∃ c, IsSeparator c ∧ e = [c] := by
  intro e he
  rcases List.mem_append.mp he with he | he
  · exact h e he
  · exact h' e he

theorem isSeparator_comma : ∀ e ∈ [([0x2c] : List UInt8)], ∃ c, IsSeparator c ∧ e = [c] := by
  simp [IsSeparator]

theorem isSeparator_colon : ∀ e ∈ [([0x3a] : List UInt8)], ∃ c, IsSeparator c ∧ e = [c] := by
  simp [IsSeparator]

mutual

/-- **A value has the effect of its tree.** -/
theorem leads_value {r : Reader F σ} {st : Store F σ} (v : Value) (h : At st r)
    (hlevel : st.level ≠ []) : Leads env r v.chars (At (execValue env v st)) := by
  cases v with
  | null => exact leads_symbol h hlevel (.inl rfl) (by decide +kernel)
  | true => exact leads_symbol h hlevel (.inr (.inl rfl)) (by decide +kernel)
  | false => exact leads_symbol h hlevel (.inr (.inr rfl)) (by decide +kernel)
  | number n => exact leads_number n h hlevel
  | string s =>
    obtain ⟨r', hpath, hat⟩ := @path_string F σ env r st s h hlevel
    exact leads_of_path hpath hat
  | array inside items =>
    rw [Value.chars, execValue]
    exact leads_container .bracket inside h (level_execItems items _) hlevel
      fun r' hr' => leads_items items hr' (List.cons_ne_nil _ _)
  | object inside members =>
    rw [Value.chars, execValue]
    exact leads_container .brace inside h (level_execMembers members _) hlevel
      fun r' hr' => leads_members members hr' (List.cons_ne_nil _ _)

theorem leads_items {r : Reader F σ} {st : Store F σ} (items : Items) (h : At st r)
    (hlevel : st.level ≠ []) : Leads env r items.chars (At (execItems env items st)) := by
  cases items with
  | nil =>
    rw [Items.chars]
    exact leads_nil (by rw [settle_of_token h.1]; exact h)
  | cons before v after items =>
    have hlevel' : (execValue env v st).level ≠ [] := by
      rw [level_execValue]
      exact hlevel
    rw [Items.chars, execItems]
    refine leads_separators (isSeparator_spaces before) (by rw [settle_of_token h.1]; exact h) (.inr h.1)
      fun r₁ h₁ => (leads_value v h₁ hlevel).bind fun r₂ h₂ => ?_
    cases items with
    | nil =>
      -- the last value may still be waiting for the bracket
      obtain ⟨r₃, hpath, hat, -⟩ := path_separators (isSeparator_spaces after) h₂
      simp only [Items.comma, Items.chars, List.append_nil, execItems]
      exact ⟨r₃, hpath, .inl hat⟩
    | cons before' v' after' items' =>
      exact leads_separators (isSeparator_append (isSeparator_spaces after) isSeparator_comma) h₂
        (.inl (by simp [Items.comma])) fun r₃ h₃ => leads_items _ h₃ hlevel'

theorem leads_members {r : Reader F σ} {st : Store F σ} (members : Members) (h : At st r)
    (hlevel : st.level ≠ []) : Leads env r members.chars (At (execMembers env members st)) := by
  cases members with
  | nil =>
    rw [Members.chars]
    exact leads_nil (by rw [settle_of_token h.1]; exact h)
  | cons before name behind inner v after members =>
    have hname : (addText name st).level ≠ [] := hlevel
    have hlevel' : (execValue env v (addText name st)).level ≠ [] := by
      rw [level_execValue]
      exact hname
    rw [Members.chars, execMembers]
    refine leads_separators (isSeparator_spaces before) (by rw [settle_of_token h.1]; exact h) (.inr h.1)
      fun r₁ h₁ => ?_
    obtain ⟨r₂, hpath, h₂⟩ := @path_string F σ env r₁ st name h₁ hlevel
    refine hpath.leads (leads_separators
      (isSeparator_append (isSeparator_append (isSeparator_spaces behind) isSeparator_colon)
        (isSeparator_spaces inner)) (by rw [settle_of_token h₂.1]; exact h₂) (.inr h₂.1)
      fun r₃ h₃ => (leads_value v h₃ hname).bind fun r₄ h₄ => ?_)
    cases members with
    | nil =>
      obtain ⟨r₅, hpath, hat, -⟩ := path_separators (isSeparator_spaces after) h₄
      simp only [Members.comma, Members.chars, List.append_nil, execMembers]
      exact ⟨r₅, hpath, .inl hat⟩
    | cons before' name' behind' inner' v' after' members' =>
      exact leads_separators (isSeparator_append (isSeparator_spaces after) isSeparator_comma) h₄
        (.inl (by simp [Members.comma])) fun r₅ h₅ => leads_members _ h₅ hlevel'

end

/-! ## Texts -/

/-- Spaces before the root. -/
theorem path_begin_spaces {r : Reader F σ} (ws : List Space) (h : r.stat = .begin) :
    Path env r (spaces ws) r := by
  induction ws with
  | nil => exact .nil r
  | cons w ws ih =>
    refine .step (fun beg rest => ?_) ih
    cases w <;> simp [Reader.step, h, Reader.stepBegin, grnIsspace, Space.byte]

/-- The root, when its parts are read one after the other. -/
theorem path_root {r : Reader F σ} {st' : Store F σ} (kind : Kind) (inside : List Space)
    {es : List (List UInt8)} (hstat : r.stat = .begin) (hroot : r.store.level = [])
    (hlevel : st'.level = (r.store.openContainer kind).level)
    (hinside : ∀ r', At (r.store.openContainer kind) r' → Leads env r' es (At st')) :
    ∃ r', Path env r ([[kind.openByte]] ++ (spaces inside ++ es) ++ [[kind.closeByte]]) r' ∧
      r'.stat = .ended ∧ ((∀ s, env.cancelled s = false) → r'.store = st'.close env kind) := by
  have hopen : Path env r [[kind.openByte]] (r.openContainer kind) := by
    refine .step (fun beg rest => ?_) (.nil _)
    cases kind <;> simp [Kind.openByte, Reader.step, hstat, Reader.stepBegin, grnIsspace]
  have hbetween : Leads env r ([[kind.openByte]] ++ (spaces inside ++ es)) (At st') :=
    hopen.leads (leads_separators (isSeparator_spaces inside)
      (by rw [settle_of_token rfl]; exact ⟨rfl, rfl⟩) (.inr rfl) hinside)
  obtain ⟨r₁, hpath, hat | hcancelled⟩ := hbetween
  · obtain ⟨htoken, hstore⟩ := hat
    have hempty : ((settle env r₁).store.close env kind).level = [] := by
      rw [hstore, Store.level_close hlevel, hroot]
    refine ⟨_, hpath.append (path_close kind htoken), ?_, fun hnever => ?_⟩
    · simp [Reader.close, Reader.afterValue, hempty]
    · simp [Reader.close, Reader.afterValue, hnever, hstore]
  · refine ⟨r₁, hpath.append (.of_ended hcancelled.1 fun _ _ => .inr hcancelled), hcancelled.1,
      fun hnever => ?_⟩
    rw [Cancelled, hnever] at hcancelled
    exact absurd hcancelled.2 Bool.false_ne_true

/-- **A valid text is read to its end**, with the effect of its tree. -/
theorem path_document (d : Document) (loader : σ) :
    ∃ r', Path env (Reader.start loader) d.chars r' ∧ r'.stat = .ended ∧
      ((∀ s, env.cancelled s = false) →
        r'.store = execValue env d.root (Reader.start loader : Reader F σ).store) := by
  obtain ⟨before, root, after, hcontainer⟩ := d
  have hbefore : Path env (Reader.start loader) (spaces before) (Reader.start loader : Reader F σ) :=
    path_begin_spaces before rfl
  -- nothing is read behind the root
  have hend : ∀ {r' : Reader F σ} {es : List (List UInt8)}, Path env (Reader.start loader) es r' →
      r'.stat = .ended → Path env (Reader.start loader) (spaces before ++ es ++ spaces after) r' :=
    fun hpath hended => (hbefore.append hpath).append (.of_ended hended fun e he => by
      obtain ⟨c, -, rfl⟩ := isSeparator_spaces after e he
      exact .inl rfl)
  cases root with
  | array inside items =>
    obtain ⟨r', hpath, hended, hstore⟩ := path_root .bracket inside rfl rfl
      (level_execItems items ((Reader.start loader : Reader F σ).store.openContainer .bracket))
      fun r' hr' => leads_items items hr' (List.cons_ne_nil _ _)
    refine ⟨r', ?_, hended, hstore⟩
    rw [Document.chars, Value.chars]
    exact hend hpath hended
  | object inside members =>
    obtain ⟨r', hpath, hended, hstore⟩ := path_root .brace inside rfl rfl
      (level_execMembers members ((Reader.start loader : Reader F σ).store.openContainer .brace))
      fun r' hr' => leads_members members hr' (List.cons_ne_nil _ _)
    refine ⟨r', ?_, hended, hstore⟩
    rw [Document.chars, Value.chars]
    exact hend hpath hended
  | null => exact hcontainer.elim
  | true => exact hcontainer.elim
  | false => exact hcontainer.elim
  | number n => exact hcontainer.elim
  | string s => exact hcontainer.elim

/-- The characters of a path in a piece. -/
theorem Path.jsonReadLoop_eq {r r' : Reader F σ} {es : List (List UInt8)} (h : Path env r es r')
    (beg rest : List UInt8) (fuel : ℕ) (hfuel : 3 * (es.flatten.length + rest.length) ≤ fuel) :
    ∃ fuel', 3 * rest.length ≤ fuel' ∧
      jsonReadLoop env beg fuel r (es.flatten ++ rest) = jsonReadLoop env beg fuel' r' rest := by
  induction h generalizing fuel with
  | nil r => exact ⟨fuel, by simpa using hfuel, rfl⟩
  | @cons r r₁ r₂ e es step inString path ih =>
    rw [List.flatten_cons, List.length_append] at hfuel
    obtain ⟨fuel₁, hfuel₁, heq⟩ := step beg (es.flatten ++ rest) fuel (by
      rw [List.length_append]
      omega)
    obtain ⟨fuel₂, hfuel₂, heq'⟩ := ih fuel₁ (by rwa [List.length_append] at hfuel₁)
    exact ⟨fuel₂, hfuel₂, by rw [List.flatten_cons, List.append_assoc, heq, heq']⟩

theorem jsonReadLoop_nil (beg : List UInt8) (fuel : ℕ) (r : Reader F σ) :
    jsonReadLoop env beg fuel r [] = r := by
  cases fuel <;> rfl

/-- The characters of a path as a piece. -/
theorem Path.jsonRead_eq {r r' : Reader F σ} {es : List (List UInt8)} (h : Path env r es r') :
    jsonRead env es.flatten r = r' := by
  obtain ⟨fuel', -, heq⟩ := h.jsonReadLoop_eq es.flatten [] (3 * es.flatten.length) (by simp)
  rw [List.append_nil, jsonReadLoop_nil] at heq
  exact heq

end Groonga.Load
