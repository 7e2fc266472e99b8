import Groonga.Load.Simulation

/-!
# Texts in pieces

A text comes to the loader in pieces. Between two characters it may be cut anywhere: in a
number, a symbol or an escape, since the loader knows how far it has read. It must not be cut
in a character of several bytes. The reader takes what there is of the character for an
invalid one and drops it, and at the beginning of the next piece it does the same with the
rest of the character and with all that is behind it in this piece.
-/

namespace Groonga.Load

open Lib.JsonText

variable {F σ : Type} {env : Env F σ}

/-! ## Pieces -/

/-- **The pieces load as the text**, whatever the loader does with the records. -/
def StreamsAlike (text : List UInt8) (pieces : List (List UInt8)) : Prop :=
  ∀ (F σ : Type) (env : Env F σ) (loader : σ),
    jsonReadPieces env pieces (Reader.start loader) = jsonRead env text (Reader.start loader)

/-- All pieces but the last one end at a position of `cuts`. -/
def CutsIn (cuts : Set ℕ) (pieces : List (List UInt8)) : Prop :=
  ∀ pre post, pieces = pre ++ post → pre ≠ [] → post ≠ [] → pre.flatten.length ∈ cuts

/-- A position inside a character: the byte there continues one. -/
def InsideCharacter (text : List UInt8) (k : ℕ) : Prop :=
  ∃ b, text[k]? = some b ∧ isContinuation b = true

/-! ## The characters of a text -/

/-- The bytes of a character other than NUL. -/
def IsChar (e : List UInt8) : Prop :=
  ∃ v first others, v ≠ 0 ∧ e = first :: others ∧ IsCharacter v first others

theorem isChar_ascii {b : UInt8} (h : b ≠ 0 ∧ b < 0x80) : IsChar [b] := by
  have hlt : b.toNat < 128 := h.2
  refine ⟨b.toNat, b, [], fun hzero => h.1 (UInt8.toNat_inj.mp hzero), rfl, ?_, by simp,
    .inl ⟨hlt, by simp, rfl⟩⟩
  have := isContinuation_ascii b.toNat hlt
  rwa [UInt8.ofNat_toNat] at this

/-- Characters of ASCII. -/
theorem isChar_of_forall {bytes : List UInt8} (h : ∀ b ∈ bytes, b ≠ 0 ∧ b < 0x80) :
    ∀ e ∈ asciiChars bytes, IsChar e := by
  intro e he
  obtain ⟨b, hb, rfl⟩ := List.mem_map.mp he
  exact isChar_ascii (h b hb)

theorem isChar_spaces (ws : List Space) : ∀ e ∈ spaces ws, IsChar e := by
  intro e he
  obtain ⟨w, -, rfl⟩ := List.mem_map.mp he
  exact isChar_ascii (by cases w <;> decide)

theorem ascii_of_isNumber {b : UInt8} (h : isNumber b = true) : b ≠ 0 ∧ b < 0x80 := by
  have hall : ∀ x < 256, isNumber (UInt8.ofNat x) = true → UInt8.ofNat x ≠ 0 ∧ UInt8.ofNat x < 0x80 := by
    decide +kernel
  have := hall b.toNat (UInt8.toNat_lt b)
  rw [UInt8.ofNat_toNat] at this
  exact this h

theorem isChar_hex4 (h : Hex4) : ∀ e ∈ h.chars, IsChar e := by
  have hbyte : ∀ h : Hex, h.byte ≠ 0 ∧ h.byte < 0x80 := by
    rintro ⟨value, upper⟩
    revert value upper
    decide
  simp only [Hex4.chars, List.forall_mem_cons]
  exact ⟨isChar_ascii (by decide), isChar_ascii (by decide), isChar_ascii (hbyte _),
    isChar_ascii (hbyte _), isChar_ascii (hbyte _), isChar_ascii (hbyte _), by simp⟩

theorem isChar_stringChars (s : List StringChar) : ∀ e ∈ stringChars s, IsChar e := by
  intro e he
  rw [stringChars, List.mem_append, List.mem_append, List.mem_flatMap] at he
  rcases he with (he | ⟨ch, -, he⟩) | he
  · rw [List.mem_singleton.mp he]
    exact isChar_ascii (by decide)
  · cases ch with
    | plain c hc =>
      obtain ⟨first, others, hbytes, hchar⟩ := isCharacter_utf8EncodeChar c
      rw [List.mem_singleton.mp he]
      exact ⟨c.toNat, first, others, by omega, hbytes, hchar⟩
    | escape esc =>
      simp only [StringChar.chars, List.mem_cons, List.not_mem_nil, or_false] at he
      rcases he with rfl | rfl
      · exact isChar_ascii (by decide)
      · exact isChar_ascii (by cases esc <;> decide)
    | unicode u high low => exact isChar_hex4 u e he
    | surrogates hi lo high low =>
      rcases List.mem_append.mp he with he | he
      · exact isChar_hex4 hi e he
      · exact isChar_hex4 lo e he
  · rw [List.mem_singleton.mp he]
    exact isChar_ascii (by decide)

/-- The characters of lists that follow one another. -/
theorem isChar_append {es es' : List (List UInt8)} (h : ∀ e ∈ es, IsChar e)
    (h' : ∀ e ∈ es', IsChar e) : ∀ e ∈ es ++ es', IsChar e := by
  intro e he
  rcases List.mem_append.mp he with he | he
  · exact h e he
  · exact h' e he

theorem isChar_singleton {b : UInt8} (h : b ≠ 0 ∧ b < 0x80) : ∀ e ∈ [[b]], IsChar e := by
  intro e he
  rw [List.mem_singleton.mp he]
  exact isChar_ascii h

mutual

theorem isChar_value (v : Value) : ∀ e ∈ v.chars, IsChar e := by
  cases v with
  | null => exact isChar_of_forall (by decide +kernel)
  | true => exact isChar_of_forall (by decide +kernel)
  | false => exact isChar_of_forall (by decide +kernel)
  | number n => exact isChar_of_forall fun b hb => ascii_of_isNumber (isNumber_of_mem b hb)
  | string s => exact isChar_stringChars s
  | array inside items =>
    rw [Value.chars]
    exact isChar_append (isChar_append (isChar_singleton (by decide))
      (isChar_append (isChar_spaces inside) (isChar_items items))) (isChar_singleton (by decide))
  | object inside members =>
    rw [Value.chars]
    exact isChar_append (isChar_append (isChar_singleton (by decide))
      (isChar_append (isChar_spaces inside) (isChar_members members))) (isChar_singleton (by decide))

theorem isChar_items (items : Items) : ∀ e ∈ items.chars, IsChar e := by
  cases items with
  | nil => simp [Items.chars]
  | cons before v after items =>
    have hcomma : ∀ e ∈ items.comma, IsChar e := by
      cases items with
      | nil => simp [Items.comma]
      | cons => exact isChar_singleton (by decide)
    rw [Items.chars]
    exact isChar_append (isChar_spaces before) (isChar_append (isChar_value v)
      (isChar_append (isChar_append (isChar_spaces after) hcomma) (isChar_items items)))

theorem isChar_members (members : Members) : ∀ e ∈ members.chars, IsChar e := by
  cases members with
  | nil => simp [Members.chars]
  | cons before name behind inner v after members =>
    have hcomma : ∀ e ∈ members.comma, IsChar e := by
      cases members with
      | nil => simp [Members.comma]
      | cons => exact isChar_singleton (by decide)
    have hcolon := isChar_append (isChar_append (isChar_spaces behind)
      (isChar_singleton (show (0x3a : UInt8) ≠ 0 ∧ (0x3a : UInt8) < 0x80 by decide))) (isChar_spaces inner)
    rw [Members.chars]
    exact isChar_append (isChar_spaces before) (isChar_append (isChar_stringChars name)
      (isChar_append hcolon (isChar_append (isChar_value v)
        (isChar_append (isChar_append (isChar_spaces after) hcomma) (isChar_members members)))))

end

theorem isChar_document (d : Document) : ∀ e ∈ d.chars, IsChar e :=
  isChar_append (isChar_append (isChar_spaces d.before) (isChar_value d.root)) (isChar_spaces d.after)

/-- No character begins with a byte that continues one. -/
theorem isContinuation_head {es : List (List UInt8)} (hes : ∀ e ∈ es, IsChar e) :
    ∀ b ∈ es.flatten.head?, isContinuation b = false := by
  intro b hb
  cases es with
  | nil => simp at hb
  | cons e es =>
    obtain ⟨v, first, others, -, rfl, hchar⟩ := hes e List.mem_cons_self
    obtain rfl : first = b := by simpa using hb
    exact hchar.not_continuation

/-- **Where a text is cut**: between two characters, or in one. -/
theorem cut_cases {es : List (List UInt8)} (hes : ∀ e ∈ es, IsChar e) {p q : List UInt8}
    (h : es.flatten = p ++ q) :
    (∃ es₁ es₂, es = es₁ ++ es₂ ∧ p = es₁.flatten ∧ q = es₂.flatten) ∨
    (∃ es₁ es₂ v first others k, es = es₁ ++ (first :: others) :: es₂ ∧ IsCharacter v first others ∧
      k < others.length ∧ p = es₁.flatten ++ first :: others.take k ∧
      q = others.drop k ++ es₂.flatten) := by
  induction es generalizing p with
  | nil =>
    obtain ⟨rfl, rfl⟩ := List.append_eq_nil_iff.mp h.symm
    exact .inl ⟨[], [], rfl, rfl, rfl⟩
  | cons e es ih =>
    obtain ⟨v, first, others, hv, rfl, hchar⟩ := hes e List.mem_cons_self
    have hes' : ∀ e ∈ es, IsChar e := fun e he => hes e (List.mem_cons_of_mem _ he)
    rw [List.flatten_cons, List.cons_append] at h
    cases p with
    | nil => exact .inl ⟨[], (first :: others) :: es, rfl, rfl, by simpa using h.symm⟩
    | cons b p =>
      rw [List.cons_append, List.cons.injEq] at h
      obtain ⟨rfl, h⟩ := h
      rcases List.append_eq_append_iff.mp h with ⟨p', rfl, h'⟩ | ⟨others', rfl, h'⟩
      · -- the cut is behind this character
        rcases ih hes' h' with ⟨es₁, es₂, rfl, rfl, rfl⟩ |
          ⟨es₁, es₂, v', first', others', k, rfl, hchar', hk, rfl, rfl⟩
        · exact .inl ⟨(first :: others) :: es₁, es₂, rfl, by simp, rfl⟩
        · exact .inr ⟨(first :: others) :: es₁, es₂, v', first', others', k, rfl, hchar', hk,
            by simp, rfl⟩
      · cases others' with
        | nil =>
          refine .inl ⟨[first :: p], es, by simp, by simp, by simpa using h'⟩
        | cons b' others' =>
          exact .inr ⟨[], es, v, first, p ++ b' :: others', p.length, rfl, hchar, by simp, by simp,
            by simpa using h'⟩

/-! ## Cuts between characters -/

theorem Path.split {r r' : Reader F σ} {es es' : List (List UInt8)} (h : Path env r (es ++ es') r') :
    ∃ r₁, Path env r es r₁ ∧ Path env r₁ es' r' := by
  induction es generalizing r with
  | nil => exact ⟨r, .nil r, h⟩
  | cons e es ih =>
    rw [List.cons_append] at h
    cases h with
    | cons step inString path =>
      obtain ⟨r₁, hpath, hpath'⟩ := ih path
      exact ⟨r₁, .cons step inString hpath, hpath'⟩

/-- Pieces of whole characters are read as the characters. -/
theorem Path.jsonReadPieces_eq {r r' : Reader F σ} {es pieces : List (List UInt8)}
    (h : Path env r es r') (hes : ∀ e ∈ es, IsChar e) (htext : es.flatten = pieces.flatten)
    (hcut : ∀ pre post, pieces = pre ++ post → ∀ b ∈ post.flatten.head?, isContinuation b = false) :
    jsonReadPieces env pieces r = r' := by
  induction pieces generalizing r es with
  | nil =>
    have := h.jsonRead_eq
    rw [htext] at this
    exact this
  | cons p pieces ih =>
    rw [List.flatten_cons] at htext
    rcases cut_cases hes htext with ⟨es₁, es₂, rfl, rfl, hq⟩ |
      ⟨es₁, es₂, v, first, others, k, rfl, hchar, hk, rfl, hq⟩
    · obtain ⟨r₁, hpath, hpath'⟩ := h.split
      have hread : jsonReadPieces env (es₁.flatten :: pieces) r =
          jsonReadPieces env pieces (jsonRead env es₁.flatten r) := rfl
      rw [hread, hpath.jsonRead_eq]
      refine ih hpath' (fun e he => hes e (List.mem_append_right _ he)) hq.symm ?_
      intro pre post heq
      exact hcut (es₁.flatten :: pre) post (by rw [heq]; rfl)
    · -- the next piece would continue a character
      have hhead : (others.drop k)[0]? = some others[k] := by simp [hk]
      have hb : others[k] ∈ pieces.flatten.head? := by
        rw [hq, List.head?_eq_getElem?, List.getElem?_append_left (by simp; omega), hhead]
        rfl
      have hno := hcut [_] pieces rfl _ hb
      rw [hchar.continuation _ (List.getElem_mem hk)] at hno
      cases hno

/-! ## A cut in a character -/

/-- **What is left of a character is dropped**, and with it the next piece. -/
theorem jsonReadPieces_inside {r r₁ : Reader F σ} {es₁ : List (List UInt8)} {v : ℕ} {first : UInt8}
    {others q : List UInt8} {k : ℕ} (h : Path env r es₁ r₁) (hstat : r₁.stat = .string)
    (hchar : IsCharacter v first others) (hk : k < others.length) :
    jsonReadPieces env [es₁.flatten ++ first :: others.take k, others.drop k ++ q] r = r₁ := by
  -- a byte that is not in ASCII is looked at as the beginning of a character
  have hdrop : ∀ {b : UInt8} {rest : List UInt8}, 0x80 ≤ b → grnStrCharlenUtf8 (b :: rest) = 0 →
      ∀ beg fuel, jsonReadLoop env beg fuel r₁ (b :: rest) = r₁ := by
    intro b rest hb hzero beg fuel
    have hstep : r₁.step env beg b rest = (r₁, []) := by
      have h1 : b ≠ 0x5c := by rintro rfl; exact absurd hb (by decide)
      have h2 : b ≠ 0x22 := by rintro rfl; exact absurd hb (by decide)
      simp [Reader.step, hstat, Reader.stepString, h1, h2, hzero]
    cases fuel with
    | zero => rfl
    | succ fuel => rw [jsonReadLoop, hstep, jsonReadLoop_nil]
  have hfirst : 0x80 ≤ first := by
    rcases hchar.cases with ⟨-, -, rfl⟩ | ⟨-, hhigh, -⟩
    · simp at hk
    · exact hhigh
  have hone : jsonRead env (es₁.flatten ++ first :: others.take k) r = r₁ := by
    obtain ⟨fuel', -, heq⟩ := h.jsonReadLoop_eq (es₁.flatten ++ first :: others.take k)
      (first :: others.take k) (3 * (es₁.flatten ++ first :: others.take k).length)
      (Nat.le_of_eq (by rw [List.length_append]))
    rw [jsonRead, heq]
    exact hdrop hfirst (hchar.charlen_cut hk) _ _
  have htwo : jsonRead env (others.drop k ++ q) r₁ = r₁ := by
    obtain ⟨b, rest, hrest⟩ : ∃ b rest, others.drop k = b :: rest :=
      List.exists_cons_of_ne_nil (by simp; omega)
    have hb : isContinuation b = true :=
      hchar.continuation b (List.mem_of_mem_drop (by rw [hrest]; exact List.mem_cons_self))
    have hhigh : 0x80 ≤ b := by
      by_contra hlow
      have hlt : b.toNat < 128 := Nat.lt_of_not_le hlow
      have := isContinuation_ascii b.toNat hlt
      rw [UInt8.ofNat_toNat, hb] at this
      cases this
    rw [jsonRead, hrest, List.cons_append]
    exact hdrop hhigh (charlen_of_isContinuation hb _) _ _
  show jsonRead env (others.drop k ++ q) (jsonRead env (es₁.flatten ++ first :: others.take k) r) = r₁
  rw [hone, htwo]

/-- A loader that does nothing. -/
def quietEnv : Env Unit Unit where
  emitLevel := 1
  strtod := ⟨fun _ => (), List.length, fun _ => false⟩
  close := fun _ _ _ _ => ()
  invalid := fun _ _ => ()
  cancelled := fun _ => false

/-- Cutting a text in a character is noticed by every loader: the text does not end. -/
theorem not_streamsAlike_inside {d : Document} {k : ℕ} (h : InsideCharacter d.text k) :
    ¬ StreamsAlike d.text [d.text.take k, d.text.drop k] := by
  intro hsame
  have hsame := hsame Unit Unit quietEnv ()
  obtain ⟨r', hpath, hended, -⟩ := @path_document Unit Unit quietEnv d ()
  obtain ⟨b, hb, hcontinues⟩ := h
  have htext : d.chars.flatten = d.text.take k ++ d.text.drop k := (List.take_append_drop k _).symm
  rcases cut_cases (isChar_document d) htext with ⟨es₁, es₂, hes, hp, hq⟩ |
    ⟨es₁, es₂, v, first, others, j, hes, hchar, hj, hp, hq⟩
  · -- then the character at the cut would begin with the byte there
    have hes₂ : ∀ e ∈ es₂, IsChar e := fun e he =>
      isChar_document d e (by rw [hes]; exact List.mem_append_right _ he)
    have hno := isContinuation_head hes₂ b (by rw [← hq, List.head?_drop]; exact hb)
    rw [hcontinues] at hno
    cases hno
  · rw [hes] at hpath
    obtain ⟨r₁, hpath₁, hpath₂⟩ := hpath.split
    have hstat : r₁.stat = .string := by
      cases hpath₂ with
      | cons step inString path =>
        rcases inString with hone | hstring | hcancelled
        · rw [List.length_cons] at hone
          omega
        · exact hstring
        · exact absurd hcancelled.2 Bool.false_ne_true
    have hpieces := @jsonReadPieces_inside _ _ quietEnv _ _ _ _ _ _ es₂.flatten _ hpath₁ hstat hchar hj
    rw [hp, hq, hpieces, Document.text, hes, (hpath₁.append hpath₂).jsonRead_eq] at hsame
    rw [hsame, hended] at hstat
    cases hstat

/-! ## Where a text may be cut -/

/-- A text that is only cut between characters loads as in one piece. -/
theorem streamsAlike_of_cutsIn {d : Document} {cuts : Set ℕ} {pieces : List (List UInt8)}
    (hcuts : ∀ k ∈ cuts, ¬ InsideCharacter d.text k) (htext : pieces.flatten = d.text)
    (hpieces : CutsIn cuts pieces) : StreamsAlike d.text pieces := by
  intro F σ env loader
  obtain ⟨r', hpath, -⟩ := @path_document F σ env d loader
  have hwhole : jsonRead env d.text (Reader.start loader) = r' := hpath.jsonRead_eq
  rw [hwhole]
  refine hpath.jsonReadPieces_eq (isChar_document d) htext.symm fun pre post heq b hb => ?_
  have hdrop : d.text = pre.flatten ++ post.flatten := by rw [← htext, heq, List.flatten_append]
  by_cases hpre : pre = []
  · subst hpre
    rw [List.flatten_nil, List.nil_append] at hdrop
    exact isContinuation_head (isChar_document d) b (by rw [← hdrop] at hb; exact hb)
  · have hpost : post ≠ [] := by
      rintro rfl
      simp at hb
    refine Bool.eq_false_iff.mpr fun hcontinues => ?_
    refine hcuts _ (hpieces pre post heq hpre hpost) ⟨b, ?_, hcontinues⟩
    rw [hdrop, List.getElem?_append_right (Nat.le_refl _), Nat.sub_self, ← List.head?_eq_getElem?]
    exact hb

/-- **Where a text may be cut**: all ways to cut a valid text at some of the given positions
load it as in one piece, exactly when none of the positions is inside a character. -/
theorem streamsAlike_iff (d : Document) (cuts : Set ℕ) :
    (∀ pieces, pieces.flatten = d.text → CutsIn cuts pieces → StreamsAlike d.text pieces) ↔
      ∀ k ∈ cuts, ¬ InsideCharacter d.text k := by
  refine ⟨fun hall k hk hinside => ?_, fun hcuts pieces htext hpieces =>
    streamsAlike_of_cutsIn hcuts htext hpieces⟩
  refine not_streamsAlike_inside hinside (hall [d.text.take k, d.text.drop k] (by simp) ?_)
  obtain ⟨b, hb, -⟩ := hinside
  obtain ⟨hlt, -⟩ := List.getElem?_eq_some_iff.mp hb
  intro pre post heq hpre hpost
  cases pre with
  | nil => exact absurd rfl hpre
  | cons p pre =>
    obtain ⟨rfl, hrest⟩ := List.cons.inj heq
    cases pre with
    | nil =>
      have hlength : [d.text.take k].flatten.length = k := by
        rw [List.flatten_singleton, List.length_take]
        omega
      rw [hlength]
      exact hk
    | cons p' pre => simp [hpost] at hrest

/-- The text `["é"]`. -/
def accentText : Document where
  before := []
  root := .array [] (.cons [] (.string [.plain 'é' (by decide)]) [] .nil)
  after := []
  isContainer := trivial

/-- The loader does not see the end of `["é"]` when `é` comes in two pieces. -/
theorem not_streamsAlike_accentText :
    [[0x5b, 0x22, 0xc3], [0xa9, 0x22, 0x5d]].flatten = accentText.text ∧
      ¬ StreamsAlike accentText.text [[0x5b, 0x22, 0xc3], [0xa9, 0x22, 0x5d]] :=
  ⟨by decide, @not_streamsAlike_inside accentText 3 ⟨0xa9, by decide, by decide⟩⟩

end Groonga.Load
