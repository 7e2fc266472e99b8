import Groonga.Token.Tokens

/-!
# Phrase search

A phrase is found in a text when the tokens of the phrase are there at the same distances from
each other. With n-grams this is a search for a part of the text, and with `loose_symbol` for a
part of the text without its symbols. A phrase that has only symbols is searched for in the text
as it is. If it is shorter than a token it is the prefix of a token, and when it stands at the
end of a text that has another symbol before, there is no such token: the tokens behind the first
one that reaches the end are missing.
-/

namespace Groonga.Token

open Lib

variable {types : Types} {o : Options} {d q : List Char}

/-! ## Characters and bytes -/

/-- The first character of a text. -/
theorem first_char_eq {c c' : Char} {r r' : List UInt8}
    (h : String.utf8EncodeChar c ++ r = String.utf8EncodeChar c' ++ r') : c = c' := by
  have hbytes := congrArg List.toByteArray h
  rw [List.toByteArray_append, List.toByteArray_append] at hbytes
  have hdecode := congrArg (ByteArray.utf8DecodeChar? · 0) hbytes
  simpa only [ByteArray.utf8DecodeChar?_utf8EncodeChar_append, Option.some.injEq] using hdecode

theorem prefix_encode_iff {cs cs' : List Char} : encode cs <+: encode cs' ↔ cs <+: cs' := by
  constructor
  · intro h
    induction cs generalizing cs' with
    | nil => exact List.nil_prefix
    | cons c cs ih =>
      rw [encode_cons] at h
      cases cs' with
      | nil =>
        have hnil := List.prefix_nil.mp h
        exact absurd (List.append_eq_nil_iff.mp hnil).1 String.utf8EncodeChar_ne_nil
      | cons c' cs' =>
        rw [encode_cons] at h
        obtain ⟨r, hr⟩ := h
        rw [List.append_assoc] at hr
        obtain rfl := first_char_eq hr
        rw [List.append_cancel_left_eq] at hr
        exact List.cons_prefix_cons.mpr ⟨rfl, ih ⟨r, hr⟩⟩
  · rintro ⟨r, rfl⟩
    rw [encode_append]
    exact List.prefix_append _ _

theorem encode_inj {cs cs' : List Char} : encode cs = encode cs' ↔ cs = cs' := by
  refine ⟨fun h => ?_, congrArg encode⟩
  have hstart : cs <+: cs' := prefix_encode_iff.mp (by rw [h])
  have hstart' : cs' <+: cs := prefix_encode_iff.mp (by rw [h])
  exact hstart.eq_of_length_le hstart'.length_le

/-- The character of the end mark. -/
def endMarkChar : Char := '\ufff0'

theorem encode_endMarkChar : encode [endMarkChar] = endMark := by decide

theorem mem_number {β : Type} {p i : ℤ} {x : β} {xs : List β} :
    (i, x) ∈ number p xs ↔ ∃ k : ℕ, i = p + k ∧ xs[k]? = some x := by
  induction xs generalizing p with
  | nil => simp [number]
  | cons y ys ih =>
    rw [number, List.mem_cons, ih, Prod.mk.injEq]
    constructor
    · rintro (⟨rfl, rfl⟩ | ⟨k, rfl, hk⟩)
      · exact ⟨0, by simp, rfl⟩
      · exact ⟨k + 1, by push_cast; omega, hk⟩
    · rintro ⟨k, rfl, hk⟩
      cases k with
      | zero => exact .inl ⟨by simp, by simpa using hk.symm⟩
      | succ k => exact .inr ⟨k, by push_cast; omega, hk⟩

/-! ## The tokens of texts and phrases -/

/-- The tokens that the cursor delivers for a text. -/
def tokenize (types : Types) (o : Options) (mode : Mode) (cs : List Char) : List CursorToken :=
  Cursor.tokens (2 * cs.length + 2) (Cursor.start o mode (encode cs) (types.of cs))

/-- The tokens of a text that is added, as characters. -/
def addedGrams (types : Types) (o : Options) (d : List Char) : List (List Char) :=
  firstGrams types o false d ++
    if d.any (isSymbol types o) then [endMarkChar] :: grams o.unit (looseText types o d) else []

theorem tokens_start_add {fuel : ℕ} (ho : o.Plain) (hnul : NoNul d) (hne : d ≠ [])
    (hfuel : 2 * d.length + 2 ≤ fuel) :
    (Cursor.tokens fuel (Cursor.start o .add (encode d) (types.of d))).map placed =
      number 0 ((addedGrams types o d).map encode) := by
  have hreading : Reading types (ngramInit o .add (encode d) (types.of d)) d := ⟨rfl, rfl⟩
  have htokens := @tokens_first types _ d d fuel (-1) ho hnul hne hreading rfl rfl hnul rfl rfl (by omega)
  rw [Cursor.start, htokens]
  have hpass := @firstPass_eq types d o false ho.unit_pos hne
  have hneed : (ngramInit o .add (encode d) (types.of d)).looseNeed = false := rfl
  have hoptions : (ngramInit o .add (encode d) (types.of d)).options = o := rfl
  rw [hneed, hoptions, hpass, addedGrams, List.map_append, Bool.false_or]
  cases d.any (isSymbol types o) with
  | true =>
    simp only [if_true, List.map_cons, encode_endMarkChar]
    rfl
  | false => rfl

/-- What is searched for: the phrase without its symbols, if something is left. -/
def asked (types : Types) (o : Options) (q : List Char) : List Char :=
  if looseText types o q = [] then q else looseText types o q

theorem asked_ne_nil (hne : q ≠ []) : asked types o q ≠ [] := by
  rw [asked]
  split_ifs with h
  · exact hne
  · exact h

theorem asked_subset : asked types o q ⊆ q := by
  rw [asked]
  split_ifs
  · exact List.Subset.refl q
  · exact List.filter_subset_self q

theorem length_asked_le : (asked types o q).length ≤ q.length := by
  rw [asked]
  split_ifs
  · exact Nat.le_refl _
  · exact List.length_filter_le _ _

/-- The tokenizer of a phrase is in loose mode in front of what is searched for. -/
theorem reading_ngramInit (hnul : NoNul q) :
    let t := ngramInit o .get (encode q) (types.of q)
    Reading types t (asked types o q) ∧ t.looseIng = true ∧ t.looseNeedEndMark = false ∧
      t.overlap = false ∧ t.options = o := by
  have hloop := @looseLoop_eq types q o (encode q).length hnul (length_le_length_encode q)
  have hlength : (types.of (looseText types o q)).length - 1 = (looseText types o q).length := by
    simp [Types.of]
  simp only [ngramInit, Tokenizer.switchToLooseMode, hloop, hlength, List.length_eq_zero_iff, asked]
  split_ifs
  · exact ⟨⟨rfl, rfl⟩, rfl, rfl, rfl, rfl⟩
  · exact ⟨⟨rfl, rfl⟩, rfl, rfl, rfl, rfl⟩

/-- **The tokens of a phrase** are the n-grams up to the first one that reaches its end. -/
theorem mem_tokens_start_get {fuel : ℕ} {g : CursorToken} (ho : o.Plain) (hnul : NoNul q) (hne : q ≠ [])
    (hfuel : 2 * q.length + 2 ≤ fuel) :
    g ∈ Cursor.tokens fuel (Cursor.start o .get (encode q) (types.of q)) ↔
      ∃ k ≤ (asked types o q).length - o.unit,
        g = ⟨k, encode (((asked types o q).drop k).take o.unit),
          decide ((asked types o q).length < o.unit)⟩ := by
  obtain ⟨hreading, hloose, hmark, hoverlap, hoptions⟩ := @reading_ngramInit types o q hnul
  have hnul' : NoNul (asked types o q) := fun c hc => hnul c (asked_subset hc)
  have hle := @length_asked_le types o q
  have ho' : (ngramInit o .get (encode q) (types.of q)).options.Plain := by rw [hoptions]; exact ho
  rcases Nat.lt_or_ge (asked types o q).length o.unit with hshort | hlong
  · have htokens := @tokens_get_short types _ _ fuel (-1) ho' hnul' (asked_ne_nil hne) hreading hloose
      hmark hoverlap (by rwa [hoptions]) (by omega)
    rw [Cursor.start, htokens, List.mem_singleton]
    have hzero : (asked types o q).length - o.unit = 0 := by omega
    have htake : (asked types o q).take o.unit = asked types o q :=
      List.take_of_length_le (Nat.le_of_lt hshort)
    constructor
    · rintro rfl
      exact ⟨0, Nat.zero_le _, by simp [htake, hshort]⟩
    · rintro ⟨k, hk, rfl⟩
      obtain rfl : k = 0 := by omega
      simp [htake, hshort]
  · have htokens := @tokens_get types _ _ fuel (-1) ho' hnul' hreading hloose hmark
      (by rwa [hoptions]) (by omega)
    have hmature : decide ((asked types o q).length < o.unit) = false := by simpa using hlong
    have hpos := List.length_pos_iff.mpr (@asked_ne_nil types o q hne)
    rw [Cursor.start, htokens, List.mem_map, hoptions, hmature]
    constructor
    · rintro ⟨⟨i, x⟩, hx, rfl⟩
      obtain ⟨k, rfl, hget⟩ := mem_number.mp hx
      rw [List.getElem?_map, Option.map_eq_some_iff] at hget
      obtain ⟨gram, hgram, rfl⟩ := hget
      obtain ⟨hlt, -⟩ := List.getElem?_eq_some_iff.mp hgram
      rw [List.length_take] at hlt
      rw [List.getElem?_take_of_lt (by omega)] at hgram
      obtain ⟨-, rfl⟩ := getElem?_grams.mp hgram
      exact ⟨k, by omega, by simp⟩
    · rintro ⟨k, hk, rfl⟩
      have hunit := ho.unit_pos
      refine ⟨(k, encode (((asked types o q).drop k).take o.unit)), mem_number.mpr ⟨k, by simp, ?_⟩, rfl⟩
      rw [List.getElem?_map, List.getElem?_take_of_lt (by omega), getElem?_grams.mpr ⟨by omega, rfl⟩]
      rfl

/-! ## Phrases -/

/-- Some shift takes every token of the phrase to one of the text. -/
def MatchesPhrase (added : List CursorToken) (phrase : List CursorToken) : Prop :=
  ∃ s : ℤ, ∀ g ∈ phrase, ∃ a ∈ added, a.pos = s + g.pos ∧
    (a.data = g.data ∨ (g.forcePrefix = true ∧ g.data <+: a.data))

/-- The tokens of a text that is added, with their positions. -/
theorem exists_mem_tokenize_add {i : ℤ} {x : List UInt8} (ho : o.Plain) (hnul : NoNul d) (hne : d ≠ []) :
    (∃ a ∈ tokenize types o .add d, a.pos = i ∧ a.data = x) ↔
      ∃ (k : ℕ) (gram : List Char), i = k ∧ (addedGrams types o d)[k]? = some gram ∧
        x = encode gram := by
  have hmem : (∃ a ∈ tokenize types o .add d, a.pos = i ∧ a.data = x) ↔
      (i, x) ∈ (tokenize types o .add d).map placed := by
    simp [placed]
  rw [hmem, tokenize, tokens_start_add ho hnul hne (Nat.le_refl _), mem_number]
  simp only [Int.zero_add, List.getElem?_map, Option.map_eq_some_iff]
  constructor
  · rintro ⟨k, rfl, gram, hgram, rfl⟩
    exact ⟨k, gram, rfl, hgram, rfl⟩
  · rintro ⟨k, gram, rfl, hgram, rfl⟩
    exact ⟨k, rfl, gram, hgram, rfl⟩

/-- A token of the phrase at `k`, against the bytes of a token. -/
theorem found_iff {n k : ℕ} {Q gram : List Char} (hk : k ≤ Q.length - n) :
    (encode gram = encode ((Q.drop k).take n) ∨
      (decide (Q.length < n) = true ∧ encode ((Q.drop k).take n) <+: encode gram)) ↔
      Found n Q k gram := by
  rw [encode_inj, prefix_encode_iff, decide_eq_true_eq, Found]
  refine or_congr_right (and_congr_right fun hshort => ?_)
  obtain rfl : k = 0 := by omega
  rw [List.drop_zero, List.take_of_length_le (Nat.le_of_lt hshort)]

/-- **The tokens of the phrase are found** when there is a run of them in the text. -/
theorem matchesPhrase_iff (ho : o.Plain) (hd : NoNul d) (hd' : d ≠ []) (hq : NoNul q) (hq' : q ≠ []) :
    MatchesPhrase (tokenize types o .add d) (tokenize types o .get q) ↔
      ∃ s, RunsAt (addedGrams types o d) ((asked types o q).length - o.unit)
        (Found o.unit (asked types o q)) s := by
  have hphrase : ∀ k ≤ (asked types o q).length - o.unit,
      (⟨k, encode (((asked types o q).drop k).take o.unit),
        decide ((asked types o q).length < o.unit)⟩ : CursorToken) ∈ tokenize types o .get q :=
    fun k hk => (mem_tokens_start_get ho hq hq' (Nat.le_refl _)).mpr ⟨k, hk, rfl⟩
  constructor
  · rintro ⟨s, h⟩
    -- the first token of the phrase says where the run begins
    obtain ⟨a, ha, hpos, -⟩ := h _ (hphrase 0 (Nat.zero_le _))
    obtain ⟨start, -, hstart, -, -⟩ := (exists_mem_tokenize_add ho hd hd').mp ⟨a, ha, rfl, rfl⟩
    obtain rfl : s = start := by simpa [hpos] using hstart
    refine ⟨start, fun k hk => ?_⟩
    obtain ⟨a, ha, hpos, hdata⟩ := h _ (hphrase k hk)
    obtain ⟨i, gram, hi, hgram, hbytes⟩ := (exists_mem_tokenize_add ho hd hd').mp ⟨a, ha, rfl, rfl⟩
    obtain rfl : i = start + k := by
      rw [hpos] at hi
      simp only at hi
      omega
    rw [hbytes] at hdata
    exact ⟨gram, hgram, (found_iff hk).mp hdata⟩
  · rintro ⟨start, h⟩
    refine ⟨start, fun g hg => ?_⟩
    rw [tokenize, mem_tokens_start_get ho hq hq' (Nat.le_refl _)] at hg
    obtain ⟨k, hk, rfl⟩ := hg
    obtain ⟨gram, hgram, hfound⟩ := h k hk
    obtain ⟨a, ha, hpos, hdata⟩ := (exists_mem_tokenize_add ho hd hd').mpr
      ⟨start + k, gram, rfl, hgram, rfl⟩
    refine ⟨a, ha, by simp [hpos], ?_⟩
    rw [hdata]
    exact (found_iff hk).mpr hfound

/-! ## The search for a part of the text -/

/-- A text that is not empty, without NUL and the end mark. -/
structure IsText (cs : List Char) : Prop where
  ne_nil : cs ≠ []
  noNul : NoNul cs
  noEndMark : endMarkChar ∉ cs

/-- A text without its symbols, if they are left out and the phrase has other characters. -/
def strip (types : Types) (o : Options) (q cs : List Char) : List Char :=
  if o.looseSymbol = true ∧ looseText types o q ≠ [] then looseText types o cs else cs

/-- **Phrase search is substring search**: the tokens of the phrase are found exactly when the
phrase is a part of the text. -/
def FindsPhrase (types : Types) (o : Options) (d q : List Char) : Prop :=
  MatchesPhrase (tokenize types o .add d) (tokenize types o .get q) ↔
    strip types o q q <:+: strip types o q d

/-- The phrase has only symbols and is shorter than a token, the text has a symbol in front of
its last character, and the phrase is in the text only behind the first token that reaches the
end. -/
def CutOff (types : Types) (o : Options) (d q : List Char) : Prop :=
  o.looseSymbol = true ∧ looseText types o q = [] ∧ q.length < o.unit ∧
    d.dropLast.any (isSymbol types o) = true ∧ q <:+: d ∧
    ∀ s, q <+: d.drop s → d.length - o.unit < s

/-- The end mark is not a token of a phrase. -/
theorem not_found_endMark {n k : ℕ} {Q : List Char} (hne : Q ≠ []) (hmark : endMarkChar ∉ Q) :
    ¬ Found n Q k [endMarkChar] := by
  rintro (heq | ⟨-, hstart⟩)
  · have hmem : endMarkChar ∈ (Q.drop k).take n := by
      rw [← heq]
      exact List.mem_singleton_self _
    exact hmark (List.mem_of_mem_drop (List.mem_of_mem_take hmem))
  · cases Q with
    | nil => exact hne rfl
    | cons c cs =>
      obtain ⟨rfl, -⟩ := List.cons_prefix_cons.mp hstart
      exact hmark List.mem_cons_self

/-- A phrase is found in the text as it is, or in the text without symbols. -/
theorem exists_runsAt_addedGrams_iff {Q : List Char} (ho : o.Plain) (hne : Q ≠ [])
    (hmark : endMarkChar ∉ Q) :
    (∃ s, RunsAt (addedGrams types o d) (Q.length - o.unit) (Found o.unit Q) s) ↔
      (∃ s, RunsAt (firstGrams types o false d) (Q.length - o.unit) (Found o.unit Q) s) ∨
        (d.any (isSymbol types o) = true ∧ Q <:+: looseText types o d) := by
  rw [addedGrams]
  cases d.any (isSymbol types o) with
  | true =>
    rw [if_pos rfl, exists_runsAt_append_cons fun k _ => not_found_endMark hne hmark,
      exists_runsAt_grams_iff ho.unit_pos hne]
    simp
  | false => simp

/-- The first pass over a text finds a phrase at `s`. -/
theorem runsAt_firstGrams_iff {Q : List Char} {s : ℕ} (ho : o.Plain) (hne : Q ≠ []) :
    RunsAt (firstGrams types o false d) (Q.length - o.unit) (Found o.unit Q) s ↔
      (d.dropLast.any (isSymbol types o) = true → s ≤ d.length - o.unit) ∧ Q <+: d.drop s := by
  rw [firstGrams, Bool.false_or]
  cases d.dropLast.any (isSymbol types o) with
  | true => rw [if_pos rfl, runsAt_take_grams_iff ho.unit_pos hne, forall_prop_of_true rfl]
  | false =>
    rw [if_neg (by simp), runsAt_grams_iff ho.unit_pos hne]
    simp

/-- Without symbols in the text everything is left. -/
theorem looseText_of_not_any (h : d.any (isSymbol types o) = false) : looseText types o d = d := by
  rw [looseText, List.filter_eq_self]
  intro c hc
  simpa using List.any_eq_false.mp h c hc

theorem strip_of_ne_nil {cs : List Char} (h : looseText types o q ≠ []) :
    strip types o q cs = looseText types o cs := by
  rw [strip]
  split_ifs with hif
  · rfl
  · -- `loose_symbol` is off, and no character is left out
    have hoff : o.looseSymbol = false := by
      simpa [h] using hif
    refine (looseText_of_not_any ?_).symm
    simp [isSymbol, hoff]

/-- **A phrase with other characters than symbols** is found where it is a part of the text. -/
theorem findsPhrase_of_looseText_ne_nil (ho : o.Plain) (hd : IsText d) (hq : IsText q)
    (h : looseText types o q ≠ []) : FindsPhrase types o d q := by
  have hasked : asked types o q = looseText types o q := if_neg h
  have hmark : endMarkChar ∉ looseText types o q := fun hmem =>
    hq.noEndMark (List.mem_filter.mp hmem).1
  rw [FindsPhrase, matchesPhrase_iff ho hd.noNul hd.ne_nil hq.noNul hq.ne_nil, hasked,
    strip_of_ne_nil h, strip_of_ne_nil h, exists_runsAt_addedGrams_iff ho h hmark]
  constructor
  · rintro (⟨s, hs⟩ | ⟨-, hinside⟩)
    · -- a part of the text that has no symbols is also there without them
      have hinside := infix_iff_exists_drop.mpr ⟨s, ((runsAt_firstGrams_iff ho h).mp hs).2⟩
      have hself : looseText types o (looseText types o q) = looseText types o q := by
        simp [looseText, List.filter_filter]
      rw [← hself]
      exact hinside.filter _
    · exact hinside
  · intro hinside
    cases hany : d.any (isSymbol types o) with
    | true => exact .inr ⟨rfl, hinside⟩
    | false =>
      rw [looseText_of_not_any hany] at hinside
      obtain ⟨s, hs⟩ := infix_iff_exists_drop.mp hinside
      refine .inl ⟨s, (runsAt_firstGrams_iff ho h).mpr ⟨fun hfront => ?_, hs⟩⟩
      obtain ⟨c, hc, hsymbol⟩ := List.any_eq_true.mp hfront
      exact absurd hsymbol (List.any_eq_false.mp hany c (List.dropLast_subset d hc))

/-- **A phrase of symbols** is found in the text as it is. -/
theorem matchesPhrase_iff_of_looseText_eq_nil (ho : o.Plain) (hd : IsText d) (hq : IsText q)
    (h : looseText types o q = []) :
    MatchesPhrase (tokenize types o .add d) (tokenize types o .get q) ↔
      ∃ s, (d.dropLast.any (isSymbol types o) = true → s ≤ d.length - o.unit) ∧ q <+: d.drop s := by
  have hasked : asked types o q = q := if_pos h
  rw [matchesPhrase_iff ho hd.noNul hd.ne_nil hq.noNul hq.ne_nil, hasked,
    exists_runsAt_addedGrams_iff ho hq.ne_nil hq.noEndMark]
  have hnot : ¬ (d.any (isSymbol types o) = true ∧ q <:+: looseText types o d) := by
    rintro ⟨-, hinside⟩
    obtain ⟨c, hc⟩ := List.exists_mem_of_ne_nil q hq.ne_nil
    have hleft := (List.mem_filter.mp (hinside.subset hc)).2
    have hnone : c ∈ looseText types o q := List.mem_filter.mpr ⟨hc, hleft⟩
    rw [h] at hnone
    exact List.not_mem_nil hnone
  rw [or_iff_left hnot]
  exact exists_congr fun s => runsAt_firstGrams_iff ho hq.ne_nil

/-- **When phrase search is substring search.** -/
theorem findsPhrase_iff (ho : o.Plain) (hd : IsText d) (hq : IsText q) :
    FindsPhrase types o d q ↔ ¬ CutOff types o d q := by
  by_cases h : looseText types o q = []
  · have hstrip : ∀ cs, strip types o q cs = cs := fun cs => if_neg (by simp [h])
    have hpos := List.length_pos_iff.mpr hq.ne_nil
    rw [FindsPhrase, matchesPhrase_iff_of_looseText_eq_nil ho hd hq h, hstrip, hstrip]
    constructor
    · rintro hiff ⟨-, -, -, hfront, hinside, hbehind⟩
      obtain ⟨s, hs, hstart⟩ := hiff.mpr hinside
      exact absurd (hs hfront) (Nat.not_le_of_gt (hbehind s hstart))
    · intro hnot
      refine ⟨fun ⟨s, _, hstart⟩ => infix_iff_exists_drop.mpr ⟨s, hstart⟩, fun hinside => ?_⟩
      by_contra hnone
      obtain ⟨s, hs⟩ := infix_iff_exists_drop.mp hinside
      have hbehind : ∀ s, q <+: d.drop s → d.length - o.unit < s := by
        intro s hstart
        refine Nat.lt_of_not_ge fun hle => hnone ⟨s, fun _ => hle, hstart⟩
      refine hnot ⟨?_, h, ?_, ?_, hinside, hbehind⟩
      · -- something is left out
        obtain ⟨c, hc⟩ := List.exists_mem_of_ne_nil q hq.ne_nil
        have hsymbol := List.filter_eq_nil_iff.mp h c hc
        simp only [isSymbol, Bool.not_eq_true', Bool.not_eq_false, Bool.and_eq_true] at hsymbol
        exact hsymbol.1
      · have hlen := hs.length_le
        have hlt := hbehind s hs
        rw [List.length_drop] at hlen
        omega
      · by_contra hfront
        exact hnone ⟨s, fun hany => absurd hany hfront, hs⟩
  · refine iff_of_true (findsPhrase_of_looseText_ne_nil ho hd hq h) ?_
    rintro ⟨-, hnil, -⟩
    exact h hnil

/-- Types of the characters in ASCII. -/
def asciiTypes : Types where
  info c := ⟨if c.isAlpha then .alpha else if c.isDigit then .digit else .symbol, false⟩
  blank _ := rfl

/-- `TokenNgram("n", 2, "loose_symbol", true, "unify_alphabet", false, "unify_digit", false,
"unify_symbol", false)`. -/
def looseBigram : Options where
  unit := 2
  unifyAlphabet := false
  unifyDigit := false
  unifySymbol := false
  ignoreBlank := false
  removeBlank := true
  looseSymbol := true
  looseBlank := false

theorem looseBigram_plain : looseBigram.Plain :=
  ⟨by decide, by decide, rfl, rfl, rfl⟩

/-- A question mark is found at the end of a text without other symbols. -/
theorem findsPhrase_only_symbol :
    looseBigram.Plain ∧ IsText ['a', 'b', '?'] ∧ IsText ['?'] ∧
      FindsPhrase asciiTypes looseBigram ['a', 'b', '?'] ['?'] := by
  have hd : IsText ['a', 'b', '?'] := ⟨by decide, by decide, by decide⟩
  have hq : IsText ['?'] := ⟨by decide, by decide, by decide⟩
  refine ⟨looseBigram_plain, hd, hq, (findsPhrase_iff looseBigram_plain hd hq).mpr ?_⟩
  rintro ⟨-, -, -, hfront, -⟩
  exact absurd hfront (by decide)

/-- It is not found at the end of a text that has another symbol before. -/
theorem not_findsPhrase_second_symbol :
    looseBigram.Plain ∧ IsText ['!', 'a', '?'] ∧ IsText ['?'] ∧
      ¬ FindsPhrase asciiTypes looseBigram ['!', 'a', '?'] ['?'] := by
  refine ⟨looseBigram_plain, ⟨by decide, by decide, by decide⟩, ⟨by decide, by decide, by decide⟩, ?_⟩
  intro h
  have hphrase : tokenize asciiTypes looseBigram .get ['?'] = [⟨0, [0x3f], true⟩] := by decide +kernel
  have hadded : tokenize asciiTypes looseBigram .add ['!', 'a', '?'] =
      [⟨0, [0x21, 0x61], false⟩, ⟨1, [0x61, 0x3f], false⟩, ⟨2, endMark, false⟩,
        ⟨3, [0x61], true⟩] := by decide +kernel
  obtain ⟨s, hs⟩ := h.mpr (by decide +kernel)
  rw [hphrase, hadded] at hs
  obtain ⟨a, ha, -, hdata⟩ := hs _ (List.mem_singleton_self _)
  -- no token begins with a question mark
  have hnone : ∀ a ∈ ([⟨0, [0x21, 0x61], false⟩, ⟨1, [0x61, 0x3f], false⟩, ⟨2, endMark, false⟩,
      ⟨3, [0x61], true⟩] : List CursorToken), ¬ (a.data = [0x3f] ∨ [0x3f] <+: a.data) := by decide
  exact hnone a ha (hdata.imp_right And.right)

end Groonga.Token
