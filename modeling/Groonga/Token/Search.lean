import Groonga.Token.Phrase
import Groonga.Ii.PhraseSearch
import Mathlib

/-!
# Searching documents

Documents are added to an index with their tokens, and a phrase is searched for with its own: the token
infos have the places of the tokens in the phrase, and the cursors of the terms. The search finds the
documents of which the phrase is a part.
-/

namespace Groonga.Token

open Ii

variable {types : Types} {o : Options} {q : List Char} {ii : Layout} {query : SelectQuery}
  {docs : Docid → Option (List Char)} {terms : CursorToken → List Term} {hss : CursorToken → List (List Hit)}
  {gs : List CursorToken}

/-- The postings are the places of a token, or of those it is the beginning of, in the documents. -/
def Indexes (types : Types) (o : Options) (docs : Docid → Option (List Char)) (g : CursorToken)
    (hs : List Hit) : Prop :=
  ∀ (d : Docid) (p : ℕ), (∃ h ∈ hs, h.docid = d ∧ p ∈ h.pos) ↔ ∃ text ∈ docs d, ∃ a ∈ tokenize types o .add text,
    a.pos = p ∧ (a.data = g.data ∨ (g.forcePrefix = true ∧ g.data <+: a.data))

/-- The token infos of `token_info_build_phrase` for `GRN_OP_EXACT`: `terms` are those that
`token_info_open` opens cursors on. -/
def tokenInfoBuildPhrase (terms : CursorToken → List Term) (gs : List CursorToken) : List QueryToken :=
  gs.map fun g => .plain g.pos.toNat (terms g)

/-- The matches in a document begin where all the tokens are. -/
theorem mem_phraseIn_iff {d : Docid} {p : ℕ} : p ∈ phraseIn ((tokenInfoBuildPhrase terms gs).zip (gs.map hss)) d ↔
    ∀ g ∈ gs, ∃ h ∈ (hss g).flatten, h.docid = d ∧ p + g.pos.toNat ∈ h.pos := by
  rw [tokenInfoBuildPhrase, List.zip_map']
  exact List.forall_mem_map

/-- **The phrase is found** in the documents whose tokens it matches. -/
theorem nonempty_phraseIn_iff (ho : o.Plain) (hdocs : ∀ d, ∀ text ∈ docs d, IsText text) (hq : IsText q)
    (hindex : ∀ g ∈ tokenize types o .get q, Indexes types o docs g (hss g).flatten) (d : Docid) :
    (phraseIn ((tokenInfoBuildPhrase terms (tokenize types o .get q)).zip
        ((tokenize types o .get q).map hss)) d).Nonempty ↔
      ∃ text ∈ docs d, MatchesPhrase (tokenize types o .add text) (tokenize types o .get q) := by
  have hpos : ∀ g ∈ tokenize types o .get q, 0 ≤ g.pos := fun g hg => by
    obtain ⟨k, -, rfl⟩ := (mem_tokens_start_get ho hq.noNul hq.ne_nil (Nat.le_refl _)).mp hg
    exact Int.natCast_nonneg k
  have hfirst := (@mem_tokens_start_get types o q _ _ ho hq.noNul hq.ne_nil (Nat.le_refl _)).mpr
    ⟨0, Nat.zero_le _, rfl⟩
  constructor
  · rintro ⟨p, hp⟩
    rw [mem_phraseIn_iff] at hp
    obtain ⟨text, htext, -⟩ := (hindex _ hfirst d _).mp (hp _ hfirst)
    refine ⟨text, htext, p, fun g hg => ?_⟩
    obtain ⟨text', htext', a, ha, hat, hdata⟩ := (hindex g hg d _).mp (hp g hg)
    obtain rfl := Option.some.inj (htext.symm.trans htext')
    have hnonneg := hpos g hg
    exact ⟨a, ha, by omega, hdata⟩
  · rintro ⟨text, htext, s, hs⟩
    obtain ⟨a, ha, hat, -⟩ := hs _ hfirst
    have htext' := hdocs d text htext
    obtain ⟨k, -, hk, -, -⟩ := (exists_mem_tokenize_add ho htext'.noNul htext'.ne_nil).mp ⟨a, ha, rfl, rfl⟩
    simp only [Nat.cast_zero, add_zero] at hat
    refine ⟨k, mem_phraseIn_iff.mpr fun g hg => (hindex g hg d _).mpr ?_⟩
    obtain ⟨a', ha', hat', hdata⟩ := hs g hg
    have hnonneg := hpos g hg
    exact ⟨text, htext, a', ha', by push_cast; omega, hdata⟩

/-- The text `abc` in a record. -/
def oneDoc (d : Docid) : Option (List Char) := if d = ⟨1, 1⟩ then some ['a', 'b', 'c'] else none

end Groonga.Token
