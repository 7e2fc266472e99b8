import Groonga.Load.Reader
import Groonga.Load.Escape
import Mathlib

/-!
# Texts in URLs

A command comes in a URL with its name and its arguments encoded, and the two decoders read up to
a delimiter. They give back what was encoded as long as no delimiter is a byte of the code.
-/

namespace Groonga.Command

open Load

/-! ## Encoding -/

/-- `urlenc_tbl`: is the byte of ASCII encoded? -/
def urlencTbl : List ℕ :=
  [1, 1, 1, 1, 1, 1, 1, 1, 1, 1, 1, 1, 1, 1, 1, 1, 1, 1, 1, 1, 1, 1, 1, 1, 1, 1,
   1, 1, 1, 1, 1, 1, 1, 0, 1, 1, 1, 1, 1, 1, 0, 0, 0, 1, 1, 0, 0, 1, 0, 0, 0, 0,
   0, 0, 0, 0, 0, 0, 1, 1, 1, 1, 1, 1, 0, 0, 0, 0, 0, 0, 0, 0, 0, 0, 0, 0, 0, 0,
   0, 0, 0, 0, 0, 0, 0, 0, 0, 0, 0, 0, 0, 0, 0, 0, 0, 0, 0, 0, 0, 0, 0, 0, 0, 0,
   0, 0, 0, 0, 0, 0, 0, 0, 0, 0, 0, 0, 0, 0, 0, 0, 0, 0, 0, 0, 0, 0, 0, 1]

/-- `(unsigned int)(*s)` for a signed `char`. -/
def signExtend (c : UInt8) : ℕ := if c < 0x80 then c.toNat else 0xffffff00 + c.toNat

def urlencByte (c : UInt8) : List UInt8 :=
  if 0x80 ≤ c ∨ urlencTbl.getD c.toNat 0 ≠ 0 then 0x25 :: grnItoh (signExtend c) 2 else [c]

/-- `grn_text_urlenc`. -/
def grnTextUrlenc (s : List UInt8) : List UInt8 := s.flatMap urlencByte

/-! ## Decoding -/

/-- The loop of `grn_htoui`: the value, and the number of bytes before `rest`. -/
def htouiLoop : ℕ → ℕ → List UInt8 → ℕ × ℕ
  | v, n, [] => (v, n)
  | v, n, c :: str =>
    match hexDigit? c with
    | none => (0, n)
    | some d =>
      let t := (v * 16 + d) % 2 ^ 32
      if t < v then (0, n + 1) else htouiLoop t (n + 1) str

/-- `grn_htoui`. -/
def grnHtoui (str : List UInt8) : ℕ × ℕ := htouiLoop 0 0 str

/-- What both decoders do with a byte that is no delimiter: what they write, and what is left. -/
def decodeByte (c : UInt8) (str : List UInt8) : UInt8 × List UInt8 :=
  if c = 0x25 ∧ 2 ≤ str.length then
    let r := grnHtoui (str.take 2)
    if r.2 = 2 then (UInt8.ofNat r.1, str.drop 2) else (0x25, str)
  else (c, str)

/-- The loop of both decoders: what they write, and what is left behind the delimiter. -/
def decodeLoop (delimits : UInt8 → Bool) (plus : Bool) : ℕ → List UInt8 → List UInt8 × List UInt8
  | 0, str => ([], str)
  | _ + 1, [] => ([], [])
  | fuel + 1, c :: str =>
    if delimits c then ([], str)
    else
      let r := if plus ∧ c = 0x2b then (0x20, str) else decodeByte c str
      let q := decodeLoop delimits plus fuel r.2
      (r.1 :: q.1, q.2)

/-- `grn_text_urldec`. -/
def grnTextUrldec (d : UInt8) (str : List UInt8) : List UInt8 × List UInt8 :=
  decodeLoop (· == d) false str.length str

/-- `grn_text_cgidec`. -/
def grnTextCgidec (delimiters str : List UInt8) : List UInt8 × List UInt8 :=
  decodeLoop (· ∈ delimiters) true str.length str

/-! ## What is decoded is what was encoded -/

variable {delimits : UInt8 → Bool} {plus : Bool} {str rest : List UInt8}

/-- Every byte comes back. -/
theorem decode_urlencByte : ∀ c : UInt8, urlencByte c = [c] ∧ c ≠ 0x25 ∧ c ≠ 0x2b ∨
    ∃ h l, urlencByte c = [0x25, h, l] ∧ grnHtoui [h, l] = (c.toNat, 2) := by
  have hall : ∀ c : UInt8, urlencByte c = [c] ∧ c ≠ 0x25 ∧ c ≠ 0x2b ∨
      urlencByte c = [0x25, (urlencByte c).getD 1 0, (urlencByte c).getD 2 0] ∧
        grnHtoui [(urlencByte c).getD 1 0, (urlencByte c).getD 2 0] = (c.toNat, 2) := by decide +kernel
  intro c
  rcases hall c with hplain | hcode
  · exact .inl hplain
  · exact .inr ⟨_, _, hcode⟩

/-- Most bytes are read as they are. -/
theorem decodeLoop_plain {c : UInt8} {fuel : ℕ} (hc : delimits c = false) (hne : c ≠ 0x25) (hplus : c ≠ 0x2b) :
    decodeLoop delimits plus (fuel + 1) (c :: str) =
      (c :: (decodeLoop delimits plus fuel str).1, (decodeLoop delimits plus fuel str).2) := by
  rw [decodeLoop, hc, if_neg Bool.false_ne_true, if_neg (fun h => hplus h.2), decodeByte, if_neg (fun h => hne h.1)]

/-- A byte of the code is read as one when its first byte does not delimit. -/
theorem decodeLoop_urlencByte {c : UInt8} {fuel : ℕ} (hc : delimits ((urlencByte c).headD 0) = false) :
    decodeLoop delimits plus (fuel + 1) (urlencByte c ++ str) =
      (c :: (decodeLoop delimits plus fuel str).1, (decodeLoop delimits plus fuel str).2) := by
  rcases decode_urlencByte c with ⟨hplain, hne, hplus⟩ | ⟨h, l, heq, hval⟩
  · rw [hplain, List.headD_cons] at hc
    rw [hplain, List.singleton_append, decodeLoop_plain hc hne hplus]
  · have hbyte : decodeByte 0x25 (h :: l :: str) = (c, str) := by
      rw [decodeByte, if_pos ⟨rfl, by simp⟩]
      show (if (grnHtoui [h, l]).2 = 2 then (UInt8.ofNat (grnHtoui [h, l]).1, str) else (0x25, h :: l :: str)) = _
      rw [hval, if_pos rfl, UInt8.ofNat_toNat]
    rw [heq, List.headD_cons] at hc
    rw [heq, List.cons_append, List.cons_append, List.singleton_append, decodeLoop, hc,
      if_neg Bool.false_ne_true, if_neg (fun h => absurd h.2 (by decide)), hbyte]

/-- No byte of a text begins its code with a delimiter. -/
def Passes (delimits : UInt8 → Bool) (s : List UInt8) : Prop := ∀ c ∈ s, delimits ((urlencByte c).headD 0) = false

theorem urlencByte_pos (c : UInt8) :
    1 ≤ (urlencByte c).length ∧ (urlencByte c).head? = some ((urlencByte c).headD 0) := by
  rcases decode_urlencByte c with ⟨heq, -⟩ | ⟨h, l, heq, -⟩
  · rw [heq]
    exact ⟨Nat.le_refl _, rfl⟩
  · rw [heq]
    exact ⟨by simp, rfl⟩

/-- **The decoders undo the code** up to a delimiter or the end, exactly when the text passes. -/
theorem decodeLoop_urlenc_iff (hrest : rest = [] ∨ ∃ d t, rest = d :: t ∧ delimits d = true) (s : List UInt8)
    {fuel : ℕ} (hfuel : (grnTextUrlenc s ++ rest).length ≤ fuel) :
    decodeLoop delimits plus fuel (grnTextUrlenc s ++ rest) = (s, rest.tail) ↔ Passes delimits s := by
  induction s generalizing fuel with
  | nil =>
    refine iff_of_true ?_ fun c hc => absurd hc List.not_mem_nil
    rcases hrest with rfl | ⟨d, t, rfl, hd⟩
    · cases fuel <;> rfl
    · cases fuel with
      | zero => exact absurd hfuel (by simp)
      | succ fuel =>
        show decodeLoop delimits plus (fuel + 1) (d :: t) = ([], t)
        rw [decodeLoop, if_pos hd]
  | cons c s ih =>
    obtain ⟨hpos, hhead⟩ := urlencByte_pos c
    have hcode : grnTextUrlenc (c :: s) = urlencByte c ++ grnTextUrlenc s := List.flatMap_cons
    rw [hcode, List.append_assoc] at hfuel ⊢
    rw [List.length_append] at hfuel
    obtain ⟨fuel, rfl⟩ : ∃ n, fuel = n + 1 := ⟨fuel - 1, by omega⟩
    rw [Passes, List.forall_mem_cons]
    cases hc : delimits ((urlencByte c).headD 0) with
    | false =>
      have hle : (grnTextUrlenc s ++ rest).length ≤ fuel := by omega
      rw [decodeLoop_urlencByte hc, Prod.mk.injEq, List.cons.injEq, ← Passes, ← ih hle, Prod.ext_iff]
      simp only [true_and]
    | true =>
      -- the loop ends in front of the byte
      refine iff_of_false (fun heq => ?_) fun h => Bool.noConfusion h.1
      obtain ⟨bytes, hbytes⟩ := List.head?_eq_some_iff.mp hhead
      rw [hbytes, List.cons_append, decodeLoop, if_pos hc] at heq
      exact List.cons_ne_nil c s (Prod.mk.inj heq).1.symm

/-- A delimiter that is encoded itself, and is not the sign of the code. -/
def Reserved (d : UInt8) : Prop := (urlencByte d).length = 3 ∧ d ≠ 0x25

/-- Every text passes reserved delimiters. -/
theorem passes_of_reserved (h : ∀ d, delimits d = true → Reserved d) (s : List UInt8) : Passes delimits s := by
  have hall : ∀ c : UInt8, ¬ ((urlencByte ((urlencByte c).headD 0)).length = 3 ∧ (urlencByte c).headD 0 ≠ 0x25) := by
    decide +kernel
  intro c _
  by_contra hd
  exact hall c (h _ (Bool.eq_true_of_not_eq_false hd))

theorem grnTextCgidec_urlenc {delimiters : List UInt8} (hd : ∀ d ∈ delimiters, Reserved d) (s : List UInt8)
    (hrest : rest = [] ∨ ∃ d ∈ delimiters, ∃ t, rest = d :: t) :
    grnTextCgidec delimiters (grnTextUrlenc s ++ rest) = (s, rest.tail) := by
  refine (decodeLoop_urlenc_iff ?_ s (Nat.le_refl _)).mpr
    (passes_of_reserved (fun b hb => hd b (of_decide_eq_true hb)) s)
  rcases hrest with hnil | ⟨d, hmem, t, ht⟩
  · exact .inl hnil
  · exact .inr ⟨d, t, ht, decide_eq_true hmem⟩

/-- **Both decoders give a text back**, and what is behind the delimiter, exactly when it passes. -/
theorem decoders_urlenc_iff (d : UInt8) (delimiters s t : List UInt8) :
    (grnTextUrldec d (grnTextUrlenc s ++ d :: t) = (s, t) ↔ Passes (· == d) s) ∧
      (grnTextCgidec (d :: delimiters) (grnTextUrlenc s ++ d :: t) = (s, t) ↔ Passes (· ∈ d :: delimiters) s) := by
  constructor
  · exact @decodeLoop_urlenc_iff (· == d) _ _ (.inr ⟨d, t, rfl, beq_self_eq_true d⟩) s _ (Nat.le_refl _)
  · exact decodeLoop_urlenc_iff (.inr ⟨d, t, rfl, decide_eq_true List.mem_cons_self⟩) s (Nat.le_refl _)

end Groonga.Command
