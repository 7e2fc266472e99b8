import Groonga.Command.Url
import Groonga.Command.Unescape
import Mathlib

/-!
# Commands

A command comes as the path of a URL or as a line. `grn_ctx_qe_exec_uri` and `grn_ctx_qe_exec` read its
name and its arguments, of which some are settings of the context and the others variables of the
command, and execute it. What the settings do, the variables and the execution are a parameter.

The two readers agree on every command whose arguments can be written in both forms.
-/

namespace Groonga.Command

open Load

variable {ε σ : Type}

/-! ## Settings -/

/-- The arguments that are settings. -/
inductive Setting where
  | outputType
  | commandVersion
  | requestId
  | requestTimeout
  | outputPretty
  | outputTraceLog
  | nWorkers
deriving DecidableEq, Repr

def bytesOf (s : String) : List UInt8 := utf8 s.toList

def Setting.name : Setting → List UInt8
  | .outputType => bytesOf "output_type"
  | .commandVersion => bytesOf "command_version"
  | .requestId => bytesOf "request_id"
  | .requestTimeout => bytesOf "request_timeout"
  | .outputPretty => bytesOf "output_pretty"
  | .outputTraceLog => bytesOf "output_trace_log"
  | .nWorkers => bytesOf "n_workers"

/-- The setting of a name, in the order of the source. -/
def setting? (name : List UInt8) : Option Setting :=
  [.outputType, .commandVersion, .requestId, .requestTimeout, .outputPretty, .outputTraceLog, .nWorkers].find?
    fun s => s.name = name

/-- What the readers keep until the end: the timeout is the text for `strtod`, if there is one. -/
structure Args (σ : Type) where
  ctx : σ
  requestId : List UInt8
  requestTimeout : Option (List UInt8)

structure Env (ε σ : Type) where
  /-- `grn_ctx_get`. -/
  get : List UInt8 → Option ε
  /-- `command_proc_p`. -/
  isCommand : ε → Bool
  /-- `get_content_mime_type`. -/
  outputType : List UInt8 → σ → σ
  /-- `get_command_version`, and whether it sets `ctx->rc`. -/
  commandVersion : List UInt8 → σ → σ × Bool
  outputPretty : Bool → σ → σ
  outputTraceLog : Bool → σ → σ
  /-- `get_n_workers`. -/
  nWorkers : List UInt8 → σ → σ
  /-- `grn_expr_get_or_add_var`, and how the variable is set. -/
  getOrAddVar : ε → List UInt8 → σ → Option (List UInt8 → σ)
  /-- `grn_expr_get_var_by_offset`. -/
  getVarByOffset : ε → ℕ → σ → Option (List UInt8 → σ)
  /-- The identifier of the request and the timeout are registered. -/
  register : Args σ → σ
  /-- `grn_expr_exec` of the current expression. -/
  exec : ε → σ → σ
  /-- The error `invalid command name`. -/
  invalid : List UInt8 → σ → σ
  /-- `GRN_EXPR_MISSING_NAME` is executed for a file. -/
  missing : List UInt8 → σ → σ

variable (env : Env ε σ)

/-- A setting is applied, and whether the reader goes to `exit`. -/
def applySetting (s : Setting) (value : List UInt8) (a : Args σ) : Args σ × Bool :=
  match s with
  | .outputType => ({ a with ctx := env.outputType value a.ctx }, false)
  | .commandVersion => ({ a with ctx := (env.commandVersion value a.ctx).1 }, (env.commandVersion value a.ctx).2)
  | .requestId => ({ a with requestId := value }, false)
  | .requestTimeout => ({ a with requestTimeout := some value }, false)
  | .outputPretty => ({ a with ctx := env.outputPretty (value = bytesOf "yes") a.ctx }, false)
  | .outputTraceLog => ({ a with ctx := env.outputTraceLog (value = bytesOf "yes") a.ctx }, false)
  | .nWorkers => ({ a with ctx := env.nWorkers value a.ctx }, false)

/-! ## Commands in URLs -/

/-- `grn_str_get_mime_type`: the bytes before `key_end`, the type if there is one, and the bytes before
`filename_end`. -/
def grnStrGetMimeType (v : List UInt8) : List UInt8 × Option (List UInt8) × List UInt8 :=
  let filename := v.takeWhile fun c => c ≠ 0x3f ∧ c ≠ 0x23
  let type := (filename.reverse.takeWhile (· ≠ 0x2e)).reverse
  if 0x2e ∈ filename then (filename.take (filename.length - type.length - 1), some type, filename)
  else (v, none, filename)

/-- The loop of `grn_ctx_qe_exec_uri`. -/
def uriLoop (e : ε) : ℕ → List UInt8 → Args σ → Args σ × Bool
  | 0, _, a => (a, false)
  | _ + 1, [], a => (a, false)
  | fuel + 1, c :: p, a =>
    let name := grnTextCgidec [0x3d] (c :: p)
    let value := grnTextCgidec [0x26, 0x3b] name.2
    match setting? name.1 with
    | some s =>
      let r := applySetting env s value.1 a
      if r.2 then r else uriLoop e fuel value.2 r.1
    | none =>
      match env.getOrAddVar e name.1 a.ctx with
      | some set => uriLoop e fuel value.2 { a with ctx := set value.1 }
      | none => uriLoop e fuel value.2 a

/-- `grn_ctx_qe_exec_uri`. -/
def grnCtxQeExecUri (path : List UInt8) (ctx : σ) : σ :=
  let d := grnTextUrldec 0x3f path
  let v := if d.1 = [] then bytesOf "index.html" else d.1
  let m := grnStrGetMimeType v
  let ctx := (m.2.1.map fun type => env.outputType type ctx).getD ctx
  if v.take 2 = bytesOf "d/" then
    let name := m.1.drop 2
    match (env.get name).filter env.isCommand with
    | some e =>
      let r := uriLoop env e d.2.length d.2 ⟨ctx, [], none⟩
      if r.2 then r.1.ctx else env.exec e (env.register r.1)
    | none => env.invalid name ctx
  else env.missing m.2.2 ctx

/-! ## Commands on lines -/

/-- The loop of `grn_ctx_qe_exec`. -/
def lineLoop (expr : Option ε) : ℕ → List UInt8 → ℕ → Args σ → Args σ × Bool
  | 0, _, _, a => (a, false)
  | _ + 1, [], _, a => (a, false)
  | fuel + 1, c :: p, offset, a =>
    let t := grnTextUnescTok (c :: p)
    let positional := match expr.bind fun e => env.getVarByOffset e offset a.ctx with
      | some set => lineLoop expr fuel t.rest (offset + 1) { a with ctx := set t.buf }
      | none => (a, false)
    match t.stat with
    | ⟨.void, false⟩ => (a, false)
    | ⟨.symbol, false⟩ =>
      if 2 < t.buf.length ∧ t.buf.take 2 = bytesOf "--" then
        let name := t.buf.drop 2
        let value := grnTextUnescTok t.rest
        match setting? name with
        | some s =>
          let r := applySetting env s value.buf a
          if r.2 then r else lineLoop expr fuel value.rest offset r.1
        | none =>
          match expr.bind fun e => env.getOrAddVar e name a.ctx with
          | some set => lineLoop expr fuel value.rest offset { a with ctx := set value.buf }
          | none => (a, false)
      else positional
    | ⟨.string, false⟩ => positional
    | ⟨.quote, false⟩ => positional
    -- the line ends in an escape
    | ⟨_, true⟩ => lineLoop expr fuel t.rest offset a

/-- `grn_ctx_qe_exec`. -/
def grnCtxQeExec (str : List UInt8) (ctx : σ) : σ :=
  let t := grnTextUnescTok str
  let r := lineLoop env (env.get t.buf) t.rest.length t.rest 0 ⟨ctx, [], none⟩
  if r.2 then r.1.ctx
  else
    match (env.get t.buf).filter env.isCommand with
    | some e => env.exec e (env.register r.1)
    | none => if t.buf = [] then env.register r.1 else env.invalid t.buf (env.register r.1)

/-! ## What a command does -/

/-- The arguments of a command, one after the other. -/
def setArgs (e : ε) : List (List UInt8 × List UInt8) → Args σ → Args σ × Bool
  | [], a => (a, false)
  | (name, value) :: args, a =>
    match setting? name with
    | some s =>
      let r := applySetting env s value a
      if r.2 then r else setArgs e args r.1
    | none =>
      match env.getOrAddVar e name a.ctx with
      | some set => setArgs e args { a with ctx := set value }
      | none => setArgs e args a

/-- A command with its arguments. -/
def runCommand (e : ε) (args : List (List UInt8 × List UInt8)) (ctx : σ) : σ :=
  let r := setArgs env e args ⟨ctx, [], none⟩
  if r.2 then r.1.ctx else env.exec e (env.register r.1)

/-- The arguments as the query of a URL. -/
def queryOf : List (List UInt8 × List UInt8) → List UInt8
  | [] => []
  | [(name, value)] => grnTextUrlenc name ++ (0x3d :: (grnTextUrlenc value ++ []))
  | (name, value) :: args => grnTextUrlenc name ++ (0x3d :: (grnTextUrlenc value ++ (0x26 :: queryOf args)))

/-- A command as the path of a URL. -/
def uriOf (name : List UInt8) (args : List (List UInt8 × List UInt8)) : List UInt8 :=
  bytesOf "d/" ++ (grnTextUrlenc name ++ (0x3f :: queryOf args))

/-- The arguments on a line. -/
def optionsOf : List (List Char × List Char) → List UInt8
  | [] => []
  | (name, value) :: args =>
    0x20 :: (utf8 ('-' :: '-' :: name) ++ (0x20 :: (grnTextEsc (utf8 value) ++ optionsOf args)))

/-- A command as a line. -/
def lineOf (name : List Char) (args : List (List Char × List Char)) : List UInt8 := utf8 name ++ optionsOf args

variable {env} {e : ε} {args : List (List UInt8 × List UInt8)} {ctx : σ}

/-! ## URLs -/

theorem queryOf_cons (name value : List UInt8) (args : List (List UInt8 × List UInt8)) :
    ∃ rest, queryOf ((name, value) :: args) = grnTextUrlenc name ++ (0x3d :: (grnTextUrlenc value ++ rest)) ∧
      (rest = [] ∨ ∃ d ∈ [0x26, 0x3b], ∃ t, rest = d :: t) ∧ rest.tail = queryOf args := by
  cases args with
  | nil => exact ⟨[], rfl, .inl rfl, rfl⟩
  | cons b args => exact ⟨0x26 :: queryOf (b :: args), rfl, .inr ⟨0x26, List.mem_cons_self, _, rfl⟩, rfl⟩

/-- The delimiters are encoded. -/
theorem reserved_delimiters : (∀ d ∈ [0x3d], Reserved d) ∧ (∀ d ∈ [0x26, 0x3b], Reserved d) ∧ Reserved 0x3f := by
  unfold Reserved
  decide +kernel

theorem bytesOf_slash : bytesOf "d/" = [0x64, 0x2f] := by decide +kernel

/-- The loop reads the arguments. -/
theorem uriLoop_queryOf (args : List (List UInt8 × List UInt8)) (a : Args σ) {fuel : ℕ}
    (hfuel : (queryOf args).length ≤ fuel) : uriLoop env e fuel (queryOf args) a = setArgs env e args a := by
  induction args generalizing a fuel with
  | nil => cases fuel <;> rfl
  | cons b args ih =>
    obtain ⟨name, value⟩ := b
    obtain ⟨rest, heq, hrest, htail⟩ := queryOf_cons name value args
    have hname := grnTextCgidec_urlenc reserved_delimiters.1 name
      (.inr ⟨0x3d, List.mem_cons_self, grnTextUrlenc value ++ rest, rfl⟩)
    have hvalue := grnTextCgidec_urlenc reserved_delimiters.2.1 value hrest
    rw [List.tail_cons] at hname
    rw [htail] at hvalue
    rw [heq] at hfuel ⊢
    have hlen : (queryOf args).length ≤ rest.length := by
      rw [← htail, List.length_tail]
      exact Nat.sub_le _ _
    rw [List.length_append, List.length_cons, List.length_append] at hfuel
    obtain ⟨fuel, rfl⟩ : ∃ n, fuel = n + 1 := ⟨fuel - 1, by omega⟩
    have hle : (queryOf args).length ≤ fuel := by omega
    obtain ⟨c, p, hquery⟩ := List.exists_cons_of_ne_nil
      (List.append_ne_nil_of_right_ne_nil (grnTextUrlenc name) (List.cons_ne_nil 0x3d (grnTextUrlenc value ++ rest)))
    rw [hquery] at hname ⊢
    rw [uriLoop, setArgs]
    dsimp only
    rw [hname]
    dsimp only
    rw [hvalue]
    cases setting? name with
    | some s => exact congrArg (ite _ _) (ih _ hle)
    | none =>
      dsimp only
      cases env.getOrAddVar e name a.ctx with
      | some set => exact ih _ hle
      | none => exact ih _ hle

/-- The name of a command has no type. -/
def NoType (name : List UInt8) : Prop := ∀ c ∈ name, c ≠ 0x2e ∧ c ≠ 0x3f ∧ c ≠ 0x23

/-- **A command in a URL** is executed with its arguments. -/
theorem grnCtxQeExecUri_uriOf {name : List UInt8} (hname : NoType name)
    (hget : (env.get name).filter env.isCommand = some e) :
    grnCtxQeExecUri env (uriOf name args) ctx = runCommand env e args ctx := by
  have hpath : grnTextUrldec 0x3f (uriOf name args) = (0x64 :: 0x2f :: name, queryOf args) := by
    have hrest : decodeLoop (· == 0x3f) false (grnTextUrlenc name ++ 0x3f :: queryOf args).length
        (grnTextUrlenc name ++ 0x3f :: queryOf args) = (name, queryOf args) := by
      have hpass : Passes (· == 0x3f) name := passes_of_reserved
        (fun b (hb : (b == 0x3f) = true) => eq_of_beq hb ▸ reserved_delimiters.2.2) name
      refine (decodeLoop_urlenc_iff ?_ name (Nat.le_refl _)).mpr hpass
      exact .inr ⟨0x3f, queryOf args, rfl, beq_self_eq_true _⟩
    rw [uriOf, bytesOf_slash, grnTextUrldec, List.length_append, Nat.add_comm]
    show decodeLoop _ _ (_ + 1 + 1) (0x64 :: 0x2f :: (grnTextUrlenc name ++ 0x3f :: queryOf args)) = _
    rw [decodeLoop_plain (by decide) (by decide) (by decide), decodeLoop_plain (by decide) (by decide) (by decide),
      hrest]
  have hall : ∀ c ∈ 0x64 :: 0x2f :: name, c ≠ 0x2e ∧ c ≠ 0x3f ∧ c ≠ 0x23 :=
    List.forall_mem_cons.mpr ⟨by decide, List.forall_mem_cons.mpr ⟨by decide, hname⟩⟩
  have hfile : (0x64 :: 0x2f :: name).takeWhile (fun c => c ≠ 0x3f ∧ c ≠ 0x23) = 0x64 :: 0x2f :: name :=
    List.takeWhile_eq_self_iff.mpr fun c hc => decide_eq_true (hall c hc).2
  have hmime : grnStrGetMimeType (0x64 :: 0x2f :: name) = (0x64 :: 0x2f :: name, none, 0x64 :: 0x2f :: name) := by
    rw [grnStrGetMimeType, hfile, if_neg fun hmem => (hall _ hmem).1 rfl]
  rw [grnCtxQeExecUri, hpath]
  dsimp only
  rw [if_neg (List.cons_ne_nil _ _), hmime, bytesOf_slash]
  dsimp only [Option.map_none, Option.getD_none]
  have htake : (0x64 :: 0x2f :: name).take 2 = [0x64, 0x2f] := rfl
  have hdrop : (0x64 :: 0x2f :: name).drop 2 = name := rfl
  rw [if_pos htake, hdrop, hget]
  exact congrArg (fun r : Args σ × Bool => if r.2 then r.1.ctx else env.exec e (env.register r.1))
    (uriLoop_queryOf args _ (Nat.le_refl _))

/-! ## Lines -/

/-- A character of a symbol that is not escaped. -/
def plainChar (c : Char) : Bool := c ∉ ['\x00', ' ', '"', '\'', '(', ')', '\\']

/-- A plain character begins and continues a symbol. -/
theorem unescStep_plain {c : Char} (hc : plainChar c = true) :
    unescStep ⟨.void, false⟩ (String.utf8EncodeChar c) = (String.utf8EncodeChar c, ⟨.symbol, false⟩, .next) ∧
      unescStep ⟨.symbol, false⟩ (String.utf8EncodeChar c) = (String.utf8EncodeChar c, ⟨.symbol, false⟩, .next) := by
  by_cases hlt : c.toNat < 128
  · have hascii : ∀ x < 128, plainChar (Char.ofNat x) = true →
        unescStep ⟨.void, false⟩ (String.utf8EncodeChar (Char.ofNat x)) =
          (String.utf8EncodeChar (Char.ofNat x), ⟨.symbol, false⟩, .next) ∧
        unescStep ⟨.symbol, false⟩ (String.utf8EncodeChar (Char.ofNat x)) =
          (String.utf8EncodeChar (Char.ofNat x), ⟨.symbol, false⟩, .next) := by decide +kernel
    have hall := hascii c.toNat hlt
    rw [Char.ofNat_toNat] at hall
    exact hall hc
  · obtain ⟨first, others, heq, hhigh, -⟩ := high_of_toNat (not_lt.mp hlt)
    have hne : ∀ b ∈ [0x20, 0x22, 0x27, 0x28, 0x29, 0x5c], first ≠ b := fun b hb h => by
      have hlow : ∀ b ∈ ([0x20, 0x22, 0x27, 0x28, 0x29, 0x5c] : List UInt8), ¬ 0x80 ≤ b := by decide +kernel
      exact hlow b hb (h ▸ hhigh)
    simp only [List.forall_mem_cons] at hne
    obtain ⟨h20, h22, h27, h28, h29, h5c, -⟩ := hne
    rw [heq]
    constructor
    · simp [unescStep, h20, h22, h27, h28, h29, h5c]
    · simp [unescStep, h20, h22, h27, h28, h29, h5c]

/-- **A symbol** up to a space or the end. -/
theorem grnTextUnescTok_symbol {text : List Char} (hne : text ≠ []) (hplain : text.all plainChar = true)
    {rest : List UInt8} (hrest : rest = [] ∨ ∃ t, rest = 0x20 :: t) :
    grnTextUnescTok (utf8 text ++ rest) = ⟨utf8 text, ⟨.symbol, false⟩, rest⟩ := by
  have hnul : ∀ c : Char, plainChar c = true → c ≠ '\x00' := by
    rintro c hc rfl
    exact absurd hc (by decide)
  have hsymbol : ∀ text : List Char, text.all plainChar = true →
      runChars ⟨.symbol, false⟩ text = some (utf8 text, ⟨.symbol, false⟩) := by
    intro text htext
    induction text with
    | nil => rfl
    | cons c text ih =>
      obtain ⟨hc, htext⟩ := (Bool.and_eq_true _ _).mp htext
      rw [runChars, (unescStep_plain hc).2, if_pos ⟨hnul c hc, rfl⟩, ih htext]
      rfl
  have hrun : runChars ⟨.void, false⟩ text = some (utf8 text, ⟨.symbol, false⟩) := by
    obtain ⟨c, text, rfl⟩ := List.exists_cons_of_ne_nil hne
    obtain ⟨hc, htext⟩ := (Bool.and_eq_true _ _).mp hplain
    rw [runChars, (unescStep_plain hc).1, if_pos ⟨hnul c hc, rfl⟩, hsymbol text htext]
    rfl
  obtain ⟨fuel, hfuel, heq⟩ := grnTextUnescTok_run hrun rest
  have hend : unescTokLoop fuel ⟨.symbol, false⟩ rest = ⟨[], ⟨.symbol, false⟩, rest⟩ := by
    rcases hrest with rfl | ⟨t, rfl⟩
    · cases fuel <;> rfl
    · obtain ⟨n, rfl⟩ := Nat.exists_eq_add_of_le' (Nat.le_trans (Nat.le_add_left 1 t.length) hfuel)
      exact @unescTokLoop_char ⟨.symbol, false⟩ ' ' n t (by decide)
  rw [heq, hend, Token.behind, List.append_nil]

theorem optionsOf_space (args : List (List Char × List Char)) :
    optionsOf args = [] ∨ ∃ t, optionsOf args = 0x20 :: t := by
  cases args with
  | nil => exact .inl rfl
  | cons b args => exact .inr ⟨_, rfl⟩

/-- An argument can be written on a line. -/
def Writable (b : List Char × List Char) : Prop :=
  b.1 ≠ [] ∧ b.1.all plainChar = true ∧ ∀ c ∈ b.2, ¬ CodePoint c

/-- The bytes of the arguments. -/
def bytesArgs (args : List (List Char × List Char)) : List (List UInt8 × List UInt8) :=
  args.map fun b => (utf8 b.1, utf8 b.2)

/-- The loop reads the arguments, when every variable can be had. -/
theorem lineLoop_optionsOf (hvars : ∀ name ctx, (env.getOrAddVar e name ctx).isSome)
    {args : List (List Char × List Char)} (hargs : ∀ b ∈ args, Writable b) (offset : ℕ) (a : Args σ) {fuel : ℕ} (hfuel : (optionsOf args).length ≤ fuel) :
    lineLoop env (some e) fuel (optionsOf args) offset a = setArgs env e (bytesArgs args) a := by
  induction args generalizing a fuel with
  | nil => cases fuel <;> rfl
  | cons b args ih =>
    obtain ⟨name, value⟩ := b
    obtain ⟨⟨hne, hplain, hvalue⟩, hargs⟩ := List.forall_mem_cons.mp hargs
    have hname := @grnTextUnescTok_symbol ('-' :: '-' :: name) (List.cons_ne_nil _ _) hplain
      (0x20 :: (grnTextEsc (utf8 value) ++ optionsOf args)) (.inr ⟨_, rfl⟩)
    have hlen : 2 < (utf8 ('-' :: '-' :: name)).length := by
      have hpos := length_le_length_utf8 ('-' :: '-' :: name)
      have hpos' : 0 < name.length := List.length_pos_iff.mpr hne
      rw [List.length_cons, List.length_cons] at hpos
      omega
    have hdashes : utf8 ('-' :: '-' :: name) = bytesOf "--" ++ utf8 name := utf8_append ['-', '-'] name
    have htwo : (bytesOf "--").length = 2 := rfl
    have hoption : (utf8 ('-' :: '-' :: name)).take 2 = bytesOf "--" := hdashes ▸ List.take_left' htwo
    have hdrop : (utf8 ('-' :: '-' :: name)).drop 2 = utf8 name := hdashes ▸ List.drop_left' htwo
    rw [optionsOf] at hfuel ⊢
    have hle : (optionsOf args).length + 1 ≤ fuel := by
      rw [List.length_cons, List.length_append, List.length_cons, List.length_append] at hfuel
      omega
    obtain ⟨fuel, rfl⟩ := Nat.exists_eq_add_of_le' (Nat.le_trans (Nat.le_add_left 1 _) hle)
    have hle' := Nat.le_of_succ_le_succ hle
    rw [lineLoop, grnTextUnescTok_space, hname]
    dsimp only
    rw [if_pos ⟨hlen, hoption⟩, hdrop, grnTextUnescTok_space, grnTextUnescTok_esc,
      (flatMap_backChar_iff value).mpr hvalue, bytesArgs, List.map_cons, setArgs]
    dsimp only
    cases setting? (utf8 name) with
    | some s => exact congrArg (ite _ _) (ih hargs _ hle')
    | none =>
      obtain ⟨set, hset⟩ := Option.isSome_iff_exists.mp (hvars (utf8 name) a.ctx)
      rw [Option.bind_some, hset]
      exact ih hargs _ hle'

/-- **A command on a line** is executed with its arguments. -/
theorem grnCtxQeExec_lineOf {name : List Char} (hne : name ≠ []) (hplain : name.all plainChar = true)
    (hget : (env.get (utf8 name)).filter env.isCommand = some e)
    (hvars : ∀ name ctx, (env.getOrAddVar e name ctx).isSome) {args : List (List Char × List Char)}
    (hargs : ∀ b ∈ args, Writable b) :
    grnCtxQeExec env (lineOf name args) ctx = runCommand env e (bytesArgs args) ctx := by
  have hname : grnTextUnescTok (lineOf name args) = ⟨utf8 name, ⟨.symbol, false⟩, optionsOf args⟩ :=
    grnTextUnescTok_symbol hne hplain (optionsOf_space args)
  have hexpr : env.get (utf8 name) = some e := (Option.filter_eq_some_iff.mp hget).1
  rw [grnCtxQeExec, hname]
  dsimp only
  rw [hget, hexpr, lineLoop_optionsOf hvars hargs 0 _ (Nat.le_refl _)]
  rfl

/-- **The two readers agree** on a command that can be written in both forms. -/
theorem grnCtxQeExecUri_eq {name : List Char} (hne : name ≠ []) (hplain : name.all plainChar = true)
    (htype : NoType (utf8 name)) (hget : (env.get (utf8 name)).filter env.isCommand = some e)
    (hvars : ∀ name ctx, (env.getOrAddVar e name ctx).isSome) {args : List (List Char × List Char)}
    (hargs : ∀ b ∈ args, Writable b) (ctx : σ) :
    grnCtxQeExecUri env (uriOf (utf8 name) (bytesArgs args)) ctx = grnCtxQeExec env (lineOf name args) ctx := by
  rw [grnCtxQeExecUri_uriOf htype hget, grnCtxQeExec_lineOf hne hplain hget hvars hargs]

/-- The command `select`; what is done is kept, the last first. -/
def recordingEnv : Env Unit (List (List UInt8)) where
  get name := if name = bytesOf "select" then some () else none
  isCommand _ := true
  outputType value := List.cons value
  commandVersion value ctx := (value :: ctx, false)
  outputPretty _ := id
  outputTraceLog _ := id
  nWorkers value := List.cons value
  getOrAddVar _ name ctx := some fun value => name :: value :: ctx
  getVarByOffset _ _ ctx := some (· :: ctx)
  register a := a.requestId :: a.ctx
  exec _ := List.cons (bytesOf "select")
  invalid := List.cons
  missing := List.cons

theorem grnCtxQeExecUri_eq_select :
    grnCtxQeExecUri recordingEnv (uriOf (utf8 "select".toList) (bytesArgs [("table".toList, ['a', ' ', 'b'])])) [] =
      grnCtxQeExec recordingEnv (lineOf "select".toList [("table".toList, ['a', ' ', 'b'])]) [] := by
  refine grnCtxQeExecUri_eq (by decide) (by decide) ?_ (show _ = some () by decide) (fun _ _ => rfl) ?_ []
  · unfold NoType
    decide +kernel
  · intro b hb
    obtain rfl := List.mem_singleton.mp hb
    exact ⟨by decide, by decide, by simp [CodePoint]⟩

end Groonga.Command
