import Mathlib

/-!
# JSON texts

The texts of RFC 8259 as trees: a tree has every choice a writer has, the spaces, the form of
a number and how each character of a string is written, so that a text is valid exactly when
it is the text of a tree. A text comes as the list of its characters, each one with its bytes
in UTF-8.

Surrogates are written in pairs, so that every string is a list of Unicode characters.
-/

namespace Groonga.Lib.JsonText

/-! ## Spaces and numbers -/

inductive Space where
  | space
  | tab
  | lineFeed
  | carriageReturn
deriving DecidableEq, Repr

def Space.byte : Space → UInt8
  | .space => 0x20
  | .tab => 0x09
  | .lineFeed => 0x0a
  | .carriageReturn => 0x0d

/-- The characters of spaces. -/
def spaces (ws : List Space) : List (List UInt8) := ws.map fun w => [w.byte]

def digitByte (d : Fin 10) : UInt8 := 0x30 + UInt8.ofNat d

/-- The integer part of a number has no zero in front. -/
inductive IntPart where
  | zero
  | digits (first : Fin 9) (rest : List (Fin 10))
deriving DecidableEq, Repr

def IntPart.toDigits : IntPart → List (Fin 10)
  | .zero => [0]
  | .digits first rest => first.succ :: rest

structure Exponent where
  upper : Bool
  /-- The sign if there is one: is it `-`? -/
  sign : Option Bool
  first : Fin 10
  rest : List (Fin 10)
deriving DecidableEq, Repr

structure Number where
  negative : Bool
  int : IntPart
  frac : Option (Fin 10 × List (Fin 10))
  exp : Option Exponent
deriving DecidableEq, Repr

def signByte (negative : Bool) : UInt8 := if negative then 0x2d else 0x2b

def Exponent.bytes (e : Exponent) : List UInt8 :=
  (if e.upper then 0x45 else 0x65) :: (e.sign.map signByte).toList ++
    (e.first :: e.rest).map digitByte

/-- The bytes behind the integer part. -/
def Number.tail (n : Number) : List UInt8 :=
  (match n.frac with
    | none => []
    | some (first, rest) => 0x2e :: (first :: rest).map digitByte) ++
  (match n.exp with
    | none => []
    | some e => e.bytes)

def Number.bytes (n : Number) : List UInt8 :=
  (if n.negative then [0x2d] else []) ++ (n.int.toDigits.map digitByte ++ n.tail)

/-- The number is written as an integer. -/
def Number.isInteger (n : Number) : Bool := n.frac.isNone && n.exp.isNone

/-- The value of digits, behind the value of those before. -/
def ofDigits (v : ℕ) (ds : List (Fin 10)) : ℕ := ds.foldl (fun v d => v * 10 + d.val) v

/-- The integer part without the sign. -/
def Number.natAbs (n : Number) : ℕ := ofDigits 0 n.int.toDigits

/-- The number 1.5, or -1.5. -/
def Number.oneAndHalf (negative : Bool) : Number := ⟨negative, .digits 0 [], some (5, []), none⟩

/-! ## Strings -/

structure Hex where
  value : Fin 16
  upper : Bool
deriving DecidableEq, Repr

/-- The digit 0. -/
def Hex.zero : Hex := ⟨0, true⟩

def Hex.byte (h : Hex) : UInt8 :=
  if h.value < 10 then 0x30 + UInt8.ofNat h.value
  else if h.upper then 0x41 + UInt8.ofNat (h.value - 10)
  else 0x61 + UInt8.ofNat (h.value - 10)

/-- The digits behind a `\u`. -/
structure Hex4 where
  first : Hex
  second : Hex
  third : Hex
  fourth : Hex
deriving DecidableEq, Repr

def Hex4.value (h : Hex4) : ℕ :=
  h.first.value * 0x1000 + h.second.value * 0x100 + h.third.value * 0x10 + h.fourth.value

theorem Hex4.value_lt (h : Hex4) : h.value < 0x10000 := by
  have h1 := h.first.value.isLt
  have h2 := h.second.value.isLt
  have h3 := h.third.value.isLt
  have h4 := h.fourth.value.isLt
  unfold Hex4.value
  omega

def Hex4.IsHigh (h : Hex4) : Prop := 0xd800 ≤ h.value ∧ h.value ≤ 0xdbff

def Hex4.IsLow (h : Hex4) : Prop := 0xdc00 ≤ h.value ∧ h.value ≤ 0xdfff

def Hex4.chars (h : Hex4) : List (List UInt8) :=
  [[0x5c], [0x75], [h.first.byte], [h.second.byte], [h.third.byte], [h.fourth.byte]]

inductive Escape where
  | quote
  | backslash
  | slash
  | backspace
  | formFeed
  | lineFeed
  | carriageReturn
  | tab
deriving DecidableEq, Repr

/-- What is behind the backslash. -/
def Escape.byte : Escape → UInt8
  | .quote => 0x22
  | .backslash => 0x5c
  | .slash => 0x2f
  | .backspace => 0x62
  | .formFeed => 0x66
  | .lineFeed => 0x6e
  | .carriageReturn => 0x72
  | .tab => 0x74

/-- What it means. -/
def Escape.decode : Escape → UInt8
  | .quote => 0x22
  | .backslash => 0x5c
  | .slash => 0x2f
  | .backspace => 0x08
  | .formFeed => 0x0c
  | .lineFeed => 0x0a
  | .carriageReturn => 0x0d
  | .tab => 0x09

/-- One character of a string, as it is written. -/
inductive StringChar where
  | plain (c : Char) (h : 0x20 ≤ c.toNat ∧ c ≠ '"' ∧ c ≠ '\\')
  | escape (e : Escape)
  | unicode (u : Hex4) (high : ¬ u.IsHigh) (low : ¬ u.IsLow)
  | surrogates (hi lo : Hex4) (high : hi.IsHigh) (low : lo.IsLow)

def StringChar.chars : StringChar → List (List UInt8)
  | .plain c _ => [String.utf8EncodeChar c]
  | .escape e => [[0x5c], [e.byte]]
  | .unicode u _ _ => u.chars
  | .surrogates hi lo _ _ => hi.chars ++ lo.chars

/-- The code point of a surrogate pair. -/
def pairValue (hi lo : Hex4) : ℕ := 0x10000 + (hi.value - 0xd800) * 0x400 + (lo.value - 0xdc00)

def StringChar.decode : StringChar → List UInt8
  | .plain c _ => String.utf8EncodeChar c
  | .escape e => [e.decode]
  | .unicode u _ _ => String.utf8EncodeChar (Char.ofNat u.value)
  | .surrogates hi lo _ _ => String.utf8EncodeChar (Char.ofNat (pairValue hi lo))

def stringChars (s : List StringChar) : List (List UInt8) :=
  [[0x22]] ++ s.flatMap StringChar.chars ++ [[0x22]]

def decodeString (s : List StringChar) : List UInt8 := s.flatMap StringChar.decode

/-! ## Values -/

mutual

inductive Value where
  | null
  | true
  | false
  | number (n : Number)
  | string (s : List StringChar)
  | array (inside : List Space) (items : Items)
  | object (inside : List Space) (members : Members)

/-- The values of an array, each one between spaces. -/
inductive Items where
  | nil
  | cons (before : List Space) (v : Value) (after : List Space) (items : Items)

/-- The members of an object: a name between spaces, a colon, a value between spaces. -/
inductive Members where
  | nil
  | cons (before : List Space) (name : List StringChar) (behind : List Space)
      (inner : List Space) (v : Value) (after : List Space) (members : Members)

end

/-- The comma between a value and the next ones. -/
def Items.comma : Items → List (List UInt8)
  | .nil => []
  | .cons .. => [[0x2c]]

def Members.comma : Members → List (List UInt8)
  | .nil => []
  | .cons .. => [[0x2c]]

/-- The characters of ASCII bytes. -/
def asciiChars (bytes : List UInt8) : List (List UInt8) := bytes.map fun b => [b]

mutual

def Value.chars : Value → List (List UInt8)
  | .null => asciiChars [0x6e, 0x75, 0x6c, 0x6c]
  | .true => asciiChars [0x74, 0x72, 0x75, 0x65]
  | .false => asciiChars [0x66, 0x61, 0x6c, 0x73, 0x65]
  | .number n => asciiChars n.bytes
  | .string s => stringChars s
  | .array inside items => [[0x5b]] ++ (spaces inside ++ items.chars) ++ [[0x5d]]
  | .object inside members => [[0x7b]] ++ (spaces inside ++ members.chars) ++ [[0x7d]]

def Items.chars : Items → List (List UInt8)
  | .nil => []
  | .cons before v after items =>
    spaces before ++ (v.chars ++ ((spaces after ++ items.comma) ++ items.chars))

def Members.chars : Members → List (List UInt8)
  | .nil => []
  | .cons before name behind inner v after members =>
    spaces before ++ (stringChars name ++ ((spaces behind ++ [[0x3a]] ++ spaces inner) ++
      (v.chars ++ ((spaces after ++ members.comma) ++ members.chars))))

end

/-- The value is an array or object. -/
def Value.IsContainer : Value → Prop
  | .array _ _ => True
  | .object _ _ => True
  | _ => False

/-- A text whose root is an array or object. -/
structure Document where
  before : List Space
  root : Value
  after : List Space
  isContainer : root.IsContainer

def Document.chars (d : Document) : List (List UInt8) :=
  spaces d.before ++ d.root.chars ++ spaces d.after

/-- The bytes of the text. -/
def Document.text (d : Document) : List UInt8 := d.chars.flatten

end Groonga.Lib.JsonText
