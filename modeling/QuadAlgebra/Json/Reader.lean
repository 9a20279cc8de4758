import QuadAlgebra.Json.Basic
import QuadAlgebra.Number.Binary
import QuadAlgebra.Number.Numeral

/-!
# Reading JSON

Two machines read a text from left to right: one splits it into tokens, the other builds values
on a stack of open brackets. Neither looks ahead, so both are folds of a step that may fail.
Brackets may nest to any depth.

An escape may name half of a surrogate pair, which is no character. A string where such a half
stands alone is written correctly and has no characters; it is illegible, and so is an object with
a member of that name. What is never looked at may be illegible, and numbers there may be of any
size. The strict reader refuses both.
-/

namespace QuadAlgebra

namespace Json

/-! ## Tokens -/

inductive Token where
  | openArray
  | closeArray
  | openObject
  | closeObject
  | comma
  | colon
  /-- A string, or nothing if it is illegible. -/
  | text (s : Option String)
  /-- A number or word. -/
  | atom (value : Json)

/-- What the splitting machine is inside of. What is already read is held last first, in strings
as code points. -/
inductive Mode where
  | between
  | text (read : List Nat)
  | escape (read : List Nat)
  /-- Hexadecimal digits of an escape, with their count and value so far. -/
  | hex (read : List Nat) (count value : Nat)
  | word (read : List Char)

structure Splitter where
  mode : Mode
  /-- The tokens split off so far, last first. -/
  tokens : List Token

/-- Whether the characters are a number: no leading zeros, and digits on both sides of a point
and after an exponent mark. -/
def isNumber (cs : List Char) : Bool :=
  let cs := match cs with
    | '-' :: rest => rest
    | _ => cs
  let (whole, rest) := Numeral.digitRun cs
  let wholeOk := match whole with
    | [] => false
    | '0' :: more => more.isEmpty
    | _ => true
  let (fractionOk, rest) := match rest with
    | '.' :: rest =>
      let (fraction, rest) := Numeral.digitRun rest
      (!fraction.isEmpty, rest)
    | _ => (true, rest)
  wholeOk && fractionOk && (Numeral.readExponent rest).isSome

/-- The value of a number text. -/
def readNumber (cs : List Char) : Option Json :=
  if !isNumber cs then none
  else
    let (negative, digits) := Numeral.splitSign cs
    let real := Json.real (String.ofList cs)
    if digits.any (!·.isDigit) then some real
    else
      let n := Numeral.valueOfDigits digits
      if negative then
        if n = 0 ∨ Nat.pow 2 63 < n then some real else some (.integer (-n))
      else if n < Nat.pow 2 64 then some (.integer n) else some real

/-- The value of a word: one of the three constants or a number. -/
def readWord (cs : List Char) : Option Json :=
  match String.ofList cs with
  | "null" => some .null
  | "true" => some (.bool true)
  | "false" => some (.bool false)
  | _ => readNumber cs

def hexDigit? (c : Char) : Option Nat :=
  if c.isDigit then some (c.toNat - '0'.toNat)
  else if 'a' ≤ c ∧ c ≤ 'f' then some (c.toNat - 'a'.toNat + 10)
  else if 'A' ≤ c ∧ c ≤ 'F' then some (c.toNat - 'A'.toNat + 10)
  else none

/-- A character that belongs to a word. -/
def isWordChar (c : Char) : Bool := c.isAlphanum || c == '+' || c == '-' || c == '.'

/-- A step between tokens. -/
def splitBetween (tokens : List Token) (c : Char) : Option Splitter :=
  let token (t : Token) : Option Splitter := some ⟨.between, t :: tokens⟩
  match c with
  | ' ' | '\t' | '\n' | '\r' => some ⟨.between, tokens⟩
  | '[' => token .openArray
  | ']' => token .closeArray
  | '\x7b' => token .openObject
  | '\x7d' => token .closeObject
  | ',' => token .comma
  | ':' => token .colon
  | '"' => some ⟨.text [], tokens⟩
  | c => if isWordChar c then some ⟨.word [c], tokens⟩ else none

def isHighHalf (n : Nat) : Bool := 0xD800 ≤ n && n < 0xDC00

def isLowHalf (n : Nat) : Bool := 0xDC00 ≤ n && n < 0xE000

/-- The characters of code points, given last first, before the characters that follow them. Two
halves of a surrogate pair make one character; a half that stands alone makes none. -/
def joinHalves : List Nat → List Char → Option (List Char)
  | n :: m :: rest, after =>
    if isLowHalf n then
      if isHighHalf m then
        joinHalves rest (Char.ofNat (0x10000 + (m - 0xD800) * 0x400 + (n - 0xDC00)) :: after)
      else none
    else if isHighHalf n then none
    else joinHalves (m :: rest) (Char.ofNat n :: after)
  | [n], after => if isLowHalf n || isHighHalf n then none else some (Char.ofNat n :: after)
  | [], after => some after

/-- The token of a string with the given code points, last first. -/
def Token.ofCodes (read : List Nat) : Token := .text ((joinHalves read []).map String.ofList)

/-- The code point that an escape of one letter stands for. -/
def escaped? : Char → Option Nat
  | '"' => some 0x22
  | '\\' => some 0x5C
  | '/' => some 0x2F
  | 'b' => some 0x08
  | 'f' => some 0x0C
  | 'n' => some 0x0A
  | 'r' => some 0x0D
  | 't' => some 0x09
  | _ => none

/-- One step of the splitting machine. -/
def splitStep (s : Splitter) (c : Char) : Option Splitter :=
  let go (m : Mode) : Option Splitter := some ⟨m, s.tokens⟩
  match s.mode with
  | .between => splitBetween s.tokens c
  | .text read =>
    if c = '"' then some ⟨.between, .ofCodes read :: s.tokens⟩
    else if c = '\\' then go (.escape read)
    else if c.toNat < 0x20 then none
    else go (.text (c.toNat :: read))
  | .escape read =>
    if c = 'u' then go (.hex read 0 0) else (escaped? c).bind fun n => go (.text (n :: read))
  | .hex read count value =>
    (hexDigit? c).bind fun d =>
      let value := 16 * value + d
      if count < 3 then go (.hex read (count + 1) value) else go (.text (value :: read))
  | .word read =>
    if isWordChar c then go (.word (c :: read))
    else (readWord read.reverse).bind fun v => splitBetween (.atom v :: s.tokens) c

/-- The tokens of a text. -/
def tokens? (s : String) : Option (List Token) := do
  let last ← s.toList.foldlM splitStep ⟨.between, []⟩
  match last.mode with
  | .between => some last.tokens.reverse
  | .word read => (readWord read.reverse).map fun v => (.atom v :: last.tokens).reverse
  | _ => none

/-! ## Values -/

/-- The members of an object. A name that is illegible is missing. -/
abbrev Members := List (Option String × Json)

/-- An open bracket with what it holds so far, last first. -/
inductive Frame where
  | array (items : List Json)
  /-- An object whose next member has the given name. -/
  | object (members : Members) (name : Option String)

/-- What the building machine waits for. -/
inductive Waiting where
  | value
  | valueOrClose
  /-- A member name, with the members read so far. -/
  | name (members : Members)
  | colon (members : Members) (name : Option String)
  /-- A comma or a closing bracket. -/
  | more
  /-- Nothing: the text is complete. -/
  | done (value : Json)

structure Builder where
  stack : List Frame
  waiting : Waiting

/-- The object with the given members, last first. -/
def ofMembers (members : Members) : Json :=
  match members.reverse.mapM fun m => m.1.map (·, m.2) with
  | some named => .object named
  | none => .illegible

/-- Hands a complete value to the innermost open bracket. -/
def Builder.deliver (stack : List Frame) (v : Json) : Builder :=
  match stack with
  | [] => ⟨[], .done v⟩
  | .array items :: rest => ⟨.array (v :: items) :: rest, .more⟩
  | .object members name :: rest => ⟨.object ((name, v) :: members) name :: rest, .more⟩

/-- A value begins. -/
def Builder.begin (stack : List Frame) : Token → Option Builder
  | .text s => some (deliver stack (s.elim .illegible .string))
  | .atom v => some (deliver stack v)
  | .openArray => some ⟨.array [] :: stack, .valueOrClose⟩
  | .openObject => some ⟨.object [] none :: stack, .name []⟩
  | _ => none

/-- One step of the building machine. -/
def Builder.step (b : Builder) (t : Token) : Option Builder :=
  match b.waiting, t, b.stack with
  | .value, t, stack => begin stack t
  | .valueOrClose, .closeArray, .array items :: rest => some (deliver rest (.array items.reverse))
  | .valueOrClose, t, stack => begin stack t
  | .name members, .text s, stack => some ⟨stack, .colon members s⟩
  | .name [], .closeObject, .object _ _ :: rest => some (deliver rest (.object []))
  | .colon members s, .colon, .object _ _ :: rest => some ⟨.object members s :: rest, .value⟩
  | .more, .comma, .array items :: rest => some ⟨.array items :: rest, .value⟩
  | .more, .closeArray, .array items :: rest => some (deliver rest (.array items.reverse))
  | .more, .comma, .object members s :: rest => some ⟨.object members s :: rest, .name members⟩
  | .more, .closeObject, .object members _ :: rest => some (deliver rest (ofMembers members))
  | _, _, _ => none

/-- The value of a complete row of tokens. -/
def ofTokens? (tokens : List Token) : Option Json := do
  match (← tokens.foldlM Builder.step ⟨[], .value⟩).waiting with
  | .done v => some v
  | _ => none

/-- The value that a text denotes, if it is JSON. -/
def read? (s : String) : Option Json := (tokens? s).bind ofTokens?

/-- Whether a token is legible and, if it is a number, the range of doubles has it. -/
def Token.isExact : Token → Bool
  | .text s => s.isSome
  | .atom (.real number) =>
    match (readFloat number).map Binary.ofFloat with
    | some (.finite ..) => true
    | _ => false
  | _ => true

/-- As `read?`, but everything in the text has to be legible and every number within the range of
doubles. -/
def readStrict? (s : String) : Option Json := do
  let tokens ← tokens? s
  if tokens.all Token.isExact then ofTokens? tokens else none

end Json

end QuadAlgebra
