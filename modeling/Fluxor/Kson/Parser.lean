import Fluxor.Kson.Value
import Fluxor.Support.Descent

/-!
# The kson parser

The parser is a record with a position and a line. The position is
represented by the input that is left; reading a byte takes the first one off.

The document, object and array loops are the loops of a recursive-descent
reader: each has its iteration as a function of the loop's accumulator and the
parser, `value` says how a value starts, and `parse` runs the document loop.
-/

namespace Fluxor.Kson

open Support

/-! ## Errors -/

inductive ErrorKind
  | expectedEquals (key : Bytes)
  | invalidCharacter (c : UInt8)
  | emptyKey | unterminatedObject
  | expectedColon (key : Bytes)
  | unterminatedArray | unterminatedString | emptyObjectKey
  | keyConflict (head tail : Bytes)

def ErrorKind.text (quote : Bytes → String) (quoteRune : UInt8 → String) : ErrorKind → String
  | .expectedEquals key => "expected '=' after key " ++ quote key
  | .invalidCharacter c => "invalid character " ++ quoteRune c ++ " in key"
  | .emptyKey => "empty key"
  | .unterminatedObject => "unterminated object"
  | .expectedColon key => "expected ':' after object key " ++ quote key
  | .unterminatedArray => "unterminated array"
  | .unterminatedString => "unterminated string"
  | .emptyObjectKey => "empty object key"
  | .keyConflict head tail =>
    "key conflict: " ++ quote head ++
      " is already a scalar, cannot nest " ++ quote tail ++ " under it"

structure KsonError where
  line : ℕ
  kind : ErrorKind

def KsonError.message (quote : Bytes → String) (quoteRune : UInt8 → String)
    (e : KsonError) : String :=
  "kson:" ++ toString e.line ++ ": " ++ e.kind.text quote quoteRune

/-! ## Bytes -/

def isBlank (c : UInt8) : Bool := c = ' '.toUInt8 ∨ c = '\t'.toUInt8

def isNewline (c : UInt8) : Bool := c = '\n'.toUInt8 ∨ c = '\r'.toUInt8

def doubleQuote : UInt8 := 34

def singleQuote : UInt8 := 39

def backslash : UInt8 := 92

def isQuote (c : UInt8) : Bool := c = doubleQuote ∨ c = singleQuote

def isKeyByte (c : UInt8) : Bool :=
  ('a'.toUInt8 ≤ c ∧ c ≤ 'z'.toUInt8) ∨ ('A'.toUInt8 ≤ c ∧ c ≤ 'Z'.toUInt8) ∨
    ('0'.toUInt8 ≤ c ∧ c ≤ '9'.toUInt8) ∨ c = '_'.toUInt8 ∨
    c = '-'.toUInt8 ∨ c = '.'.toUInt8 ∨ c = '/'.toUInt8

/-! ## The parser's helpers -/

/-- The input that is left and the current line. -/
structure Parser where
  rest : Bytes
  line : ℕ

namespace Parser

variable (p : Parser)

def errf (kind : ErrorKind) : KsonError := ⟨p.line, kind⟩

def skipBlanks : Parser :=
  { p with rest := p.rest.dropWhile isBlank }

def skipInline : Parser :=
  { p with rest := p.rest.dropWhile isBlank }

def skipToEOL : Parser :=
  { p with rest := p.rest.dropWhile (· ≠ '\n'.toUInt8) }

/-- The loop of `skipBlanksAndNewlines`; both newline bytes count a line. -/
def skipBlanksAndNewlinesLoop (line : ℕ) : Bytes → Parser
  | [] => ⟨[], line⟩
  | c :: rest =>
    let line' := if isNewline c then line + 1 else line
    if isBlank c ∨ isNewline c then skipBlanksAndNewlinesLoop line' rest
    else ⟨c :: rest, line'⟩

def skipBlanksAndNewlines : Parser := skipBlanksAndNewlinesLoop p.line p.rest

def advance : Parser :=
  match p.rest with
  | [] => p
  | c :: rest => ⟨rest, if c = '\n'.toUInt8 then p.line + 1 else p.line⟩

def expect (c : UInt8) (p : Parser) : Option Parser :=
  match p.rest with
  | [] => none
  | d :: rest => if d = c then some { p with rest := rest } else none

def keyLoop (line : ℕ) (key : Bytes) : Bytes → Except KsonError (Bytes × Bytes)
  | [] => .ok (key, [])
  | c :: rest =>
    if c = '='.toUInt8 ∨ isBlank c ∨ isNewline c then .ok (key, c :: rest)
    else if isKeyByte c then keyLoop line (key ++ [c]) rest
    else .error ⟨line, .invalidCharacter c⟩

def key : Except KsonError (Bytes × Parser) :=
  match keyLoop p.line [] p.rest with
  | .error e => .error e
  | .ok (key, rest) =>
    if key = [] then .error (p.errf .emptyKey)
    else .ok (key, { p with rest := rest })

def bareObjectKey : Except KsonError (Bytes × Parser) :=
  let stop := fun c => decide (c = ':'.toUInt8) || isBlank c
  let key := p.rest.takeWhile fun c => !stop c
  if key = [] then .error (p.errf .emptyObjectKey)
  else .ok (key, { p with rest := p.rest.dropWhile fun c => !stop c })

def unescape (c : UInt8) : UInt8 :=
  if c = 'n'.toUInt8 then '\n'.toUInt8
  else if c = 't'.toUInt8 then '\t'.toUInt8
  else if c = 'r'.toUInt8 then '\r'.toUInt8
  else c

def quotedLoop (env : Env) (delim : UInt8) (line : ℕ) (text : Bytes) :
    Bytes → Except KsonError (Bytes × Parser)
  | [] => .error ⟨line, .unterminatedString⟩
  | c :: rest =>
    if c = delim then .ok (env.expandEnv text, ⟨rest, line⟩)
    else if c = backslash ∧ rest ≠ [] then
      match rest with
      | [] => .error ⟨line, .unterminatedString⟩
      | d :: rest => quotedLoop env delim line (text ++ [unescape d]) rest
    else
      quotedLoop env delim (if c = '\n'.toUInt8 then line + 1 else line) (text ++ [c]) rest

def quoted (env : Env) (delim : UInt8) (p : Parser) : Except KsonError (Bytes × Parser) :=
  quotedLoop env delim p.line [] p.rest.tail

/-- The loop of `scalar`, after the bytes `raw`: the raw text and the rest. Inside
the braces of a variable only a newline stops it. -/
def scalarLoop (inBrace : ℕ) (raw : Bytes) : Bytes → Bytes × Bytes
  | [] => (raw, [])
  | c :: rest =>
    if c = '$'.toUInt8 ∧ rest.head? = some '{'.toUInt8 then
      match rest with
      | [] => (raw ++ [c], [])
      | d :: rest => scalarLoop (inBrace + 1) (raw ++ [c, d]) rest
    else if c = '}'.toUInt8 then
      if 0 < inBrace then scalarLoop (inBrace - 1) (raw ++ [c]) rest
      else (raw, c :: rest)
    else if inBrace = 0 ∧ (isNewline c ∨ c = '#'.toUInt8 ∨
        c = ','.toUInt8 ∨ c = ']'.toUInt8) then (raw, c :: rest)
    else if isNewline c then (raw, c :: rest)
    else scalarLoop inBrace (raw ++ [c]) rest

def scalar (env : Env) (p : Parser) : Value × Parser :=
  let (raw, rest) := scalarLoop 0 [] p.rest
  (inferType env (env.expandEnv (trimRight raw)), { p with rest := rest })

end Parser

/-! ## The loops -/

/-- The head of a loop: what it has collected, and the parser. -/
inductive Head
  | document (out : Map) (p : Parser)
  | object (obj : Map) (p : Parser)
  | array (arr : List Value) (p : Parser)

abbrev Iter := Iteration Head Parser Value KsonError

variable (env : Env)

/-- The value that is assigned to a key: a variable `KSON_<KEY>` of the
environment wins. -/
def override (key : Bytes) (val : Value) : Value :=
  let upper := key.map fun c =>
    if c = '.'.toUInt8 then '_'.toUInt8
    else if 'a'.toUInt8 ≤ c ∧ c ≤ 'z'.toUInt8 then c - 32 else c
  let text := env.getenv (ascii "KSON_" ++ upper)
  if text ≠ [] then inferType env text else val

/-- The end of a line after an assignment: a comment and one newline byte. -/
def Parser.endAssignment (p : Parser) : Parser :=
  let p := p.skipInline
  let p := if p.rest.head? = some '#'.toUInt8 then p.skipToEOL else p
  if p.rest.head?.any isNewline then p.advance else p

def documentIter (out : Map) (p : Parser) : Iter :=
  let p := p.skipBlanks
  match p.rest with
  | [] => .turn (.done (.ok (.map out, p)))
  | c :: _ =>
    if c = '#'.toUInt8 then .turn (.next (.document out p.skipToEOL))
    else if isNewline c then .turn (.next (.document out p.advance))
    else
      match p.key with
      | .error e => .turn (.done (.error e))
      | .ok (key, p) =>
        let p := p.skipInline
        match p.expect '='.toUInt8 with
        | none => .turn (.done (.error (p.errf (.expectedEquals key))))
        | some p =>
          .read p.skipInline fun val p =>
            match setNested (override env key val) out [] key with
            | .error (head, tail) => .done (.error (p.errf (.keyConflict head tail)))
            | .ok out => .next (.document out p.endAssignment)

def Parser.objectKey (c : UInt8) (p : Parser) : Except KsonError (Bytes × Parser) :=
  if isQuote c then p.quoted env c else p.bareObjectKey

def objectIter (obj : Map) (p : Parser) : Iter :=
  let p := p.skipBlanksAndNewlines
  match p.rest with
  | [] => .turn (.done (.error (p.errf .unterminatedObject)))
  | c :: rest =>
    if c = '}'.toUInt8 then
      .turn (.done (.ok (.map obj, { p with rest := rest })))
    else if c = ','.toUInt8 then
      .turn (.next (.object obj { p with rest := rest }))
    else
      match p.objectKey env c with
      | .error e => .turn (.done (.error e))
      | .ok (key, p) =>
        let p := p.skipInline
        match p.expect ':'.toUInt8 with
        | none => .turn (.done (.error (p.errf (.expectedColon key))))
        | some p =>
          .read p.skipInline fun val p => .next (.object (Map.set key val obj) p.skipInline)

def arrayIter (arr : List Value) (p : Parser) : Iter :=
  let p := p.skipBlanksAndNewlines
  match p.rest with
  | [] => .turn (.done (.error (p.errf .unterminatedArray)))
  | c :: rest =>
    if c = ']'.toUInt8 then
      .turn (.done (.ok (.arr arr, { p with rest := rest })))
    else if c = ','.toUInt8 then
      .turn (.next (.array arr { p with rest := rest }))
    else .read p fun val p => .next (.array (arr ++ [val]) p.skipInline)

def Parser.value (p : Parser) : ValueStart Head Parser Value KsonError :=
  match p.rest with
  | [] => .result (.ok (.str [], p))
  | c :: rest =>
    if c = '\n'.toUInt8 then .result (.ok (.str [], p))
    else if c = '{'.toUInt8 then .loop (.object [] { p with rest := rest })
    else if c = '['.toUInt8 then .loop (.array [] { p with rest := rest })
    else if isQuote c then
      .result ((p.quoted env c).map fun (s, p) => (.str s, p))
    else .result (.ok (p.scalar env))

def reader : Descent Head Parser Value KsonError where
  iter
    | .document out p => documentIter env out p
    | .object obj p => objectIter env obj p
    | .array arr p => arrayIter arr p
  enter p := p.value env

def start (src : Bytes) : Head := .document [] ⟨src, 1⟩

/-- Parse a document; the result is the map as a value, or `none` if the fuel
is used up. -/
def parse (fuel : ℕ) (src : Bytes) : Option (Except KsonError Value) :=
  ((reader env).run fuel (start src)).map fun r => r.map Prod.fst

end Fluxor.Kson
