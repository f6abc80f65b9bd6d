import Mathlib.Algebra.Group.Nat.Defs
import Mathlib.Algebra.Ring.Int.Defs
import Mathlib.Data.List.Basic

/-!
# kson values

The values of the kson configuration format, the conversion of unquoted text
to a value, and the assignment of a dotted key in a nested map.

Go strings are lists of bytes, and a Go map is the list of its entries. What
the operating system and the floating-point parser answer is a parameter
(`Env`).
-/

namespace Fluxor.Kson

abbrev Bytes := List UInt8

def ascii (text : String) : Bytes := text.toList.map Char.toUInt8

/-- The answers of the environment. -/
structure Env where
  /-- `os.Getenv`; an unset variable is empty. -/
  getenv : Bytes → Bytes
  /-- `os.Expand` with `os.Getenv`. -/
  expandEnv : Bytes → Bytes
  /-- `strconv.ParseFloat`: the bits of the number, if the text is one. -/
  parseFloat : Bytes → Option UInt64

inductive Value
  | str (s : Bytes)
  | int (i : ℤ)
  | float (bits : UInt64)
  | bool (b : Bool)
  | nil
  | map (entries : List (Bytes × Value))
  | arr (items : List Value)

abbrev Map := List (Bytes × Value)

def Map.set (key : Bytes) (val : Value) : Map → Map
  | [] => [(key, val)]
  | (k, v) :: m => if k = key then (k, val) :: m else (k, v) :: Map.set key val m

/-- Lower case, exact wherever the result is ASCII: besides the ASCII letters
these are the dotted capital I and the Kelvin sign. -/
def toLower : Bytes → Bytes
  | [] => []
  | c :: s =>
    match c, s with
    | 0xC4, 0xB0 :: s => 'i'.toUInt8 :: toLower s
    | 0xE2, 0x84 :: 0xAA :: s => 'k'.toUInt8 :: toLower s
    | c, s => (if 'A'.toUInt8 ≤ c ∧ c ≤ 'Z'.toUInt8 then c + 32 else c) :: toLower s

def parseDigits (n : ℕ) : Bytes → Option ℕ
  | [] => some n
  | c :: s =>
    if '0'.toUInt8 ≤ c ∧ c ≤ '9'.toUInt8 then
      parseDigits (10 * n + (c - '0'.toUInt8).toNat) s
    else none

def parseUint (s : Bytes) : Option ℕ :=
  if s = [] then none else parseDigits 0 s

def parseInt (s : Bytes) : Option ℤ := do
  let neg := s.head? = some '-'.toUInt8
  let signed := neg ∨ s.head? = some '+'.toUInt8
  let n ← parseUint (if signed then s.tail else s)
  if neg then
    if n ≤ 2 ^ 63 then some (-n) else none
  else if n < 2 ^ 63 then some n else none

/-- A raw text as a bool, an integer, a float or a string. -/
def inferType (env : Env) (s : Bytes) : Value :=
  let lower := toLower s
  if lower ∈ [ascii "true", ascii "yes", ascii "on"] then .bool true
  else if lower ∈ [ascii "false", ascii "no", ascii "off"] then .bool false
  else if lower ∈ [ascii "null", ascii "~", ascii "nil"] then .nil
  else
    match parseInt s with
    | some i => .int i
    | none =>
      match env.parseFloat s with
      | some f => .float f
      | none => .str s

/-- The bytes of a reversed text after its leading white space, as
`unicode.IsSpace` has it. -/
def dropSpaces : Bytes → Bytes
  | [] => []
  | c :: s =>
    if c ∈ [0x09, 0x0A, 0x0B, 0x0C, 0x0D, 0x20] then dropSpaces s
    else
      match s with
      | [] => [c]
      | b :: s =>
        if b = 0xC2 ∧ c ∈ [0x85, 0xA0] then dropSpaces s
        else
          match s with
          | [] => [c, b]
          | a :: s =>
            if (a = 0xE1 ∧ b = 0x9A ∧ c = 0x80) ∨ (a = 0xE2 ∧ b = 0x80 ∧
                  (0x80 ≤ c ∧ c ≤ 0x8A ∨ c ∈ [0xA8, 0xA9, 0xAF])) ∨
                (a = 0xE2 ∧ b = 0x81 ∧ c = 0x9F) ∨
                (a = 0xE3 ∧ b = 0x80 ∧ c = 0x80) then dropSpaces s
            else c :: b :: a :: s

def trimRight (s : Bytes) : Bytes := (dropSpaces s.reverse).reverse

/-- Assign a dotted key in a nested map; `head` is what was read of the component
before the next dot. The error is the component that is already a scalar, and the
rest of the key. -/
def setNested (val : Value) (m : Map) (head : Bytes) :
    Bytes → Except (Bytes × Bytes) Map
  | [] => .ok (Map.set head val m)
  | c :: tail =>
    if c = '.'.toUInt8 then
      match m.lookup head with
      | none => do
          let sub ← setNested val [] [] tail
          .ok (Map.set head (.map sub) m)
      | some (.map sub) => do
          let sub ← setNested val sub [] tail
          .ok (Map.set head (.map sub) m)
      | some _ => .error (head, tail)
    else setNested val m (head ++ [c]) tail

end Fluxor.Kson
