import Mathlib.Data.List.Basic

/-!
# Go strings and errors that carry a code

A Go string is an arbitrary byte sequence; a literal stands for its UTF-8
encoding.
-/

namespace Fluxor.Support

abbrev GoString := List UInt8

def lit (s : String) : GoString := s.toUTF8.data.toList

/-- A Go `map[string]string`; the nil map is `none`. -/
abbrev GoStringMap := Option (GoString → Option GoString)

/-- The comma-ok lookup `val, ok := m[key]`, which finds nothing in the nil
map. -/
def GoStringMap.lookup (m : GoStringMap) (key : GoString) : Option GoString :=
  m.bind fun f => f key

/-- The error types of the core package: a code and a message. -/
structure CodedError where
  (code message : String)
  deriving DecidableEq

end Fluxor.Support
