/-
# Script values

The values of Duktape as the server sees them through `duk_push_*`, `duk_is_*`,
`duk_to_int` and `duk_get_*`.  A number is a double, so a rational or one of the
special values.  The properties of an object are in insertion order, and
`duk_put_prop` overwrites or appends (`Lib.Assoc.set`).
-/

import Dukserver.Lib.Assoc
import Dukserver.Lib.Bytes
import Mathlib.Algebra.Order.Floor.Ring
import Mathlib.Data.Rat.Floor

namespace Dukserver
namespace Wsgi

open Lib (Bytes)

/-- A number of the script. -/
inductive DukNumber
  | nan
  | infinity (negative : Bool)
  | finite (q : ℚ)
  deriving DecidableEq, Repr

/-- A value of the script. -/
inductive DukValue
  | undefined
  | null
  | boolean (b : Bool)
  | number (n : DukNumber)
  | string (s : Bytes)
  | buffer (b : Bytes)
  | object (props : List (Bytes × DukValue))

/-- The codes of the errors that C functions throw. -/
inductive ErrorCode
  | internalError
  | typeError
  | rangeError
  deriving DecidableEq, Repr

/-- `duk_error`. -/
structure DukError where
  code : ErrorCode
  message : String
  deriving DecidableEq, Repr

/-- The properties of an object. -/
abbrev Props := List (Bytes × DukValue)

/-- `duk_push_string`: `NULL` pushes `null`. -/
def pushString : Option Bytes → DukValue
  | none => .null
  | some s => .string s

/-- `duk_push_int`. -/
def pushInt (n : ℤ) : DukValue := .number (.finite n)

/-- `duk_to_int` of a number: cut at the bounds of an `int`. -/
def DukNumber.toInt : DukNumber → ℤ
  | .nan => 0
  | .infinity negative => if negative then -(2 ^ 31) else 2 ^ 31 - 1
  | .finite q => max (-(2 ^ 31)) (min (2 ^ 31 - 1) (if 0 ≤ q then ⌊q⌋ else ⌈q⌉))

/-- A string and `NULL` are different values, and so are two strings. -/
theorem pushString_inj {v w : Option Bytes} : pushString v = pushString w ↔ v = w := by
  cases v <;> cases w <;> simp [pushString]

end Wsgi
end Dukserver
