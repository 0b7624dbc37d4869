import BslLint.Data.KeyMap

/-!
# TOML values

The values of the TOML format. Integers have 64 bits. Tables keep their entries in the order of the
keys. A date or a time is kept by its parts, so that different spellings of one instant on one clock
are the same value.
-/

namespace BslLint

/-- A day. -/
structure Toml.Date where
  year : Nat
  month : Nat
  day : Nat
  deriving DecidableEq, Repr

/-- A time of day. -/
structure Toml.Time where
  hour : Nat
  minute : Nat
  second : Nat
  nanosecond : Nat
  deriving DecidableEq, Repr

/-- How far a clock is ahead of universal time. -/
inductive Toml.Offset where
  /-- Universal time itself. -/
  | utc
  /-- Ahead by some minutes. -/
  | minutes (n : Int)
  deriving DecidableEq, Repr

/-- A date, a time, or both, with an offset or without. -/
structure Toml.Datetime where
  date : Option Toml.Date
  time : Option Toml.Time
  offset : Option Toml.Offset
  deriving DecidableEq, Repr

/-- A TOML value. -/
inductive Toml where
  | str (s : String)
  | int (n : Int)
  | float (x : Float)
  | bool (b : Bool)
  | datetime (d : Toml.Datetime)
  | array (items : List Toml)
  | table (entries : List (String × Toml))
  deriving Repr, Inhabited

namespace Toml

mutual

/-- Whether two values are the same. Floats are compared as numbers, so that zero is the same as
minus zero and what is no number is not even the same as itself. -/
def same : Toml → Toml → Bool
  | str s, str t => s == t
  | int m, int n => m == n
  | float x, float y => x == y
  | bool b, bool c => b == c
  | datetime d, datetime e => d == e
  | array xs, array ys => sameItems xs ys
  | table xs, table ys => sameEntries xs ys
  | _, _ => false

/-- Whether two arrays have the same items. -/
def sameItems : List Toml → List Toml → Bool
  | [], [] => true
  | x :: xs, y :: ys => same x y && sameItems xs ys
  | _, _ => false

/-- Whether two tables have the same entries. -/
def sameEntries : List (String × Toml) → List (String × Toml) → Bool
  | [], [] => true
  | (k, x) :: xs, (l, y) :: ys => k == l && same x y && sameEntries xs ys
  | _, _ => false

end

/-- Whether the value is a table. -/
def isTable : Toml → Bool
  | table _ => true
  | _ => false

/-- Whether the value is an array with a table among its items. -/
def isArrayWithTables : Toml → Bool
  | array items => items.any isTable
  | _ => false

/-- The integer, if the value is one. -/
def int? : Toml → Option Int
  | int n => some n
  | _ => none

/-- The string, if the value is one. -/
def str? : Toml → Option String
  | str s => some s
  | _ => none

end Toml

end BslLint
