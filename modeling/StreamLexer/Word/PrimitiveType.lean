/-
**The names of primitive types.**

A second closed set of words that the scanner tells apart from identifiers.  It is disjoint from
the reserved words, so the order in which the two tables are searched does not matter.

Main definitions:

* `StreamLexer.PrimitiveType` — the named types, in the order in which they are listed;
* `StreamLexer.PrimitiveType.spelling` — how each is written;
* `StreamLexer.PrimitiveType.ofString?`, `StreamLexer.PrimitiveType.lookup` — recognition by
  spelling, and by a search of the table.
-/

set_option relaxedAutoImplicit false
set_option autoImplicit false

namespace StreamLexer

/-- The name of a primitive type. -/
inductive PrimitiveType where
  | array | bool | char | f32 | f64 | i8 | i16 | i32
  | i64 | i128 | isize | pointer | reference | slice | str | tuple
  | u8 | u16 | u32 | u64 | u128 | unit | usize
deriving DecidableEq, Repr

namespace PrimitiveType

/-- Every name of a primitive type, in order of declaration. -/
def all : List PrimitiveType :=
  [.array, .bool, .char, .f32, .f64, .i8, .i16, .i32,
   .i64, .i128, .isize, .pointer, .reference, .slice, .str, .tuple,
   .u8, .u16, .u32, .u64, .u128, .unit, .usize]

/-- How the name of a primitive type is written. -/
def spelling : PrimitiveType → String
  | .array => "array"
  | .bool => "bool"
  | .char => "char"
  | .f32 => "f32"
  | .f64 => "f64"
  | .i8 => "i8"
  | .i16 => "i16"
  | .i32 => "i32"
  | .i64 => "i64"
  | .i128 => "i128"
  | .isize => "isize"
  | .pointer => "pointer"
  | .reference => "reference"
  | .slice => "slice"
  | .str => "str"
  | .tuple => "tuple"
  | .u8 => "u8"
  | .u16 => "u16"
  | .u32 => "u32"
  | .u64 => "u64"
  | .u128 => "u128"
  | .unit => "unit"
  | .usize => "usize"

instance : ToString PrimitiveType := ⟨spelling⟩

/-- The primitive type written as `word`.  Case matters. -/
def ofString? (word : String) : Option PrimitiveType :=
  match word with
  | "array" => some .array
  | "bool" => some .bool
  | "char" => some .char
  | "f32" => some .f32
  | "f64" => some .f64
  | "i8" => some .i8
  | "i16" => some .i16
  | "i32" => some .i32
  | "i64" => some .i64
  | "i128" => some .i128
  | "isize" => some .isize
  | "pointer" => some .pointer
  | "reference" => some .reference
  | "slice" => some .slice
  | "str" => some .str
  | "tuple" => some .tuple
  | "u8" => some .u8
  | "u16" => some .u16
  | "u32" => some .u32
  | "u64" => some .u64
  | "u128" => some .u128
  | "unit" => some .unit
  | "usize" => some .usize
  | _ => none

/-- The spellings paired with the types they name. -/
def table : List (String × PrimitiveType) := all.map fun t => (t.spelling, t)

/-- The primitive type that the table lists under `word`. -/
def lookup (word : String) : Option PrimitiveType := table.lookup word

end PrimitiveType

end StreamLexer
