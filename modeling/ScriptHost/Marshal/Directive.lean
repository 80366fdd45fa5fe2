/-! # Directives

A format is a row of one-character directives; ASCII blanks between them mean nothing. Each
directive says how one value is built, mostly from the next argument.
-/

namespace ScriptHost

/-- One step of a format. -/
inductive Directive where
  /-- `a`: a stack slot, counted back from where marshaling started. -/
  | slotFromStart
  /-- `r`: a stack slot, counted back from the current top. -/
  | slotFromTop
  /-- `b` -/
  | boolean
  /-- `T` -/
  | constTrue
  /-- `F` -/
  | constFalse
  /-- `f` -/
  | function
  /-- `i` -/
  | integer
  /-- `n` -/
  | number
  /-- `s` -/
  | text
  /-- `u`: a light handle, or nil for a null address. -/
  | light
  /-- `U`: a light handle that must not be null. -/
  | lightNonNull
  /-- `0` -/
  | nil
  /-- `g`: the global of a dotted name. -/
  | global
  /-- An opening brace. -/
  | openTable
  /-- A closing brace. -/
  | closeTable
  /-- `C`: the next element counts only if a condition holds. -/
  | condition
  /-- `K`: a key and a value for the enclosing table. -/
  | key
  | unknown (c : Char)
  deriving DecidableEq, Repr, Inhabited

namespace Directive

def ofChar : Char → Directive
  | 'a' => .slotFromStart
  | 'r' => .slotFromTop
  | 'b' => .boolean
  | 'T' => .constTrue
  | 'F' => .constFalse
  | 'f' => .function
  | 'i' => .integer
  | 'n' => .number
  | 's' => .text
  | 'u' => .light
  | 'U' => .lightNonNull
  | '0' => .nil
  | 'g' => .global
  | '\x7b' => .openTable
  | '\x7d' => .closeTable
  | 'C' => .condition
  | 'K' => .key
  | c => .unknown c

/-- Space, tab, line feed, form feed and carriage return. -/
def isBlank (c : Char) : Bool :=
  c = ' ' || c = '\t' || c = '\n' || c = '\x0c' || c = '\r'

def parse (format : String) : List Directive :=
  (format.toList.filter (!isBlank ·)).map ofChar

def takesArgument : Directive → Bool
  | .slotFromStart | .slotFromTop | .boolean | .function | .integer | .number | .text | .light
  | .lightNonNull | .global | .condition => true
  | .constTrue | .constFalse | .nil | .openTable | .closeTable | .key | .unknown _ => false

end Directive

/-- Why arguments cannot be marshaled by a format. -/
inductive FormatError where
  | badIndex
  | nullKey
  | nanKey
  | nullUserdata
  | unclosedTable
  | unopenedTable
  | conditionalKey
  | conditionalValue
  | unfinishedCondition
  | missingKey
  | missingValue
  | keyOutsideTable
  | nestedKey
  | badType
  | missingArgument
  | argumentMismatch
  | badGlobal
  | tooDeep
  deriving DecidableEq, Repr, Inhabited

def FormatError.message : FormatError → String
  | .badIndex => "Bad index"
  | .nullKey => "Null key"
  | .nanKey => "NaN key"
  | .nullUserdata => "Null userdata"
  | .unclosedTable => "Unclosed table"
  | .unopenedTable => "Unopened table"
  | .conditionalKey => "Conditional key"
  | .conditionalValue => "Conditional value"
  | .unfinishedCondition => "Unfinished condition"
  | .missingKey => "Missing key"
  | .missingValue => "Missing value"
  | .keyOutsideTable => "Key outside table"
  | .nestedKey => "Nested key"
  | .badType => "Bad type"
  | .missingArgument => "Missing argument"
  | .argumentMismatch => "Argument mismatch"
  | .badGlobal => "Bad global"
  | .tooDeep => "Tables nested too deeply"

end ScriptHost
