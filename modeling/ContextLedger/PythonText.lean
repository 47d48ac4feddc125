import ContextLedger.JsonReader
import ContextLedger.Validation

/-!
What Python makes of parsed JSON: its text, its truth value, the texts it iterates
over, and the integers that are too long to be read at all.
-/
namespace ContextLedger.PythonText

open Numerals JsonText Values Validation

mutual

/-- An integer of more digits than the interpreter converts from text. -/
def hasLongInt : Json → Bool
  | .int i => decide (maxStrDigits < (digits i.natAbs).length)
  | .arr items => itemsLong items
  | .obj fields => fieldsLong fields
  | _ => false

def itemsLong : List Json → Bool
  | [] => false
  | item :: items => hasLongInt item || itemsLong items

def fieldsLong : List (String × Json) → Bool
  | [] => false
  | (_, value) :: fields => hasLongInt value || fieldsLong fields

end

/-- Why `json.loads` raises. -/
inductive Unreadable where
  | notJson
  | longInt
  deriving DecidableEq

def loads (text : String) : Except Unreadable Json :=
  match JsonReader.loads text with
  | none => .error .notJson
  | some v => if hasLongInt v then .error .longInt else .ok v

/-- A character of a text between quotes. -/
def reprChar (rt : Runtime) (quote c : Char) : List Char :=
  let n := c.toNat
  if c = quote ∨ c = '\\' then ['\\', c]
  else if c = '\t' then ['\\', 't']
  else if c = '\n' then ['\\', 'n']
  else if c = '\r' then ['\\', 'r']
  else if n < 0x20 ∨ n = 0x7f then '\\' :: 'x' :: hexDigits 2 n
  else if n < 0x7f ∨ rt.isPrintable c then [c]
  else if n < 0x100 then '\\' :: 'x' :: hexDigits 2 n
  else if n < 0x10000 then '\\' :: 'u' :: hexDigits 4 n
  else '\\' :: 'U' :: hexDigits 8 n

/-- Single quotes, unless the text has these and no double ones. -/
def reprText (rt : Runtime) (s : String) : List Char :=
  let quote := if s.toList.contains '\'' && !s.toList.contains '"' then '"' else '\''
  quote :: (s.toList.flatMap (reprChar rt quote) ++ [quote])

def reprFloat : PyFloat → List Char
  | .finite x => (FloatText.repr x).render
  | .infinite false => "inf".toList
  | .infinite true => "-inf".toList
  | .nan => "nan".toList

mutual

/-- `repr` of a value. -/
def repr (rt : Runtime) : Json → List Char
  | .null => "None".toList
  | .bool true => "True".toList
  | .bool false => "False".toList
  | .int i => (Literal.ofInt i).render
  | .float x => reprFloat x
  | .str s => reprText rt s
  | .arr [] => ['[', ']']
  | .arr (item :: items) => '[' :: (repr rt item ++ (reprItems rt items ++ [']']))
  | .obj [] => ['\x7b', '\x7d']
  | .obj ((key, value) :: fields) =>
    '\x7b' :: (reprText rt key ++ (':' :: ' ' ::
      (repr rt value ++ (reprFields rt fields ++ ['\x7d']))))

def reprItems (rt : Runtime) : List Json → List Char
  | [] => []
  | item :: items => ',' :: ' ' :: (repr rt item ++ reprItems rt items)

def reprFields (rt : Runtime) : List (String × Json) → List Char
  | [] => []
  | (key, value) :: fields =>
    ',' :: ' ' :: (reprText rt key ++ (':' :: ' ' :: (repr rt value ++ reprFields rt fields)))

end

/-- `str` of a value: a text is itself. -/
def str (rt : Runtime) : Json → String
  | .str s => s
  | v => String.ofList (repr rt v)

/-- `bool` of a value: zero and what is empty are false. -/
def truth : Json → Bool
  | .null => false
  | .bool b => b
  | .int i => decide (i ≠ 0)
  | .float (.finite x) => decide (x.mantissa ≠ 0)
  | .float _ => true
  | .str s => decide (s ≠ "")
  | .arr items => !items.isEmpty
  | .obj fields => !fields.isEmpty

/-- What a loop over a value runs over, when it can be looped over. -/
def iterate : Json → Option (List Json)
  | .arr items => some items
  | .str s => some (s.toList.map fun c => .str (String.singleton c))
  | .obj fields => some (fields.map fun field => .str field.1)
  | _ => none

example : str ⟨fun _ => true, id⟩ (.arr [.null, .str "it's", .int 2]) = "[None, \"it's\", 2]" := by
  decide +kernel

end ContextLedger.PythonText
