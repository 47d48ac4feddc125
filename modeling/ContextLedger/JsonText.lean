import ContextLedger.FloatText
import Mathlib.Data.List.Sort

/-!
JSON values as a program holds them in memory, and the text a serializer writes
for them: separators with or without a space, strings with or without escapes
for characters outside ASCII, object keys in their own order or sorted by code
point. The text determines the value, so two values have the same sorted text
exactly when they agree up to the order of object keys.
-/
namespace ContextLedger.JsonText

open Numerals FloatText

inductive PyFloat where
  | finite (x : Binary64)
  | infinite (negative : Bool)
  | nan
  deriving DecidableEq

/-- Objects keep their keys in insertion order. -/
inductive Json where
  | null
  | bool (b : Bool)
  | int (i : ℤ)
  | float (x : PyFloat)
  | str (s : String)
  | arr (items : List Json)
  | obj (fields : List (String × Json))

/-- The serializer's layout: a space after separators, and ASCII output. -/
structure Style where
  spaced : Bool
  ensureAscii : Bool

namespace Style

def itemSeparator (style : Style) : List Char := if style.spaced then [',', ' '] else [',']

def keySeparator (style : Style) : List Char := if style.spaced then [':', ' '] else [':']

end Style

/-- Four hexadecimal digits after `\u`. -/
def unicodeEscape (n : ℕ) : List Char := '\\' :: 'u' :: hexDigits 4 n

/-- Characters outside the basic plane are written as a surrogate pair. -/
def asciiEscape (n : ℕ) : List Char :=
  if n < 0x10000 then unicodeEscape n
  else unicodeEscape (0xd800 + (n - 0x10000) / 0x400) ++
    unicodeEscape (0xdc00 + (n - 0x10000) % 0x400)

/-- The short escape of a character, when it has one. -/
def shortEscape (c : Char) : Option Char :=
  if c = '"' then some '"'
  else if c = '\\' then some '\\'
  else if c = '\n' then some 'n'
  else if c = '\r' then some 'r'
  else if c = '\t' then some 't'
  else if c = Char.ofNat 8 then some 'b'
  else if c = Char.ofNat 12 then some 'f'
  else none

def escapeChar (style : Style) (c : Char) : List Char :=
  match shortEscape c with
  | some e => ['\\', e]
  | none =>
    if c.toNat < 0x20 then unicodeEscape c.toNat
    else if style.ensureAscii && decide (0x7f ≤ c.toNat) then asciiEscape c.toNat
    else [c]

def renderString (style : Style) (s : String) : List Char :=
  '"' :: (s.toList.flatMap (escapeChar style) ++ ['"'])

def renderFloat : PyFloat → List Char
  | .finite x => (FloatText.repr x).render
  | .infinite false => "Infinity".toList
  | .infinite true => "-Infinity".toList
  | .nan => "NaN".toList

mutual

def render (style : Style) : Json → List Char
  | .null => "null".toList
  | .bool true => "true".toList
  | .bool false => "false".toList
  | .int i => (Literal.ofInt i).render
  | .float x => renderFloat x
  | .str s => renderString style s
  | .arr [] => ['[', ']']
  | .arr (item :: items) => '[' :: (render style item ++ (renderItems style items ++ [']']))
  | .obj [] => ['\x7b', '\x7d']
  | .obj ((key, value) :: fields) =>
    '\x7b' :: (renderString style key ++ (style.keySeparator ++
      (render style value ++ (renderFields style fields ++ ['\x7d']))))

def renderItems (style : Style) : List Json → List Char
  | [] => []
  | item :: items => style.itemSeparator ++ (render style item ++ renderItems style items)

def renderFields (style : Style) : List (String × Json) → List Char
  | [] => []
  | (key, value) :: fields =>
    style.itemSeparator ++ (renderString style key ++ (style.keySeparator ++
      (render style value ++ renderFields style fields)))

end

/-- Keys are compared by code points. -/
def KeyLe (a b : String × Json) : Prop := a.1 ≤ b.1

instance : DecidableRel KeyLe := fun a b => inferInstanceAs (Decidable (a.1 ≤ b.1))

mutual

/-- Every object, at any depth, with its keys sorted. -/
def sortKeys : Json → Json
  | .arr items => .arr (sortItems items)
  | .obj fields => .obj ((sortFields fields).insertionSort KeyLe)
  | .null => .null
  | .bool b => .bool b
  | .int i => .int i
  | .float x => .float x
  | .str s => .str s

def sortItems : List Json → List Json
  | [] => []
  | item :: items => sortKeys item :: sortItems items

def sortFields : List (String × Json) → List (String × Json)
  | [] => []
  | (key, value) :: fields => (key, sortKeys value) :: sortFields fields

end

mutual

/-- No object, at any depth, holds a key twice. -/
def UniqueKeys : Json → Prop
  | .arr items => UniqueItems items
  | .obj fields => (fields.map Prod.fst).Nodup ∧ UniqueFields fields
  | .null => True
  | .bool _ => True
  | .int _ => True
  | .float _ => True
  | .str _ => True

def UniqueItems : List Json → Prop
  | [] => True
  | item :: items => UniqueKeys item ∧ UniqueItems items

def UniqueFields : List (String × Json) → Prop
  | [] => True
  | (_, value) :: fields => UniqueKeys value ∧ UniqueFields fields

end

/-- The text of a value, with sorted keys. -/
def dumpsSorted (style : Style) (v : Json) : String :=
  String.ofList (render style (sortKeys v))

def dumps (style : Style) (v : Json) : String := String.ofList (render style v)

end ContextLedger.JsonText
