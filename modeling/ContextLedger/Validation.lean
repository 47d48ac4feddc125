import ContextLedger.Values

/-!
Normalisation and validation of the identifiers and values in a request. What
passes is returned at a type that keeps the rule it passed, and the same rules
are the CHECK constraints of the tables.
-/
namespace ContextLedger.Validation

open Numerals JsonText Values

/-- The characters `str.strip` removes from both ends. -/
def isSpace (c : Char) : Bool :=
  let n := c.toNat
  (9 ≤ n && n ≤ 13) || (28 ≤ n && n ≤ 32) || n == 0x85 || n == 0xa0 || n == 0x1680 ||
    (0x2000 ≤ n && n ≤ 0x200a) || n == 0x2028 || n == 0x2029 || n == 0x202f || n == 0x205f ||
    n == 0x3000

def strip (s : String) : String :=
  String.ofList ((s.toList.dropWhile isSpace).reverse.dropWhile isSpace).reverse

/-- `str.split` without a separator: the maximal runs of other characters. -/
def words (s : String) : List String :=
  ((s.toList.splitOnP isSpace).filter (· ≠ [])).map String.ofList

/-- Lower case as far as identifiers can tell: besides A to Z, only the Kelvin
sign becomes an ASCII letter, and an identifier has no other letters. -/
def lowerChar (c : Char) : Char :=
  if 'A' ≤ c ∧ c ≤ 'Z' then Char.ofNat (c.toNat + 32)
  else if c.toNat = 0x212a then 'k'
  else c

def lower (s : String) : String := String.ofList (s.toList.map lowerChar)

def isLowerAscii (c : Char) : Bool := 'a' ≤ c && c ≤ 'z'

def isSegmentChar (c : Char) : Bool := isLowerAscii c || ('0' ≤ c && c ≤ '9') || c == '_'

/-- A lower snake_case segment that starts with a letter, then a dot and another
segment any number of times; `fresh` says that a segment starts here. -/
def matchesIdentifier (fresh : Bool) : List Char → Bool
  | [] => !fresh
  | c :: rest =>
    if fresh then isLowerAscii c && matchesIdentifier false rest
    else if c = '.' then matchesIdentifier true rest
    else isSegmentChar c && matchesIdentifier false rest

def identifierMaxLength : ℕ := 128

def externalIdMaxLength : ℕ := 256

def nameMaxLength : ℕ := 200

def factValueMaxBytes : ℕ := 16384

def IsIdentifier (s : String) : Prop :=
  s.length ≤ identifierMaxLength ∧ matchesIdentifier true s.toList = true

instance (s : String) : Decidable (IsIdentifier s) := inferInstanceAs (Decidable (_ ∧ _))

def IsExternalId (s : String) : Prop := 1 ≤ s.length ∧ s.length ≤ externalIdMaxLength

instance (s : String) : Decidable (IsExternalId s) := inferInstanceAs (Decidable (_ ∧ _))

abbrev Identifier := { s : String // IsIdentifier s }

abbrev ExternalId := { s : String // IsExternalId s }

def normalizeIdentifier (value field : String) : Result Identifier :=
  let identifier := lower (strip value)
  if h : IsIdentifier identifier then .ok ⟨identifier, h⟩
  else validationFailed (field ++ " must be lower snake_case segments separated by '.', at most " ++
    natText identifierMaxLength ++ " characters")

def normalizeExternalId (rt : Runtime) (value : String) : Result ExternalId :=
  let externalId := strip value
  if h : IsExternalId externalId then
    if externalId.toList.any fun c => !rt.isPrintable c then
      validationFailed "external_id must not contain control characters"
    else .ok ⟨externalId, h⟩
  else validationFailed ("external_id must be 1-" ++ natText externalIdMaxLength ++ " characters")

def normalizeName (value field : String) : Result String :=
  let name := String.intercalate " " (words value)
  if name = "" then validationFailed (field ++ " must not be empty")
  else if nameMaxLength < name.length then
    validationFailed (field ++ " must be at most " ++ natText nameMaxLength ++ " characters")
  else .ok name

/-- The most digits of an integer that the interpreter converts to text. -/
def maxStrDigits : ℕ := 4300

mutual

/-- The first reason for which a value cannot be encoded, in document order. -/
def encodeError : Json → Option String
  | .null => none
  | .bool _ => none
  | .int i =>
    if maxStrDigits < (digits i.natAbs).length then
      some ("Exceeds the limit (4300 digits) for integer string conversion; " ++
        "use sys.set_int_max_str_digits() to increase the limit")
    else none
  | .float (.finite _) => none
  | .float (.infinite false) => some "Out of range float values are not JSON compliant: inf"
  | .float (.infinite true) => some "Out of range float values are not JSON compliant: -inf"
  | .float .nan => some "Out of range float values are not JSON compliant: nan"
  | .str _ => none
  | .arr items => encodeItemsError items
  | .obj fields => encodeFieldsError fields

def encodeItemsError : List Json → Option String
  | [] => none
  | item :: items => (encodeError item).or (encodeItemsError items)

def encodeFieldsError : List (String × Json) → Option String
  | [] => none
  | (_, value) :: fields => (encodeError value).or (encodeFieldsError fields)

end

/-- `json.dumps` with separators "," and ":" writes ASCII only. -/
def compact : Style := ⟨false, true⟩

abbrev FactValue := { v : Json // v ≠ .null }

/-- Fact values are JSON, never null. -/
def validateFactValue : Json → Result FactValue
  | .null => validationFailed "value must not be null; model 'unknown' explicitly"
  | .bool b => check (.bool b) nofun
  | .int i => check (.int i) nofun
  | .float x => check (.float x) nofun
  | .str s => check (.str s) nofun
  | .arr items => check (.arr items) nofun
  | .obj fields => check (.obj fields) nofun
where
  check (value : Json) (h : value ≠ .null) : Result FactValue :=
    match encodeError value with
    | some message => validationFailed ("value is not valid JSON: " ++ message)
    | none =>
      if factValueMaxBytes < (dumps compact value).utf8ByteSize then
        validationFailed ("value must be at most " ++ natText factValueMaxBytes ++ " bytes as JSON")
      else .ok ⟨value, h⟩

private theorem check_val {v : Json} {h : v ≠ .null} {value : FactValue}
    (hok : validateFactValue.check v h = .ok value) : value.1 = v := by
  unfold validateFactValue.check at hok
  split at hok
  · exact absurd hok (by simp [validationFailed])
  · split at hok
    · exact absurd hok (by simp [validationFailed])
    · obtain rfl := Except.ok.inj hok
      rfl

/-- Validation returns the value it was given. -/
theorem validateFactValue_val {v : Json} {value : FactValue}
    (h : validateFactValue v = .ok value) : value.1 = v := by
  cases v with
  | null => exact absurd h (by simp [validateFactValue, validationFailed])
  | bool b => exact check_val h
  | int i => exact check_val h
  | float x => exact check_val h
  | str s => exact check_val h
  | arr items => exact check_val h
  | obj fields => exact check_val h

/-- What `Decimal(str(value))` makes of a confidence. -/
inductive DecimalInput where
  | finite (negative : Bool) (magnitude : ℚ)
  | infinite
  | nan
  | malformed

/-- Thousandths, as the column keeps them. -/
abbrev Confidence := { n : ℤ // 0 ≤ n ∧ n ≤ 1000 }

/-- Rounded to thousandths, half to even; a coefficient of more than 28 digits
does not fit the decimal context. A NaN passes the rounding and raises in the
comparison. -/
def normalizeConfidence : DecimalInput → Result Confidence
  | .malformed => validationFailed "confidence must be a number"
  | .infinite => validationFailed "confidence must be a number"
  | .nan => .error .invalidOperation
  | .finite negative magnitude =>
    let rounded := FloatText.roundHalfEven (magnitude * 1000)
    let confidence : ℤ := if negative then -(rounded : ℤ) else rounded
    if 10 ^ 28 ≤ rounded then validationFailed "confidence must be a number"
    else if h : 0 ≤ confidence ∧ confidence ≤ 1000 then .ok ⟨confidence, h⟩
    else validationFailed "confidence must be between 0 and 1"

abbrev Authority := { n : ℤ // 0 ≤ n ∧ n ≤ 100 }

def validateAuthority (value : ℤ) : Result Authority :=
  if h : 0 ≤ value ∧ value ≤ 100 then .ok ⟨value, h⟩
  else validationFailed "authority must be an integer between 0 and 100"

example : normalizeIdentifier "  Billing.Credit_Limit " "property" =
    .ok ⟨"billing.credit_limit", by decide +kernel⟩ := by decide +kernel

end ContextLedger.Validation
