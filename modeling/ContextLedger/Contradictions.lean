import ContextLedger.Schema

/-!
When two successive versions of a fact contradict each other: they come from
different sources, their values differ, and the earlier source observed its
value at an instant that the later version also covers. Values are compared as
the interpreter compares them, numbers by numeric value with booleans as 0 and
1, and objects without regard to the order of their keys.
-/
namespace ContextLedger.Contradictions

open Values JsonText Schema Authorization

/-- The numeric value of a boolean or a number; none for an infinity or a NaN. -/
def numericValue : Json → Option ℚ
  | .bool b => some (if b then 1 else 0)
  | .int i => some i
  | .float (.finite x) =>
    some (if x.negative then -FloatText.magnitude x else FloatText.magnitude x)
  | _ => none

def scalarEq : Json → Json → Bool
  | .null, .null => true
  | .str a, .str b => a == b
  | .float (.infinite a), .float (.infinite b) => a == b
  | a, b => (numericValue a).isSome && numericValue a == numericValue b

mutual

/-- Equality of parsed JSON values. -/
def valueEq : Json → Json → Bool
  | .arr items, .arr items' => itemsEq items items'
  | .obj fields, .obj fields' => fields.length == fields'.length && fieldsEq fields fields'
  | .arr _, _ => false
  | .obj _, _ => false
  | a, b => scalarEq a b

def itemsEq : List Json → List Json → Bool
  | [], [] => true
  | item :: items, item' :: items' => valueEq item item' && itemsEq items items'
  | _, _ => false

def fieldsEq : List (String × Json) → List (String × Json) → Bool
  | [], _ => true
  | (key, value) :: fields, others =>
    ((others.lookup key).any fun other => valueEq value other) && fieldsEq fields others

end

/-- What the rules need to know about one version. -/
structure VersionFacts where
  id : Uuid
  sourceId : Uuid
  value : Json
  validFrom : Datetime
  validUntil : Option Instant
  observedAt : Instant
  authority : ℤ
  confidence : ℤ

def VersionFacts.start (v : VersionFacts) : Instant := v.validFrom.wall - v.validFrom.utcoffset.getD 0

/-- The reason why `new` contradicts `previous`, if it does. -/
def valueConflict (previous new : VersionFacts) : Option String :=
  if previous.sourceId = new.sourceId ∨ valueEq previous.value new.value = true then none
  else if previous.validUntil.any fun u => decide (u ≤ previous.observedAt) then none
  else if previous.observedAt < new.start then none
  else some ("source " ++ uuidText previous.sourceId ++ " observed a different value at " ++
    isoformat previous.observedAt ++ ", which the new version (valid from " ++
    new.validFrom.isoformat ++ ") also covers")

/-- Higher authority, then higher confidence, then the later observation; the
earlier version on a tie. -/
def preferred (a b : VersionFacts) : Uuid :=
  if a.authority < b.authority ∨ (a.authority = b.authority ∧ (a.confidence < b.confidence ∨
      (a.confidence = b.confidence ∧ a.observedAt < b.observedAt))) then b.id
  else a.id

def widerScope (a b : PrivacyScope) : PrivacyScope :=
  if privacyRank a < privacyRank b then b else a

end ContextLedger.Contradictions
