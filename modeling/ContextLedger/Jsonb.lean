import ContextLedger.JsonText

/-!
PostgreSQL's `jsonb`: numbers are exact decimals with a display scale, never
written with an exponent and without a negative zero; object keys are ordered
by length and then by bytes; text with a NUL character is refused. Values go in
as the text a serializer writes and come out as the text a parser reads, where
a number without a point or an exponent is an integer and any other is rounded
to the nearest binary64 number.
-/
namespace ContextLedger.Jsonb

open Numerals FloatText JsonText

/-- A decimal `coefficient / 10 ^ scale` with its sign. -/
structure Numeric where
  negative : Bool
  coefficient : ℕ
  scale : ℕ
  deriving DecidableEq

inductive Value where
  | null
  | bool (b : Bool)
  | num (n : Numeric)
  | str (s : String)
  | arr (items : List Value)
  | obj (fields : List (String × Value))

def Value.isNull : Value → Bool
  | .null => true
  | _ => false

/-- Reading a literal: the exponent moves into the coefficient or the scale. -/
def numericIn (l : Literal) : Numeric :=
  let exponent := l.exponent.getD 0
  let coefficient := l.significand * 10 ^ (exponent - l.fraction).toNat
  ⟨l.negative && decide (coefficient ≠ 0), coefficient, (l.fraction - exponent).toNat⟩

def numericOut (n : Numeric) : Literal := ⟨n.negative, n.coefficient, n.scale, none⟩

/-- How a parser reads a number: a literal with neither a point nor an exponent
is an integer, and a magnitude beyond the largest float is an infinity. -/
def readNumber (l : Literal) : Json :=
  if l.fraction = 0 ∧ l.exponent = none then
    .int (if l.negative then -(l.significand : ℤ) else l.significand)
  else
    match nearest l.negative l.magnitude with
    | some x => .float (.finite x)
    | none => .float (.infinite l.negative)

def hasNul (s : String) : Bool := s.toList.any fun c => c.toNat == 0

/-- Keys are compared by their length in bytes, then by their bytes. -/
def StoredKeyLe (a b : String × Value) : Prop :=
  a.1.utf8ByteSize < b.1.utf8ByteSize ∨ (a.1.utf8ByteSize = b.1.utf8ByteSize ∧ a.1 ≤ b.1)

instance : DecidableRel StoredKeyLe := fun a b =>
  inferInstanceAs (Decidable (_ ∨ (_ ∧ a.1 ≤ b.1)))

mutual

/-- Storing a value; `none` when the database refuses its text. -/
def store : Json → Option Value
  | .null => some .null
  | .bool b => some (.bool b)
  | .int i => some (.num (numericIn (Literal.ofInt i)))
  | .float (.finite x) => some (.num (numericIn (FloatText.repr x)))
  | .float (.infinite _) => none
  | .float .nan => none
  | .str s => if hasNul s then none else some (.str s)
  | .arr items => (storeItems items).map .arr
  | .obj fields => (storeFields fields).map fun fs => .obj (fs.insertionSort StoredKeyLe)

def storeItems : List Json → Option (List Value)
  | [] => some []
  | item :: items => (store item).bind fun i => (storeItems items).map fun is => i :: is

def storeFields : List (String × Json) → Option (List (String × Value))
  | [] => some []
  | (key, value) :: fields =>
    if hasNul key then none
    else (store value).bind fun v => (storeFields fields).map fun fs => (key, v) :: fs

end

theorem isNull_of_store {v : Json} {stored : Value} (hv : v ≠ .null)
    (h : store v = some stored) : stored.isNull = false := by
  cases v with
  | null => exact absurd rfl hv
  | bool b =>
    obtain rfl := Option.some.inj h
    rfl
  | int i =>
    obtain rfl := Option.some.inj h
    rfl
  | float x =>
    cases x with
    | finite x =>
      obtain rfl := Option.some.inj h
      rfl
    | infinite b => exact absurd h (by simp [store])
    | nan => exact absurd h (by simp [store])
  | str s =>
    simp only [store] at h
    split at h
    · exact absurd h (by simp)
    · obtain rfl := Option.some.inj h
      rfl
  | arr items =>
    simp only [store, Option.map_eq_some_iff] at h
    obtain ⟨is, -, rfl⟩ := h
    rfl
  | obj fields =>
    simp only [store, Option.map_eq_some_iff] at h
    obtain ⟨fs, -, rfl⟩ := h
    rfl

mutual

/-- Loading a stored value. -/
def load : Value → Json
  | .null => .null
  | .bool b => .bool b
  | .num n => readNumber (numericOut n)
  | .str s => .str s
  | .arr items => .arr (loadItems items)
  | .obj fields => .obj (loadFields fields)

def loadItems : List Value → List Json
  | [] => []
  | item :: items => load item :: loadItems items

def loadFields : List (String × Value) → List (String × Json)
  | [] => []
  | (key, value) :: fields => (key, load value) :: loadFields fields

end

/-- `numeric` values are compared without their display scale. -/
def sameNumeric (a b : Numeric) : Bool :=
  a.negative == b.negative && a.coefficient * 10 ^ b.scale == b.coefficient * 10 ^ a.scale

mutual

/-- Equality of `jsonb`. -/
def sameValue : Value → Value → Bool
  | .null, .null => true
  | .bool a, .bool b => a == b
  | .num a, .num b => sameNumeric a b
  | .str a, .str b => a == b
  | .arr items, .arr items' => sameItems items items'
  | .obj fields, .obj fields' => sameFields fields fields'
  | _, _ => false

def sameItems : List Value → List Value → Bool
  | [], [] => true
  | a :: items, b :: items' => sameValue a b && sameItems items items'
  | _, _ => false

def sameFields : List (String × Value) → List (String × Value) → Bool
  | [], [] => true
  | (key, a) :: fields, (key', b) :: fields' =>
    key == key' && sameValue a b && sameFields fields fields'
  | _, _ => false

end

theorem sameNumeric_refl (a : Numeric) : sameNumeric a a = true := by
  simp [sameNumeric]

theorem sameNumeric_trans {a b c : Numeric} (hab : sameNumeric a b = true)
    (hbc : sameNumeric b c = true) : sameNumeric a c = true := by
  simp only [sameNumeric, Bool.and_eq_true, beq_iff_eq] at hab hbc ⊢
  have hscale : 0 < 10 ^ b.scale := Nat.pow_pos (by norm_num)
  refine ⟨hab.1.trans hbc.1, Nat.eq_of_mul_eq_mul_right hscale ?_⟩
  calc a.coefficient * 10 ^ c.scale * 10 ^ b.scale
      = a.coefficient * 10 ^ b.scale * 10 ^ c.scale := by ring
    _ = b.coefficient * 10 ^ c.scale * 10 ^ a.scale := by rw [hab.2]; ring
    _ = c.coefficient * 10 ^ a.scale * 10 ^ b.scale := by rw [hbc.2]; ring

mutual

theorem sameValue_refl (v : Value) : sameValue v v = true := by
  cases v with
  | null => rfl
  | bool b => exact beq_self_eq_true b
  | num n => exact sameNumeric_refl n
  | str s => exact beq_self_eq_true s
  | arr items => exact sameItems_refl items
  | obj fields => exact sameFields_refl fields

theorem sameItems_refl (items : List Value) : sameItems items items = true := by
  cases items with
  | nil => rfl
  | cons a items =>
    rw [sameItems, sameValue_refl a, sameItems_refl items]
    rfl

theorem sameFields_refl (fields : List (String × Value)) : sameFields fields fields = true := by
  cases fields with
  | nil => rfl
  | cons f fields =>
    obtain ⟨key, a⟩ := f
    rw [sameFields, beq_self_eq_true, sameValue_refl a, sameFields_refl fields]
    rfl

end

mutual

theorem sameValue_trans (a b c : Value) (hab : sameValue a b = true) (hbc : sameValue b c = true) :
    sameValue a c = true := by
  cases a <;> cases b <;> simp only [sameValue, Bool.false_eq_true] at hab <;> cases c <;>
    simp only [sameValue, Bool.false_eq_true, beq_iff_eq] at hab hbc ⊢
  case bool.bool.bool => exact hab.trans hbc
  case num.num.num => exact sameNumeric_trans hab hbc
  case str.str.str => exact hab.trans hbc
  case arr.arr.arr as bs cs => exact sameItems_trans as bs cs hab hbc
  case obj.obj.obj as bs cs => exact sameFields_trans as bs cs hab hbc
termination_by structural a

theorem sameItems_trans (as bs cs : List Value) (hab : sameItems as bs = true)
    (hbc : sameItems bs cs = true) : sameItems as cs = true := by
  cases as with
  | nil =>
    cases bs with
    | nil => exact hbc
    | cons b bs => exact absurd hab (by simp [sameItems])
  | cons a as =>
    cases bs with
    | nil => exact absurd hab (by simp [sameItems])
    | cons b bs =>
      cases cs with
      | nil => exact absurd hbc (by simp [sameItems])
      | cons c cs =>
        rw [sameItems, Bool.and_eq_true] at hab hbc ⊢
        exact ⟨sameValue_trans a b c hab.1 hbc.1, sameItems_trans as bs cs hab.2 hbc.2⟩
termination_by structural as

theorem sameFields_trans (as bs cs : List (String × Value)) (hab : sameFields as bs = true)
    (hbc : sameFields bs cs = true) : sameFields as cs = true := by
  cases as with
  | nil =>
    cases bs with
    | nil => exact hbc
    | cons b bs => exact absurd hab (by simp [sameFields])
  | cons a as =>
    cases bs with
    | nil => exact absurd hab (by simp [sameFields])
    | cons b bs =>
      cases cs with
      | nil => exact absurd hbc (by simp [sameFields])
      | cons c cs =>
        rw [sameFields, Bool.and_eq_true, Bool.and_eq_true, beq_iff_eq] at hab hbc ⊢
        exact ⟨⟨hab.1.1.trans hbc.1.1, sameValue_trans a.2 b.2 c.2 hab.1.2 hbc.1.2⟩,
          sameFields_trans as bs cs hab.2 hbc.2⟩
termination_by structural as

end

end ContextLedger.Jsonb
