import ContextLedger.JsonText

/-!
Identifiers, instants and errors shared by the services. Instants are
microseconds since the Unix epoch in UTC, the precision of both the database
and `datetime`. Timestamps in requests keep the offset they were given with;
every timestamp read from the database is in UTC.
-/
namespace ContextLedger.Values

open Numerals

abbrev Uuid := BitVec 128

abbrev Instant := ℤ

/-- A `datetime`: wall-clock microseconds and the fixed offset of its timezone. -/
structure Datetime where
  wall : ℤ
  utcoffset : Option ℤ
  deriving DecidableEq

/-- The errors of the domain, each with its message. -/
inductive DomainError where
  | validationFailed (message : String)
  | notFound (message : String)
  | conflict (message : String)
  | permissionDenied (message : String)
  | invariantViolation (message : String)
  deriving DecidableEq

/-- Why a request ends without a result: a domain error, a constraint of the
database that refused a row, text the database cannot store, a decimal
operation that raises outside the code that would translate it, a key that a
lookup table does not have, text that is not a number, a timestamp outside the
years 1 to 9999, or a query that should have given one row and did not. -/
inductive Failure where
  | domain (error : DomainError)
  | integrity (constraintName : String)
  | unstorableText
  | invalidOperation
  | keyError
  | valueError
  | overflowError
  | notOneRow
  deriving DecidableEq

abbrev Result := Except Failure

def validationFailed {α : Type} (message : String) : Result α :=
  .error (.domain (.validationFailed message))

def notFound {α : Type} (message : String) : Result α := .error (.domain (.notFound message))

def conflict {α : Type} (message : String) : Result α := .error (.domain (.conflict message))

def permissionDenied {α : Type} (message : String) : Result α :=
  .error (.domain (.permissionDenied message))

inductive PrivacyScope where
  | «public»
  | internal
  | confidential
  | restricted
  deriving DecidableEq

def PrivacyScope.text : PrivacyScope → String
  | .public => "PUBLIC"
  | .internal => "INTERNAL"
  | .confidential => "CONFIDENTIAL"
  | .restricted => "RESTRICTED"

inductive SourceType where
  | systemOfRecord
  | api
  | document
  | human
  | agent
  deriving DecidableEq

def SourceType.text : SourceType → String
  | .systemOfRecord => "SYSTEM_OF_RECORD"
  | .api => "API"
  | .document => "DOCUMENT"
  | .human => "HUMAN"
  | .agent => "AGENT"

def hour : ℤ := 3600000000

def day : ℤ := 24 * hour

/-- The proleptic Gregorian date of a day number, day 0 being 1970-01-01. -/
def civilDate (dayNumber : ℤ) : ℤ × ℕ × ℕ :=
  let z := dayNumber + 719468
  let era := z / 146097
  let dayOfEra := (z % 146097).toNat
  let yearOfEra := (dayOfEra - dayOfEra / 1460 + dayOfEra / 36524 - dayOfEra / 146096) / 365
  let dayOfYear := dayOfEra - (365 * yearOfEra + yearOfEra / 4 - yearOfEra / 100)
  let shifted := (5 * dayOfYear + 2) / 153
  let month := if shifted < 10 then shifted + 3 else shifted - 9
  let year := yearOfEra + era * 400 + if month ≤ 2 then 1 else 0
  (year, month, dayOfYear - (153 * shifted + 2) / 5 + 1)

/-- A clock time of day; the fraction is left out when it is zero. -/
def clockText (micros : ℕ) : List Char :=
  let seconds := micros / 1000000
  let fraction := micros % 1000000
  zeroPad 2 (seconds / 3600) ++ ':' :: zeroPad 2 (seconds / 60 % 60) ++
    ':' :: zeroPad 2 (seconds % 60) ++ (if fraction = 0 then [] else '.' :: zeroPad 6 fraction)

/-- An offset of whole minutes is written without seconds. -/
def offsetText (offset : ℤ) : List Char :=
  let micros := offset.natAbs
  let text := clockText micros
  (if offset < 0 then '-' else '+') :: (if micros % 60000000 = 0 then text.take 5 else text)

def Datetime.isoformat (value : Datetime) : String :=
  let date := civilDate (value.wall / day)
  String.ofList (zeroPad 4 date.1.toNat ++ '-' :: zeroPad 2 date.2.1 ++ '-' :: zeroPad 2 date.2.2 ++
    'T' :: clockText (value.wall % day).toNat ++ (value.utcoffset.map offsetText).getD [])

/-- The text of a timestamp in UTC. -/
def isoformat (t : Instant) : String := Datetime.isoformat ⟨t, some 0⟩

example : Datetime.isoformat ⟨1790166600000000, some (2 * hour)⟩ = "2026-09-23T12:30:00+02:00" := by
  decide +kernel

/-- The groups of hexadecimal digits of an identifier, joined by hyphens. -/
def uuidText (id : Uuid) : String :=
  let hex := hexDigits 32 id.toNat
  String.ofList (hex.take 8 ++ '-' :: (hex.drop 8).take 4 ++ '-' :: (hex.drop 12).take 4 ++
    '-' :: (hex.drop 16).take 4 ++ '-' :: hex.drop 20)

theorem uuidText_toList (id : Uuid) : (uuidText id).toList =
    (hexDigits 32 id.toNat).take 8 ++ ('-' :: (((hexDigits 32 id.toNat).drop 8).take 4 ++
      ('-' :: (((hexDigits 32 id.toNat).drop 12).take 4 ++
        ('-' :: (((hexDigits 32 id.toNat).drop 16).take 4 ++
          '-' :: (hexDigits 32 id.toNat).drop 20)))))) := by
  simp [uuidText]

theorem length_uuidText (id : Uuid) : (uuidText id).toList.length = 36 := by
  rw [uuidText_toList]
  simp [length_hexDigits]

theorem uuidText_injective : Function.Injective uuidText := by
  intro a b h
  have hgroups : ∀ l : List Char, l = l.take 8 ++ ((l.drop 8).take 4 ++ ((l.drop 12).take 4 ++
      ((l.drop 16).take 4 ++ l.drop 20))) := by
    intro l
    have hnext : ∀ n, (l.drop n).take 4 ++ l.drop (n + 4) = l.drop n := by
      intro n
      rw [← List.drop_drop]
      exact List.take_append_drop 4 (l.drop n)
    rw [hnext 16, hnext 12, hnext 8, List.take_append_drop]
  have htext := congrArg String.toList h
  rw [uuidText_toList, uuidText_toList] at htext
  obtain ⟨hfirst, htext⟩ := List.append_inj htext (by simp [length_hexDigits])
  obtain ⟨hsecond, htext⟩ := List.append_inj (List.cons.inj htext).2 (by simp [length_hexDigits])
  obtain ⟨hthird, htext⟩ := List.append_inj (List.cons.inj htext).2 (by simp [length_hexDigits])
  obtain ⟨hfourth, htext⟩ := List.append_inj (List.cons.inj htext).2 (by simp [length_hexDigits])
  have hhex : hexDigits 32 a.toNat = hexDigits 32 b.toNat := by
    rw [hgroups (hexDigits 32 a.toNat), hfirst, hsecond, hthird, hfourth, (List.cons.inj htext).2,
      ← hgroups]
  exact BitVec.eq_of_toNat_eq (hexDigits_inj a.isLt b.isLt hhex)

def natText (n : ℕ) : String := String.ofList (digits n)

theorem bind_eq_ok {α β : Type} {x : Result α} {f : α → Result β} {b : β} :
    (x >>= f) = .ok b ↔ ∃ a, x = .ok a ∧ f a = .ok b := by
  cases x with
  | error e => simp [Bind.bind, Except.bind]
  | ok a => simp [Bind.bind, Except.bind]

theorem map_eq_ok {α β : Type} {x : Result α} {f : α → β} {b : β} :
    x.map f = .ok b ↔ ∃ a, x = .ok a ∧ f a = b := by
  cases x with
  | error e => simp [Except.map]
  | ok a => simp [Except.map]

/-- A list of results comes from a list of arguments. -/
theorem mem_of_mapM_eq_ok {α β : Type} {f : α → Result β} {inputs : List α} {outputs : List β}
    (h : inputs.mapM f = .ok outputs) {b : β} (hb : b ∈ outputs) :
    ∃ a ∈ inputs, f a = .ok b := by
  induction inputs generalizing outputs with
  | nil =>
    obtain rfl := Except.ok.inj h
    exact absurd hb (by simp)
  | cons a inputs ih =>
    rw [List.mapM_cons] at h
    obtain ⟨first, hfirst, h⟩ := bind_eq_ok.mp h
    obtain ⟨rest, hrest, h⟩ := bind_eq_ok.mp h
    obtain rfl := Except.ok.inj h
    rcases List.mem_cons.mp hb with rfl | hb
    · exact ⟨a, by simp, hfirst⟩
    · obtain ⟨c, hc, hfc⟩ := ih hrest hb
      exact ⟨c, List.mem_cons_of_mem a hc, hfc⟩

theorem eq_ok_of_toOption {α : Type} {x : Result α} {a : α} (h : x.toOption = some a) :
    x = .ok a := by
  cases x with
  | error e => exact absurd h (by simp [Except.toOption])
  | ok b => rw [Option.some.inj h]

def requireAware (value : Datetime) (field : String) : Result Instant :=
  match value.utcoffset with
  | none => validationFailed (field ++ " must include a timezone (e.g. 2026-09-23T10:30:00Z)")
  | some offset => .ok (value.wall - offset)

def requireAwareOption (value : Option Datetime) (field : String) :
    Result (Option Instant) :=
  match value with
  | none => .ok none
  | some value => (requireAware value field).map some

/-- What the services take from the runtime: character classes of the Unicode
database and the SHA-256 digest, as lower-case hexadecimal text. -/
structure Runtime where
  isPrintable : Char → Bool
  sha256 : String → String

end ContextLedger.Values
