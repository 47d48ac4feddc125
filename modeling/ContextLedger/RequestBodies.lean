import ContextLedger.Idempotency

/-!
How the body of a request reaches the endpoint. The client sends it in parts, or goes
away; the outer middleware counts the bytes and shows an overflow as a disconnect;
the inner one reads the parts it is given up to the end or a disconnect, and plays
what it has read to the endpoint as one complete part.
-/
namespace ContextLedger.RequestBodies

open Numerals Values JsonText Events Idempotency

/-- What an application receives for a request. -/
inductive Received where
  | request (body : Bytes) (moreBody : Bool)
  | disconnect
  deriving DecidableEq

def isAsciiSpace (c : Char) : Bool := [' ', '\t', '\n', '\r', '\x0b', '\x0c'].contains c

/-- The digits of `int`, with single underscores between them. -/
def digitsInt (text : List Char) : Option ℕ :=
  let digits := text.filter (· ≠ '_')
  if (text.splitOn '_').all (fun group => !group.isEmpty && group.all Char.isDigit) ∧
      digits.length ≤ 4300 then some (Nat.ofDigitChars 10 digits 0)
  else none

/-- `int` of bytes. -/
def bytesInt (value : String) : Option ℤ :=
  let text := ((value.toList.dropWhile isAsciiSpace).reverse.dropWhile isAsciiSpace).reverse
  match text with
  | '-' :: text => (digitsInt text).map fun n => -(n : ℤ)
  | '+' :: text => (digitsInt text).map Int.ofNat
  | _ => (digitsInt text).map Int.ofNat

/-- The status of a refusal by the declared length. -/
def declaredRefusal (maxBytes : ℤ) : List (String × String) → Option ℕ
  | [] => none
  | (name, value) :: headers =>
    if name = "content-length" then
      match bytesInt value with
      | none => some 400
      | some declared => if maxBytes < declared then some 413 else declaredRefusal maxBytes headers
    else declaredRefusal maxBytes headers

/-- What the application receives in place of the client's messages: from the part on
that passes the limit, disconnects. `received` counts the bytes before. -/
def limitedReceive (maxBytes : ℤ) : ℕ → List Received → List Received
  | _, [] => []
  | received, .disconnect :: rest => .disconnect :: limitedReceive maxBytes received rest
  | received, .request body moreBody :: rest =>
    if maxBytes < ((received + body.length : ℕ) : ℤ) then
      .disconnect :: rest.map fun _ => .disconnect
    else .request body moreBody :: limitedReceive maxBytes (received + body.length) rest

/-- The messages behind the size limit; a limit of zero or less means none. -/
def behindLimit (maxBytes : ℤ) (messages : List Received) : List Received :=
  if maxBytes ≤ 0 then messages else limitedReceive maxBytes 0 messages

/-- The parts up to the end or a disconnect; nothing while more is to come. -/
def readBody : List Received → Option Bytes
  | [] => none
  | .disconnect :: _ => some []
  | .request body moreBody :: rest => if moreBody then (readBody rest).map (body ++ ·) else some body

def replayReceive (body : Bytes) : List Received := [.request body false]

/-- The body that the client sent, when it sent all of it. -/
def completeBody : List Received → Option Bytes
  | [] => none
  | .disconnect :: _ => none
  | .request body moreBody :: rest =>
    if moreBody then (completeBody rest).map (body ++ ·) else some body

/-- What the client sent of the body. -/
def bodySent : List Received → Bytes
  | [] => []
  | .disconnect :: _ => []
  | .request body moreBody :: rest => if moreBody then body ++ bodySent rest else body

/-- The client goes away before the last part. -/
def disconnects : List Received → Bool
  | [] => false
  | .disconnect :: _ => true
  | .request _ moreBody :: rest => moreBody && disconnects rest

def exceeds (maxBytes : ℤ) (messages : List Received) : Bool :=
  decide (0 < maxBytes ∧ maxBytes < ((bodySent messages).length : ℤ))

def detail (maxBytes : ℤ) : String :=
  "request body exceeds " ++ String.ofList (Literal.ofInt maxBytes).render ++ " bytes"

def rejectBody (status : ℕ) (detail : String) : Bytes :=
  encode (dumps jsonStyle (.obj
    [("type", .str "about:blank"),
     ("title", .str (if status = 413 then "Content Too Large" else "Bad Request")),
     ("status", .int status),
     ("code", .str (if status = 413 then "payload_too_large" else "bad_request")),
     ("detail", .str detail)]))

/-- The refusal of the size limit. -/
def reject (maxBytes : ℤ) (status : ℕ) : List Message :=
  let body := rejectBody status
    (if status = 413 then detail maxBytes else "invalid Content-Length header")
  [.start status
    [("content-type", "application/problem+json"), ("content-length", natText body.length)],
   .body body]

variable {maxBytes : ℤ} {messages : List Received} {body : Bytes}

theorem completeBody_eq_some (h : completeBody messages = some body) :
    disconnects messages = false ∧ bodySent messages = body ∧ readBody messages = some body := by
  induction messages generalizing body with
  | nil => exact absurd h (by simp [completeBody])
  | cons message rest ih =>
    cases message with
    | disconnect => exact absurd h (by simp [completeBody])
    | request part moreBody =>
      cases moreBody with
      | false =>
        obtain rfl := Option.some.inj h
        exact ⟨rfl, rfl, rfl⟩
      | true =>
        obtain ⟨tail, htail, rfl⟩ := Option.map_eq_some_iff.mp h
        obtain ⟨hdisconnects, hsent, hread⟩ := ih htail
        refine ⟨hdisconnects, ?_, ?_⟩
        · show part ++ bodySent rest = part ++ tail
          rw [hsent]
        · show (readBody rest).map (part ++ ·) = some (part ++ tail)
          rw [hread]
          rfl

/-- What is read without a disconnect is complete. -/
theorem completeBody_of_readBody (hread : readBody messages = some body)
    (h : disconnects messages = false) : completeBody messages = some body := by
  induction messages generalizing body with
  | nil => exact absurd hread (by simp [readBody])
  | cons message rest ih =>
    cases message with
    | disconnect => exact absurd h (by simp [disconnects])
    | request part moreBody =>
      cases moreBody with
      | false => exact hread
      | true =>
        obtain ⟨tail, htail, rfl⟩ := Option.map_eq_some_iff.mp hread
        show (completeBody rest).map (part ++ ·) = some (part ++ tail)
        rw [ih htail h]
        rfl

/-- A disconnect ends the reading. -/
theorem readBody_of_disconnects (h : disconnects messages = true) :
    ∃ body, readBody messages = some body := by
  induction messages with
  | nil => exact absurd h (by simp [disconnects])
  | cons message rest ih =>
    cases message with
    | disconnect => exact ⟨[], rfl⟩
    | request part moreBody =>
      cases moreBody with
      | false => exact absurd h (by simp [disconnects])
      | true =>
        obtain ⟨tail, htail⟩ := ih h
        refine ⟨part ++ tail, ?_⟩
        show (readBody rest).map (part ++ ·) = some (part ++ tail)
        rw [htail]
        rfl

theorem completeBody_limitedReceive {received : ℕ}
    (h : completeBody (limitedReceive maxBytes received messages) = some body) :
    completeBody messages = some body := by
  induction messages generalizing received body with
  | nil => exact absurd h (by simp [limitedReceive, completeBody])
  | cons message rest ih =>
    cases message with
    | disconnect => exact absurd h (by simp [limitedReceive, completeBody])
    | request part moreBody =>
      rw [limitedReceive] at h
      split_ifs at h with hover
      · exact absurd h (by simp [completeBody])
      · cases moreBody with
        | false => exact h
        | true =>
          obtain ⟨tail, htail, rfl⟩ := Option.map_eq_some_iff.mp h
          show (completeBody rest).map (part ++ ·) = some (part ++ tail)
          rw [ih htail]
          rfl

/-- The limit lets the application see a disconnect exactly when the client goes away
or what it sends passes the limit. -/
theorem disconnects_limitedReceive {received : ℕ} (hwithin : (received : ℤ) ≤ maxBytes) :
    disconnects (limitedReceive maxBytes received messages) = true ↔
      disconnects messages = true ∨
        maxBytes < ((received + (bodySent messages).length : ℕ) : ℤ) := by
  induction messages generalizing received with
  | nil =>
    simp only [limitedReceive, disconnects, bodySent, List.length_nil, Nat.add_zero]
    exact ⟨fun h => absurd h Bool.false_ne_true,
      fun h => h.elim (fun h => absurd h Bool.false_ne_true) fun h => absurd hwithin (not_le.mpr h)⟩
  | cons message rest ih =>
    cases message with
    | disconnect => exact ⟨fun _ => .inl rfl, fun _ => rfl⟩
    | request part moreBody =>
      rw [limitedReceive]
      split_ifs with hover
      · refine ⟨fun _ => .inr (lt_of_lt_of_le hover ?_), fun _ => rfl⟩
        cases moreBody with
        | false => exact le_rfl
        | true =>
          rw [bodySent, if_pos rfl, List.length_append]
          omega
      · have hnext := ih (not_lt.mp hover)
        cases moreBody with
        | false =>
          exact ⟨fun h => absurd h (by simp [disconnects]), fun h => h.elim
            (fun h => absurd h (by simp [disconnects])) fun h => absurd h hover⟩
        | true =>
          rw [bodySent, if_pos rfl, List.length_append, ← Nat.add_assoc]
          exact hnext

theorem completeBody_behindLimit (h : completeBody (behindLimit maxBytes messages) = some body) :
    completeBody messages = some body := by
  rw [behindLimit] at h
  split_ifs at h
  · exact h
  · exact completeBody_limitedReceive h

theorem disconnects_behindLimit :
    disconnects (behindLimit maxBytes messages) = true ↔
      disconnects messages = true ∨ exceeds maxBytes messages = true := by
  rw [behindLimit, exceeds, decide_eq_true_eq]
  split_ifs with hoff
  · exact ⟨.inl, fun h => h.elim id fun h => absurd h.1 (not_lt.mpr hoff)⟩
  · have hon : 0 < maxBytes := not_le.mp hoff
    rw [disconnects_limitedReceive (by simpa using hon.le), Nat.zero_add]
    simp [hon]

/-- Neither cut short by the client nor over the limit. -/
theorem intact_of_completeBody_behindLimit
    (h : completeBody (behindLimit maxBytes messages) = some body) :
    disconnects messages = false ∧ exceeds maxBytes messages = false := by
  have hnone := (completeBody_eq_some h).1
  constructor
  · by_contra hne
    have htrue : disconnects (behindLimit maxBytes messages) = true :=
      disconnects_behindLimit.mpr (.inl (Bool.eq_true_of_not_eq_false hne))
    rw [hnone] at htrue
    exact Bool.false_ne_true htrue
  · by_contra hne
    have htrue : disconnects (behindLimit maxBytes messages) = true :=
      disconnects_behindLimit.mpr (.inr (Bool.eq_true_of_not_eq_false hne))
    rw [hnone] at htrue
    exact Bool.false_ne_true htrue

end ContextLedger.RequestBodies
