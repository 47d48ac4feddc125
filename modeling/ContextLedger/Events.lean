import ContextLedger.JsonText
import ContextLedger.Values

/-!
Domain events on their way through the broker: the envelope, the topic of each
type of event, the message that carries an event, and what a consumer does with a
message it is given. Parsing and validating the text of an envelope is left to
the codec. A call of the processor is a small machine: it decodes, leaves alone
what it does not subscribe to, tries a bounded number of times, and at last hands
the message to the dead-letter topic.
-/
namespace ContextLedger.Events

open Values JsonText

abbrev Bytes := List UInt8

def encode (s : String) : Bytes := s.toUTF8.data.toList

def factsTopic : String := "contextledger.facts.v1"

def evidenceTopic : String := "contextledger.evidence.v1"

def decisionsTopic : String := "contextledger.decisions.v1"

def deadLetterTopic (topic : String) : String := topic ++ ".dlq"

/-- `EVENT_TYPES`, with the topic of each type. -/
def eventTypes : List (String × String) :=
  [("fact.version_recorded", factsTopic), ("fact.embedding_stored", factsTopic),
   ("contradiction.detected", factsTopic), ("fact.revoked", factsTopic),
   ("evidence.captured", evidenceTopic), ("evidence.linked", evidenceTopic),
   ("context.captured", decisionsTopic), ("decision.recorded", decisionsTopic),
   ("decision.impacted", decisionsTopic)]

/-- No topic means `UnknownEventTypeError`. -/
def topicFor (eventType : String) : Option String := eventTypes.lookup eventType

/-- The version of the specification and the source are the same for all. -/
structure EventEnvelope where
  id : Uuid
  type : String
  schemaVersion : ℤ
  organizationId : Uuid
  subject : Uuid
  time : Instant
  data : Json

structure OutgoingMessage where
  topic : String
  key : Bytes
  value : Bytes
  headers : List (String × Bytes)
  deriving DecidableEq

structure IncomingMessage where
  topic : String
  partition : ℕ
  offset : ℕ
  key : Option Bytes
  value : Bytes
  headers : List (String × Bytes)
  deriving DecidableEq

/-- The text of an envelope, its validation, and the validation of the data of a
type; an error is the name of the exception. -/
structure Codec where
  modelDumpJson : EventEnvelope → String
  modelValidateJson : Bytes → Except String EventEnvelope
  validateData : String → Json → Except String Unit

def decode (codec : Codec) (value : Bytes) : Except String EventEnvelope := do
  let event ← codec.modelValidateJson value
  if (topicFor event.type).isNone then throw "UnknownEventTypeError"
  codec.validateData event.type event.data
  return event

/-- A row of the event outbox. -/
structure OutboxEvent where
  id : ℕ
  eventId : Uuid
  organizationId : Uuid
  eventType : String
  aggregateId : Uuid
  payload : Json
  occurredAt : Instant

def envelopeFor (event : OutboxEvent) : EventEnvelope :=
  ⟨event.eventId, event.eventType, 1, event.organizationId, event.aggregateId, event.occurredAt,
    event.payload⟩

/-- The tenant is the key, so one tenant's events share a partition. -/
def messageFor (codec : Codec) (event : OutboxEvent) : Option OutgoingMessage :=
  (topicFor event.eventType).map fun topic =>
    ⟨topic, encode (uuidText event.organizationId),
      encode (codec.modelDumpJson (envelopeFor event)),
      [("event_type", encode event.eventType), ("event_id", encode (uuidText event.eventId))]⟩

structure EventHandler where
  name : String
  topics : List String
  eventTypes : List String

inductive Outcome where
  | handled
  | duplicate
  | ignored
  | deadLettered
  deriving DecidableEq

/-- How an attempt ends without an outcome. -/
inductive AttemptError where
  | permanent (message : String)
  | transient (error : String)

structure EventProcessor where
  codec : Codec
  handler : EventHandler
  maxAttempts : ℕ

/-- A call of `process`; `α` is the state of the attempt it makes. -/
inductive Phase (α : Type) where
  | attempting (event : EventEnvelope) (attempt : ℕ) (inner : α)
  | deadLettering (error : String) (attempts : ℕ)
  | returned (outcome : Outcome)
  | raised

section Process

variable {α : Type} (processor : EventProcessor) (start : α)

/-- The call up to its first attempt. -/
def Phase.begin (message : IncomingMessage) : Phase α :=
  match decode processor.codec message.value with
  | .error name => .deadLettering ("undecodable: " ++ name) 0
  | .ok event =>
    if event.type ∉ processor.handler.eventTypes then .returned .ignored
    else if processor.maxAttempts = 0 then .deadLettering "no attempt made" 0
    else .attempting event 1 start

/-- What follows an attempt that raised. -/
def Phase.failed (event : EventEnvelope) (attempt : ℕ) : AttemptError → Phase α
  | .permanent message => .deadLettering ("permanent: " ++ message) attempt
  | .transient error =>
    if attempt < processor.maxAttempts then .attempting event (attempt + 1) start
    else .deadLettering error attempt

end Process

def firstChars (n : ℕ) (s : String) : String := String.ofList (s.toList.take n)

/-- The copy that goes to the dead-letter topic. -/
def deadLetter (handler : EventHandler) (message : IncomingMessage) (error : String)
    (attempts : ℕ) : OutgoingMessage :=
  ⟨deadLetterTopic message.topic, message.key.getD [], message.value,
    message.headers ++
      [("dlq_consumer", encode handler.name), ("dlq_error", encode (firstChars 500 error)),
       ("dlq_attempts", encode (toString attempts)),
       ("dlq_source", encode s!"{message.topic}/{message.partition}/{message.offset}")]⟩

/-- The data of an event about a captured document. -/
def exampleData : Json :=
  .obj [("id", .str (uuidText 9)), ("source_id", .str (uuidText 3)),
    ("evidence_type", .str "DOCUMENT_EXCERPT"),
    ("content_sha256", .str "0000000000000000000000000000000000000000000000000000000000000000"),
    ("privacy_scope", .str "INTERNAL"), ("captured_at", .str "1970-01-01T00:00:00+00:00"),
    ("recorded_at", .str "1970-01-01T00:00:00+00:00")]

def exampleEvent : EventEnvelope := ⟨7, "evidence.captured", 1, 1, 9, 0, exampleData⟩

/-- The text of that event. -/
def exampleText : String :=
  "\x7b\"specversion\":\"1.0\",\"id\":\"00000000-0000-0000-0000-000000000007\"," ++
  "\"type\":\"evidence.captured\",\"source\":\"contextledger\",\"schema_version\":1," ++
  "\"organization_id\":\"00000000-0000-0000-0000-000000000001\"," ++
  "\"subject\":\"00000000-0000-0000-0000-000000000009\",\"time\":\"1970-01-01T00:00:00Z\"," ++
  "\"data\":\x7b\"id\":\"00000000-0000-0000-0000-000000000009\"," ++
  "\"source_id\":\"00000000-0000-0000-0000-000000000003\",\"evidence_type\":\"DOCUMENT_EXCERPT\"," ++
  "\"content_sha256\":\"0000000000000000000000000000000000000000000000000000000000000000\"," ++
  "\"privacy_scope\":\"INTERNAL\",\"captured_at\":\"1970-01-01T00:00:00+00:00\"," ++
  "\"recorded_at\":\"1970-01-01T00:00:00+00:00\"\x7d\x7d"

/-- A codec that knows this one text. -/
def exampleCodec : Codec where
  modelDumpJson := fun _ => exampleText
  modelValidateJson := fun value =>
    if value = encode exampleText then .ok exampleEvent else .error "ValidationError"
  validateData := fun _ _ => .ok ()

theorem decode_exampleText : decode exampleCodec (encode exampleText) = .ok exampleEvent := by
  simp only [decode, exampleCodec, if_pos]
  rfl

theorem eq_exampleEvent_of_decode {value : Bytes} {event : EventEnvelope}
    (h : decode exampleCodec value = .ok event) : event = exampleEvent := by
  by_cases hvalue : value = encode exampleText
  · rw [hvalue, decode_exampleText] at h
    exact (Except.ok.inj h).symm
  · have herror : decode exampleCodec value = .error "ValidationError" := by
      simp only [decode, exampleCodec, if_neg hvalue]
      rfl
    exact absurd (herror.symm.trans h) (by simp)

end ContextLedger.Events
