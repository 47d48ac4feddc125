import ContextLedger.InvestigatorTools
import ContextLedger.Grounding
import ContextLedger.PythonText

/-!
The loop of the investigator. The model is asked with the whole conversation; it
either calls tools, whose replies join the conversation, or sends its answer, whose
ids are held against what the tools returned. Two budgets end the loop: one on the
questions to the model, one on the calls handed to tools. The run also keeps a log
of both that the code does not have.
-/
namespace ContextLedger.Investigator

open Numerals JsonText Values Validation Authorization Retrieval RetrievalCache Decisions
open ServiceReads InvestigatorTools
open Grounding (Raised subscript)

/-- What the services answer; the number says which call of a tool it is. -/
structure Backend where
  receipt : ℕ → Uuid → Result DecisionReceipt
  lineage : ℕ → Uuid → Result Lineage
  decisionsRelyingOn : ℕ → Uuid → Result (List Uuid)
  search : ℕ → SearchArgs → Result RetrievalResult

def receiptAnswer (receipt : DecisionReceipt) : Answer where
  payload :=
    [("decision_id", .plain (.str (uuidText receipt.decisionId))),
     ("action", .plain (.str receipt.action)),
     ("outcome", .plain (valueJson receipt.outcome)),
     ("rationale", .plain (textOrNull receipt.rationale)),
     ("agent", .plain (textOrNull receipt.agent)),
     ("decided_at", .plain (.str (isoformat receipt.decidedAt))),
     ("context_known_at", .plain (.str (isoformat receipt.context.knownAt))),
     ("context_valid_at", .plain (.str (isoformat receipt.context.validAt))),
     ("integrity_verified", .plain (.bool receipt.integrityVerified)),
     ("facts", .facts (receipt.facts.map receiptShown))]
  observed := receipt.decisionId :: receipt.facts.map ReceiptFact.factVersionId

def lineageAnswer (l : Lineage) : Answer where
  payload := lineagePayload l
  observed := (l.version :: l.ancestors ++ l.descendants).map Reference.VersionSnapshot.id

def relyingAnswer (versionId : Uuid) (ids : List Uuid) : Answer where
  payload :=
    [("fact_version_id", .plain (.str (uuidText versionId))),
     ("decision_ids", .plain (.arr (ids.map fun id => .str (uuidText id))))]
  observed := ids

def toolAnswer (backend : Backend) (k : ℕ) : ToolCall → Result Answer
  | .getDecisionReceipt decisionId => (backend.receipt k decisionId).map receiptAnswer
  | .getFactLineage versionId => (backend.lineage k versionId).map lineageAnswer
  | .findDecisionsRelyingOn versionId =>
    (backend.decisionsRelyingOn k versionId).map (relyingAnswer versionId)
  | .searchFacts args => (backend.search k args).map (searchAnswer args)

/-- The services themselves, each call at its moment. -/
def serviceBackend (b : ServiceBackend) (ctx : TenantContext) (moments : ℕ → Moment) :
    Backend where
  receipt k decisionId := Decisions.receipt b.rt [] ctx decisionId (moments k).db
  lineage k versionId := ServiceReads.lineage (moments k).db ctx versionId
  decisionsRelyingOn k versionId := ServiceReads.decisionsRelyingOn (moments k).db ctx versionId
  search k args := InvestigatorTools.search b ctx (moments k) args.request

theorem bind_return_eq_map {α β : Type} (x : Result α) (f : α → β) :
    (do let a ← x; return f a) = x.map f := by
  cases x with
  | error failure => rfl
  | ok a => rfl

theorem toolAnswer_serviceBackend (b : ServiceBackend) (ctx : TenantContext)
    (moments : ℕ → Moment) (k : ℕ) (call : ToolCall) :
    toolAnswer (serviceBackend b ctx moments) k call = runTool b ctx (moments k) call := by
  cases call with
  | getDecisionReceipt decisionId => exact (bind_return_eq_map _ receiptAnswer).symm
  | getFactLineage versionId => exact (bind_return_eq_map _ lineageAnswer).symm
  | findDecisionsRelyingOn versionId =>
    exact (bind_return_eq_map _ (relyingAnswer versionId)).symm
  | searchFacts args => rfl

structure Call where
  id : String
  name : String
  args : List (String × Json)

/-- What the model sends. -/
structure ModelReply where
  content : String
  toolCalls : List Call
  inputTokens : ℕ
  outputTokens : ℕ

inductive Message where
  | system (text : String)
  | human (text : String)
  | assistant (content : String) (toolCalls : List Call)
  | tool (content : String) (callId : String)

/-- Why the model gives no reply: an error of generation, by its class, or another
exception. -/
inductive Fault where
  | generation (cause : String)
  | other

inductive InvestigationStatus where
  | answered
  | insufficientEvidence
  | ungrounded
  | stepLimit
  | failed
  deriving DecidableEq

structure Investigation where
  question : String
  status : InvestigationStatus
  answer : Option String
  citedIds : List String
  rejectedIds : List String
  promptVersion : String
  model : String
  steps : ℕ
  toolCalls : List ToolRecord
  inputTokens : ℕ
  outputTokens : ℕ
  error : Option String

/-- What an investigator is built with, and what it calls: the model, and the
schemas of the tools, which give the call or the places of the errors. -/
structure DecisionInvestigator where
  rt : Runtime
  maxSteps : ℕ
  maxToolCalls : ℕ
  promptVersion : String
  modelId : String
  system : String
  renderUser : String → String
  generate : List Message → Except Fault ModelReply
  validate : String → List (String × Json) → Except (List (List String)) ToolCall
  backend : Backend

/-- `asked` is the conversation at every question to the model, the last one first,
`toolRuns` the calls handed to a tool and `executed` those a tool answered. -/
structure State where
  messages : List Message
  ledger : ToolLedger
  callsMade : ℕ
  result : Investigation
  asked : List (List Message)
  toolRuns : ℕ
  executed : List (ToolCall × Answer)

/-- How a run ends: with its result, with the error that carries the result so far,
or with an exception that nothing handles. -/
inductive Outcome where
  | finished
  | failed (message cause : String)
  | raised

def errorText (message : String) : String := dumps defaultStyle (.obj [("error", .str message)])

def toolNames : List String :=
  ["get_decision_receipt", "get_fact_lineage", "find_decisions_relying_on", "search_facts"]

/-- The places of the errors, each once, in order. -/
def errorFields (places : List (List String)) : List String :=
  ((places.map fun place => String.intercalate "." place).dedup).insertionSort (· ≤ ·)

variable (inv : DecisionInvestigator)

/-- One call of a tool: its reply and the state after it, or an exception. -/
def runTool (s : State) (call : Call) : Option String × State :=
  let s := { s with toolRuns := s.toolRuns + 1 }
  if call.name ∉ toolNames then
    (some (errorText ("unknown tool " ++ String.ofList (PythonText.reprText inv.rt call.name))), s)
  else
    match inv.validate call.name call.args with
    | .error places =>
      (some (errorText ("invalid arguments: " ++
        String.intercalate ", " (errorFields places))), s)
    | .ok toolCall =>
      match toolAnswer inv.backend s.toolRuns toolCall with
      | .ok answer =>
        (some (Reply.text (.answer answer.payload)),
          { s with
            ledger :=
              { observed := s.ledger.observed ++ answer.observed.map uuidText
                records := s.ledger.records ++ [⟨toolCall.name, true, none⟩] }
            executed := s.executed ++ [(toolCall, answer)] })
      | .error (.domain error) =>
        (some (Reply.text (.error (toolMessage error))),
          { s with
            ledger :=
              { s.ledger with
                records := s.ledger.records ++ [⟨toolCall.name, false, some (toolMessage error)⟩] } })
      | .error _ => (none, s)

/-- A call past the budget is answered without a tool. -/
def answerCall (s : State) (call : Call) : Option String × State :=
  let s := { s with callsMade := s.callsMade + 1 }
  if inv.maxToolCalls < s.callsMade then (some (errorText "tool call budget exhausted"), s)
  else runTool inv s call

/-- Every call of a reply, in order; false when an exception ended them. -/
def answerCalls (s : State) : List Call → Bool × State
  | [] => (true, s)
  | call :: rest =>
    match answerCall inv s call with
    | (some content, s) =>
      answerCalls { s with messages := s.messages ++ [.tool content call.id] } rest
    | (none, s) => (false, s)

structure FinalFields where
  answer : String
  insufficient : Bool
  cited : List String

/-- The fields of the last reply; every error on the way means it is malformed. -/
def finalFields (rt : Runtime) (content : String) : Option FinalFields := do
  let data ← (PythonText.loads content).toOption
  let answer ← (subscript data "answer").toOption
  let insufficient ← (subscript data "insufficient_evidence").toOption
  let cited ← (subscript data "cited_ids").toOption
  let items ← PythonText.iterate cited
  return ⟨PythonText.str rt answer, PythonText.truth insufficient, items.map (PythonText.str rt)⟩

def finish (result : Investigation) (fields : FinalFields) (ledger : ToolLedger) :
    Investigation :=
  let rejected := fields.cited.filter fun id => id ∉ ledger.observed
  let cited := fields.cited.filter fun id => id ∈ ledger.observed
  let result := { result with rejectedIds := rejected, citedIds := cited }
  if rejected ≠ [] ∨ (fields.insufficient = false ∧ cited = []) then
    { result with status := .ungrounded, answer := none }
  else if fields.insufficient then
    { result with status := .insufficientEvidence, answer := some fields.answer }
  else { result with status := .answered, answer := some fields.answer }

def fail (result : Investigation) (cause : String) : Investigation :=
  { result with status := .failed, error := some cause, answer := none }

/-- The state in which the model is asked. -/
def ask (s : State) : State :=
  { s with
    result := { s.result with steps := s.result.steps + 1 }
    asked := s.messages :: s.asked }

/-- The state after a reply. -/
def hear (s : State) (reply : ModelReply) : State :=
  { s with
    result :=
      { s.result with
        inputTokens := s.result.inputTokens + reply.inputTokens
        outputTokens := s.result.outputTokens + reply.outputTokens }
    messages := s.messages ++ [.assistant reply.content reply.toolCalls] }

/-- The loop, with the number of questions that are left. -/
def loop : ℕ → State → State × Outcome
  | 0, s => (s, .finished)
  | remaining + 1, s =>
    match inv.generate s.messages with
    | .error (.generation cause) =>
      ({ ask s with result := fail (ask s).result cause },
        .failed "the model could not complete the investigation" cause)
    | .error .other => (ask s, .raised)
    | .ok reply =>
      let heard := hear (ask s) reply
      if reply.toolCalls = [] then
        match finalFields inv.rt reply.content with
        | none =>
          ({ heard with result := fail heard.result "MalformedGenerationError" },
            .failed "the model returned a malformed investigation" "MalformedGenerationError")
        | some fields => ({ heard with result := finish heard.result fields heard.ledger }, .finished)
      else
        match answerCalls inv heard reply.toolCalls with
        | (true, s) => loop remaining s
        | (false, s) => (s, .raised)

def start (question : String) : State where
  messages := [.system inv.system, .human (inv.renderUser question)]
  ledger := ⟨[], []⟩
  callsMade := 0
  result := ⟨question, .stepLimit, none, [], [], inv.promptVersion, inv.modelId, 0, [], 0, 0, none⟩
  asked := []
  toolRuns := 0
  executed := []

def maxQuestionChars : ℕ := 1000

/-- The result of a run, which shares its list of calls with the ledger. -/
def State.investigation (s : State) : Investigation :=
  { s.result with toolCalls := s.ledger.records }

def investigate (question : String) : Result (State × Outcome) :=
  let question := strip question
  if question = "" ∨ maxQuestionChars < question.length then
    validationFailed ("question must be 1-" ++ natText maxQuestionChars ++ " characters")
  else .ok (loop inv inv.maxSteps (start inv question))

end ContextLedger.Investigator
