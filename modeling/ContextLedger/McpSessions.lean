import ContextLedger.Processes
import ContextLedger.Transition
import ContextLedger.Values

/-!
What an MCP session remembers between tool calls. The calls of one session run
side by side: a search remembers its query and a capture its snapshot, each by
loading the whole stored object, changing its own field and storing the object
again; a decision without a snapshot reads the remembered one. A load and a store
are single operations of the key-value store, and others come between them.
-/
namespace ContextLedger.McpSessions

open Values Transition Processes

def maxRecentQueries : ℕ := 10

/-- The stored object, whose fields are absent until they are first written. -/
structure SessionData where
  lastSnapshotId : Option Uuid
  snapshotFactVersionIds : List Uuid
  recentQueries : List String
  updatedAt : Option Instant
  deriving DecidableEq

def SessionData.empty : SessionData := ⟨none, [], [], none⟩

def rememberQuery (query : String) (data : SessionData) : SessionData :=
  { data with recentQueries :=
      (query :: data.recentQueries.filter (· ≠ query)).take maxRecentQueries }

def rememberSnapshot (snapshotId : Uuid) (factVersionIds : List Uuid) (data : SessionData) :
    SessionData :=
  { data with lastSnapshotId := some snapshotId, snapshotFactVersionIds := factVersionIds }

def noSnapshotMessage : String :=
  "no snapshot_id given and none captured in this session; " ++
    "call capture_decision_context first or pass snapshot_id"

/-- What `record_decision` takes when it is given no snapshot; `none` stands for a store
that cannot be read. -/
def lastSnapshot (context : Option SessionData) : Except String Uuid :=
  match context.bind SessionData.lastSnapshotId with
  | some snapshotId => .ok snapshotId
  | none => .error noSnapshotMessage

inductive Request where
  | searchFacts (query : String)
  | captureDecisionContext (snapshotId : Uuid) (factVersionIds : List Uuid)
  | recordDecision
  deriving DecidableEq

/-- Where a call is; the number of the step in which it ended is kept. -/
inductive Phase where
  | begun
  | loaded (data : SessionData)
  | saved (step : ℕ)
  | skipped
  | answered (step : ℕ) (answer : Except String Uuid)
  deriving DecidableEq

structure Call where
  request : Request
  began : ℕ
  phase : Phase
  deriving DecidableEq

structure Entry where
  data : SessionData
  expires : ℚ

/-- The entry under the key of the session, and its calls; `steps` counts the steps. -/
structure World where
  entry : Option Entry
  ttlSeconds : ℚ
  now : ℚ
  steps : ℕ
  calls : List Call

inductive Action where
  | start (request : Request)
  | load (i : ℕ) (available : Bool)
  | save (i : ℕ) (available : Bool) (clock : Instant)
  | tick (now : ℚ)

namespace World

/-- `_load`: an entry whose time has come counts as absent. -/
def load (w : World) : SessionData :=
  match w.entry.filter fun e => decide (w.now < e.expires) with
  | none => .empty
  | some e => e.data

def withPhase (w : World) (i : ℕ) (call : Call) (phase : Phase) : World :=
  { w with calls := w.calls.set i { call with phase }, steps := w.steps + 1 }

end World

def loadPhase (w : World) (call : Call) (available : Bool) : Option Phase :=
  match call.phase, call.request with
  | .begun, .recordDecision =>
    some (.answered w.steps (lastSnapshot (if available then some w.load else none)))
  | .begun, _ => some (if available then .loaded w.load else .skipped)
  | _, _ => none

def Request.change : Request → SessionData → SessionData
  | .searchFacts query => rememberQuery query
  | .captureDecisionContext snapshotId factVersionIds => rememberSnapshot snapshotId factVersionIds
  | .recordDecision => id

/-- `_save`: the whole object, stamped, under a new time to live. -/
def saveEntry (w : World) (data : SessionData) (clock : Instant) : Entry :=
  ⟨{ data with updatedAt := some clock }, w.now + w.ttlSeconds⟩

def step (w : World) : Action → Option World
  | .start request => some { w with
      calls := w.calls ++ [⟨request, w.steps, .begun⟩], steps := w.steps + 1 }
  | .load i available =>
    w.calls[i]?.bind fun call => (loadPhase w call available).map (w.withPhase i call)
  | .save i available clock =>
    w.calls[i]?.bind fun call =>
      match call.phase with
      | .loaded data =>
        if available then
          some { w.withPhase i call (.saved w.steps) with
            entry := some (saveEntry w (call.request.change data) clock) }
        else some (w.withPhase i call .skipped)
      | _ => none
  | .tick now => if w.now ≤ now then some { w with now, steps := w.steps + 1 } else none

structure Start (w : World) : Prop where
  calls : w.calls = []

def system : System World Action := ⟨Start, step⟩

/-- The store answers, and what it holds for the session has not expired. -/
def storeUp (w : World) : Action → Bool
  | .load _ available => available && w.entry.all fun e => decide (w.now < e.expires)
  | .save _ available _ => available
  | _ => true

/-- The snapshot that is stored for the session. -/
def World.remembered (w : World) : Option Uuid := w.entry.bind fun e => e.data.lastSnapshotId

/-- No search stores an object whose snapshot was replaced since the search loaded it. -/
def notStale (w : World) : Action → Bool
  | .save i _ _ =>
    w.calls[i]?.all fun call =>
      match call.request, call.phase with
      | .searchFacts _, .loaded data => data.lastSnapshotId == w.remembered
      | _, _ => true
  | _ => true

end ContextLedger.McpSessions
