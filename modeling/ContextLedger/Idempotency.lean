import ContextLedger.Authorization
import ContextLedger.Base64
import ContextLedger.Events
import ContextLedger.JsonReader
import ContextLedger.MemoryStore
import ContextLedger.Processes
import ContextLedger.Transition
import ContextLedger.Validation

/-!
The middleware that answers a repeated POST from the response of the first one. A
request with an idempotency key reserves the key in the store, runs the endpoint,
and then records the response under the key or releases it; a request that finds
the key taken looks up what is there and answers by itself. Every store operation
is a step of its own, and so is every message the endpoint sends.
-/
namespace ContextLedger.Idempotency

open Values Authorization Validation JsonText JsonReader Base64 Events MemoryStore

structure TokenClaims where
  userId : Uuid
  organizationId : Option Uuid
  scopes : Option (List Permission)
  maxPrivacyScope : Option PrivacyScope
  agentClientId : Option Uuid

/-- Header names are in lower case. -/
structure HttpRequest where
  method : String
  path : String
  queryString : Bytes
  headers : List (String × String)
  body : Bytes

def HttpRequest.header (request : HttpRequest) (name : String) : Option String :=
  request.headers.lookup name

/-- Verifying a token depends on the time, since tokens expire. -/
structure Middleware where
  verify : ℚ → String → Option TokenClaims
  sha256 : Bytes → String
  allowHeaderAuth : Bool
  ttlSeconds : ℕ
  lockSeconds : ℕ
  le_ttl : 60 ≤ ttlSeconds
  le_lock : 1 ≤ lockSeconds

def maxStoredBody : ℕ := 1024 * 1024

def replayedResponseHeaders : List String := ["content-type", "location", "etag"]

def excludedPaths : List String := ["/oauth/token", "/auth/dev-token"]

/-- Up to 255 printable characters of ASCII, without spaces. -/
def isKey (rawKey : String) : Bool :=
  decide (1 ≤ rawKey.length ∧ rawKey.length ≤ 255) &&
    rawKey.toList.all fun c => decide (0x21 ≤ c.toNat ∧ c.toNat ≤ 0x7e)

def isBrace (c : Char) : Bool := c == '\x7b' || c == '\x7d'

/-- Digits of base 16, with single underscores between them. -/
def readDigits : Bool → ℕ → List Char → Option ℕ
  | behindDigit, n, [] => if behindDigit then some n else none
  | behindDigit, n, c :: rest =>
    if c = '_' then if behindDigit then readDigits false n rest else none
    else (hexValue c).bind fun d => readDigits true (n * 16 + d) rest

/-- `int(hex, 16)` of a text without hyphens: there may be blanks around it, a sign, a
prefix with an underscore behind it, and underscores. -/
def intOfHex (hex : List Char) : Option ℕ :=
  let bare := ((hex.dropWhile isSpace).reverse.dropWhile isSpace).reverse
  let unsigned := if bare.head? = some '+' then bare.tail else bare
  match unsigned with
  | '0' :: x :: rest =>
    if x = 'x' ∨ x = 'X' then
      readDigits false 0 (if rest.head? = some '_' then rest.tail else rest)
    else readDigits false 0 unsigned
  | _ => readDigits false 0 unsigned

/-- `UUID` of a text: 32 characters that are a number to base 16, with hyphens, in braces
or as a URN. -/
def readUuid (text : String) : Option Uuid :=
  let bare := ((text.replace "urn:" "").replace "uuid:" "").toList
  let hex := ((bare.dropWhile isBrace).reverse.dropWhile isBrace).reverse.filter (· ≠ '-')
  if hex.length = 32 then (intOfHex hex).map (BitVec.ofNat 128) else none

/-- The scheme before the first space and the text behind it. -/
def partition (text : String) : String × String :=
  (String.ofList (text.toList.takeWhile (· ≠ ' ')),
    String.ofList (text.toList.dropWhile (· ≠ ' ')).tail)

def bearerClaims (mw : Middleware) (now : ℚ) (authorization : String) : Option TokenClaims :=
  let (scheme, token) := partition authorization
  if lower scheme ≠ "bearer" ∨ token = "" then none else mw.verify now (strip token)

/-- The authenticated caller that a key belongs to. -/
def subject (mw : Middleware) (now : ℚ) (request : HttpRequest) : Option String :=
  let authorization := (request.header "authorization").getD ""
  if authorization ≠ "" then
    (bearerClaims mw now authorization).map fun claims =>
      match claims.agentClientId with
      | some agent => "agent:" ++ uuidText agent
      | none => "user:" ++ uuidText claims.userId
  else
    let raw := (request.header "x-contextledger-user-id").getD ""
    if mw.allowHeaderAuth ∧ raw ≠ "" then (readUuid raw).map fun user => "user:" ++ uuidText user
    else none

def fingerprint (mw : Middleware) (request : HttpRequest) : String :=
  mw.sha256 (List.intercalate [0]
    [encode request.method, encode request.path, request.queryString, request.body])

def keyPrefix : String := "cl:idempotency:"

def storeKey (mw : Middleware) (subject rawKey : String) : String :=
  keyPrefix ++ mw.sha256 (encode subject ++ 0 :: encode rawKey)

structure Keyed where
  storeKey : String
  fingerprint : String
  deriving DecidableEq

inductive Dispatch where
  | passThrough
  | invalidKey
  | keyed (key : Keyed)

/-- What the middleware does with a request before it touches the store. -/
def dispatch (mw : Middleware) (now : ℚ) (request : HttpRequest) : Dispatch :=
  if request.method ≠ "POST" then .passThrough
  else
    match request.header "idempotency-key" with
    | none => .passThrough
    | some rawKey =>
      if excludedPaths.any fun path => path.toList.isSuffixOf request.path.toList then .passThrough
      else if !isKey rawKey then .invalidKey
      else
        match subject mw now request with
        | none => .passThrough
        | some subject => .keyed ⟨storeKey mw subject rawKey, fingerprint mw request⟩

/-- What the endpoint sends: the start of the response, then parts of its body. -/
inductive Message where
  | start (status : ℕ) (headers : List (String × String))
  | body (chunk : Bytes)

structure Captured where
  status : ℕ
  headers : List (String × String)
  chunks : List Bytes
  size : ℕ

def keptHeaders (headers : List (String × String)) : List (String × String) :=
  (headers.filter fun h => replayedResponseHeaders.contains (lower h.1)).map fun h =>
    (lower h.1, h.2)

def capture (c : Captured) : Message → Captured
  | .start status headers => { c with status, headers := c.headers ++ keptHeaders headers }
  | .body chunk =>
    { c with
      size := c.size + chunk.length
      chunks := if c.size + chunk.length ≤ maxStoredBody then c.chunks ++ [chunk] else c.chunks }

def captured (sent : List Message) : Captured := sent.foldl capture ⟨500, [], [], 0⟩

/-- The endpoint ended with a 2xx whose body can be stored. -/
def Captured.storable (c : Captured) : Bool :=
  decide (200 ≤ c.status ∧ c.status < 300) && decide (c.size ≤ maxStoredBody)

def jsonStyle : Style := ⟨true, true⟩

def pendingRecord (fingerprint : String) : Json :=
  .obj [("state", .str "pending"), ("fingerprint", .str fingerprint)]

def doneFields (fingerprint : String) (c : Captured) : List (String × Json) :=
  [("state", .str "done"), ("fingerprint", .str fingerprint), ("status", .int c.status),
   ("headers", .arr (c.headers.map fun h => .arr [.str h.1, .str h.2])),
   ("body", .str (String.ofList (b64encode c.chunks.flatten)))]

def doneRecord (fingerprint : String) (c : Captured) : Json := .obj (doneFields fingerprint c)

structure Response where
  status : ℕ
  headers : List (String × String)
  body : Bytes
  deriving DecidableEq

inductive Answer where
  | problem (status : ℕ) (code detail : String) (headers : List (String × String))
  | replay (response : Response)
  | raised
  deriving DecidableEq

def Answer.invalidKey : Answer :=
  .problem 400 "idempotency_key_invalid"
    "Idempotency-Key must be 1-255 printable ASCII characters without spaces" []

def Answer.unavailable : Answer :=
  .problem 503 "service_unavailable" "idempotency keys cannot be honoured right now; retry later" []

def Answer.reused : Answer :=
  .problem 422 "idempotency_key_reused"
    "this Idempotency-Key was already used for a different request" []

def Answer.inUse : Answer :=
  .problem 409 "idempotency_key_in_use"
    "a request with this Idempotency-Key is still being processed" [("Retry-After", "1")]

def textOf : Json → Option String
  | .str s => some s
  | _ => none

def statusOf : Json → Option ℕ
  | .int i => if 0 ≤ i then some i.toNat else none
  | _ => none

def itemsOf : Json → Option (List Json)
  | .arr items => some items
  | _ => none

def headerOf : Json → Option (String × String)
  | .arr [.str name, .str value] => some (name, value)
  | _ => none

def readResponse (record : List (String × Json)) : Option Response := do
  let status ← (record.lookup "status").bind statusOf
  let items ← (record.lookup "headers").bind itemsOf
  let headers ← items.mapM headerOf
  let text ← (record.lookup "body").bind textOf
  let body ← b64decode text.toList
  return ⟨status, headers ++ [("idempotent-replayed", "true")], body⟩

/-- The answer to a request that found its key taken. -/
def answerRecord (record : List (String × Json)) (fingerprint : String) : Answer :=
  if record = [] then .inUse
  else
    match record.lookup "fingerprint" with
    | none => .raised
    | some value =>
      if textOf value ≠ some fingerprint then .reused
      else if (record.lookup "state").bind textOf ≠ some "done" then .inUse
      else (readResponse record).elim .raised .replay

def answerExisting (existing : Option String) (fingerprint : String) : Answer :=
  match existing with
  | none => answerRecord [] fingerprint
  | some text =>
    match loads text with
    | some (.obj record) => answerRecord record fingerprint
    | _ => .raised

/-- How a request that has left the middleware ended; `sent` are the endpoint's messages. -/
inductive Outcome where
  | passed (sent : List Message)
  | answered (answeredAt : ℚ) (answer : Answer)
  | recorded (reservedAt recordedAt : ℚ) (sent : List Message)
  | recordLost (reservedAt : ℚ) (sent : List Message)
  | released (reservedAt releasedAt : ℚ) (sent : List Message) (raised : Bool)
  | releaseFailed (reservedAt : ℚ) (sent : List Message) (raised : Bool)

/-- `passing` runs the endpoint without a key; `reserving` is about to set the key,
`lookingUp` found it taken; `ended` has the endpoint behind it, but not the store. -/
inductive Phase where
  | passing (sent : List Message)
  | reserving
  | lookingUp
  | running (reservedAt : ℚ) (sent : List Message)
  | ended (reservedAt : ℚ) (sent : List Message) (raised : Bool)
  | finished (outcome : Outcome)

structure Call where
  request : HttpRequest
  keyed : Option Keyed
  phase : Phase

structure World where
  store : Store
  now : ℚ
  calls : List Call

/-- `foreign` is any other use of the store. -/
inductive Action where
  | arrive (request : HttpRequest)
  | reserve (i : ℕ) (available : Bool)
  | lookup (i : ℕ) (available : Bool)
  | emit (i : ℕ) (message : Message) (sendRaises : Bool)
  | finishApp (i : ℕ) (raises : Bool)
  | settle (i : ℕ) (available : Bool)
  | foreign (key : String) (entry : Option Entry)
  | tick (now : ℚ)

def arriving (mw : Middleware) (w : World) (request : HttpRequest) : Call :=
  match dispatch mw w.now request with
  | .passThrough => ⟨request, none, .passing []⟩
  | .invalidKey => ⟨request, none, .finished (.answered w.now .invalidKey)⟩
  | .keyed key => ⟨request, some key, .reserving⟩

/-- The start comes first and once, the parts of the body behind it. -/
def mayEmit (sent : List Message) : Message → Bool
  | .start _ _ => sent.isEmpty
  | .body _ => !sent.isEmpty

def emitted (phase : Phase) (message : Message) : Option Phase :=
  match phase with
  | .passing sent => if mayEmit sent message then some (.passing (sent ++ [message])) else none
  | .running reservedAt sent =>
    if mayEmit sent message then some (.running reservedAt (sent ++ [message])) else none
  | _ => none

/-- The last store operation of a request that ran: record the response or release the key. -/
def settled (mw : Middleware) (w : World) (key : Keyed) (reservedAt : ℚ) (sent : List Message)
    (raised available : Bool) : Store × Outcome :=
  if !raised && (captured sent).storable then
    if available then
      ((w.store.set w.now key.storeKey
        (dumps jsonStyle (doneRecord key.fingerprint (captured sent))) mw.ttlSeconds false).2,
        .recorded reservedAt w.now sent)
    else (w.store, .recordLost reservedAt sent)
  else if available then (w.store.delete key.storeKey, .released reservedAt w.now sent raised)
  else (w.store, .releaseFailed reservedAt sent raised)

def World.setCall (w : World) (i : ℕ) (call : Call) : World :=
  { w with calls := w.calls.set i call }

/-- A step of one request. -/
def stepCall (mw : Middleware) (w : World) (i : ℕ) (call : Call) : Action → Option World
  | .reserve _ available =>
    match call.keyed, call.phase with
    | some key, .reserving =>
      if available then
        let (reserved, store) := w.store.set w.now key.storeKey
          (dumps jsonStyle (pendingRecord key.fingerprint)) mw.lockSeconds true
        let phase : Phase := if reserved then .running w.now [] else .lookingUp
        some { w.setCall i { call with phase } with store }
      else some (w.setCall i { call with phase := .finished (.answered w.now .unavailable) })
    | _, _ => none
  | .lookup _ available =>
    match call.keyed, call.phase with
    | some key, .lookingUp =>
      let answer := if available then
          answerExisting (w.store.get w.now key.storeKey) key.fingerprint
        else .unavailable
      some (w.setCall i { call with phase := .finished (.answered w.now answer) })
    | _, _ => none
  | .emit _ message _ =>
    (emitted call.phase message).map fun phase => w.setCall i { call with phase }
  | .finishApp _ raises =>
    match call.phase with
    | .passing sent => some (w.setCall i { call with phase := .finished (.passed sent) })
    | .running reservedAt sent =>
      some (w.setCall i { call with phase := .ended reservedAt sent raises })
    | _ => none
  | .settle _ available =>
    match call.keyed, call.phase with
    | some key, .ended reservedAt sent raised =>
      let (store, outcome) := settled mw w key reservedAt sent raised available
      some { w.setCall i { call with phase := .finished outcome } with store }
    | _, _ => none
  | _ => none

/-- The request that an action is about. -/
def Action.call : Action → Option ℕ
  | .reserve i _ => some i
  | .lookup i _ => some i
  | .emit i _ _ => some i
  | .finishApp i _ => some i
  | .settle i _ => some i
  | _ => none

def isKeyOf (key : String) : Bool := keyPrefix.toList.isPrefixOf key.toList

def stepOther (mw : Middleware) (w : World) : Action → Option World
  | .arrive request => some { w with calls := w.calls ++ [arriving mw w request] }
  | .foreign key entry =>
    if isKeyOf key then none
    else some { w with store := entry.elim (w.store.delete key) (w.store.insert key) }
  | .tick now => if w.now ≤ now then some { w with now } else none
  | _ => none

def step (mw : Middleware) (w : World) (a : Action) : Option World :=
  match a.call with
  | none => stepOther mw w a
  | some i => (w.calls[i]?).bind fun call => stepCall mw w i call a

/-- No request has come, and no key is in the store. -/
structure Start (w : World) : Prop where
  calls : w.calls = []
  keys : ∀ key, isKeyOf key → w.store.find key = none

def system (mw : Middleware) : Transition.System World Action := ⟨Start, step mw⟩

def pendingText (key : Keyed) : String := dumps jsonStyle (pendingRecord key.fingerprint)

def doneText (key : Keyed) (sent : List Message) : String :=
  dumps jsonStyle (doneRecord key.fingerprint (captured sent))

/-- The request takes another phase, and the store another content. -/
def World.moved (w : World) (i : ℕ) (call : Call) (phase : Phase) (store : Store) : World :=
  ⟨store, w.now, w.calls.set i { call with phase }⟩

/-- What a step of a request can do. -/
inductive Moved (mw : Middleware) (w : World) (i : ℕ) (call : Call) : Action → World → Prop
  | reserved (key : Keyed) (hkey : call.keyed = some key) (hphase : call.phase = .reserving)
      (hfree : w.store.live w.now key.storeKey = none) :
      Moved mw w i call (.reserve i true) (w.moved i call (.running w.now [])
        (w.store.insert key.storeKey ⟨pendingText key, w.now + mw.lockSeconds⟩))
  | found (key : Keyed) (hkey : call.keyed = some key) (hphase : call.phase = .reserving)
      (htaken : w.store.live w.now key.storeKey ≠ none) :
      Moved mw w i call (.reserve i true) (w.moved i call .lookingUp w.store)
  | lookedUp (key : Keyed) (hkey : call.keyed = some key) (hphase : call.phase = .lookingUp) :
      Moved mw w i call (.lookup i true) (w.moved i call (.finished (.answered w.now
        (answerExisting (w.store.get w.now key.storeKey) key.fingerprint))) w.store)
  | refused {a : Action} (ha : a = .reserve i false ∨ a = .lookup i false)
      (hphase : call.phase = .reserving ∨ call.phase = .lookingUp) :
      Moved mw w i call a (w.moved i call (.finished (.answered w.now .unavailable)) w.store)
  | passing (message : Message) (raises : Bool) (sent : List Message)
      (hphase : call.phase = .passing sent) :
      Moved mw w i call (.emit i message raises) (w.moved i call (.passing (sent ++ [message]))
        w.store)
  | sent (message : Message) (raises : Bool) (reservedAt : ℚ) (sent : List Message)
      (hphase : call.phase = .running reservedAt sent) (hmay : mayEmit sent message = true) :
      Moved mw w i call (.emit i message raises)
        (w.moved i call (.running reservedAt (sent ++ [message])) w.store)
  | passed (raises : Bool) (sent : List Message) (hphase : call.phase = .passing sent) :
      Moved mw w i call (.finishApp i raises) (w.moved i call (.finished (.passed sent)) w.store)
  | ended (raises : Bool) (reservedAt : ℚ) (sent : List Message)
      (hphase : call.phase = .running reservedAt sent) :
      Moved mw w i call (.finishApp i raises) (w.moved i call (.ended reservedAt sent raises)
        w.store)
  | recorded (key : Keyed) (reservedAt : ℚ) (sent : List Message) (hkey : call.keyed = some key)
      (hphase : call.phase = .ended reservedAt sent false)
      (hstorable : (captured sent).storable = true) :
      Moved mw w i call (.settle i true) (w.moved i call
        (.finished (.recorded reservedAt w.now sent))
        (w.store.insert key.storeKey ⟨doneText key sent, w.now + mw.ttlSeconds⟩))
  | released (key : Keyed) (reservedAt : ℚ) (sent : List Message) (raised : Bool)
      (hkey : call.keyed = some key) (hphase : call.phase = .ended reservedAt sent raised)
      (hfailed : raised = true ∨ (captured sent).storable = false) :
      Moved mw w i call (.settle i true) (w.moved i call
        (.finished (.released reservedAt w.now sent raised)) (w.store.delete key.storeKey))
  | lost (outcome : Outcome) (reservedAt : ℚ) (sent : List Message) (raised : Bool)
      (hphase : call.phase = .ended reservedAt sent raised)
      (houtcome : outcome = .recordLost reservedAt sent ∨
        outcome = .releaseFailed reservedAt sent raised) :
      Moved mw w i call (.settle i false) (w.moved i call (.finished outcome) w.store)

theorem set_of_absent {store : Store} {now : ℚ} {key value : String} {ttl : ℚ}
    (h : store.live now key = none) :
    store.set now key value ttl true = (true, store.insert key ⟨value, now + ttl⟩) := by
  rw [Store.set, h]
  rfl

theorem set_of_present {store : Store} {now : ℚ} {key value : String} {ttl : ℚ}
    (h : store.live now key ≠ none) : store.set now key value ttl true = (false, store) := by
  rw [Store.set, Option.isSome_iff_ne_none.mpr h]
  rfl

theorem set_always (store : Store) (now : ℚ) (key value : String) (ttl : ℚ) :
    store.set now key value ttl false = (true, store.insert key ⟨value, now + ttl⟩) := rfl

theorem moved_reserve {mw : Middleware} {w w' : World} {i : ℕ} {call : Call} {available : Bool}
    (h : stepCall mw w i call (.reserve i available) = some w') :
    Moved mw w i call (.reserve i available) w' := by
  obtain ⟨request, keyed, phase⟩ := call
  cases keyed with
  | none => exact absurd h (by simp [stepCall])
  | some key =>
    cases phase with
    | reserving =>
      cases available with
      | false =>
        obtain rfl := Option.some.inj h
        exact .refused (Or.inl rfl) (Or.inl rfl)
      | true =>
        cases hlive : w.store.live w.now key.storeKey with
        | none =>
          simp only [stepCall, if_true, set_of_absent hlive] at h
          obtain rfl := Option.some.inj h
          exact .reserved key rfl rfl hlive
        | some entry =>
          have htaken : w.store.live w.now key.storeKey ≠ none := by simp [hlive]
          simp only [stepCall, if_true, set_of_present htaken] at h
          obtain rfl := Option.some.inj h
          exact .found key rfl rfl htaken
    | passing sent => exact absurd h (by simp [stepCall])
    | lookingUp => exact absurd h (by simp [stepCall])
    | running reservedAt sent => exact absurd h (by simp [stepCall])
    | ended reservedAt sent raised => exact absurd h (by simp [stepCall])
    | finished outcome => exact absurd h (by simp [stepCall])

theorem moved_settle {mw : Middleware} {w w' : World} {i : ℕ} {call : Call} {available : Bool}
    (h : stepCall mw w i call (.settle i available) = some w') :
    Moved mw w i call (.settle i available) w' := by
  obtain ⟨request, keyed, phase⟩ := call
  cases keyed with
  | none => exact absurd h (by simp [stepCall])
  | some key =>
    cases phase with
    | ended reservedAt sent raised =>
      obtain rfl := Option.some.inj h
      cases raised with
      | true =>
        cases available with
        | true => exact .released key reservedAt sent true rfl rfl (Or.inl rfl)
        | false => exact .lost _ reservedAt sent true rfl (Or.inr rfl)
      | false =>
        cases hstorable : (captured sent).storable with
        | true =>
          cases available with
          | true => exact .recorded key reservedAt sent rfl rfl hstorable
          | false => exact .lost _ reservedAt sent false rfl (Or.inl rfl)
        | false =>
          cases available with
          | true => exact .released key reservedAt sent false rfl rfl (Or.inr hstorable)
          | false => exact .lost _ reservedAt sent false rfl (Or.inr rfl)
    | passing sent => exact absurd h (by simp [stepCall])
    | reserving => exact absurd h (by simp [stepCall])
    | lookingUp => exact absurd h (by simp [stepCall])
    | running reservedAt sent => exact absurd h (by simp [stepCall])
    | finished outcome => exact absurd h (by simp [stepCall])

theorem moved_lookup {mw : Middleware} {w w' : World} {i : ℕ} {call : Call} {available : Bool}
    (h : stepCall mw w i call (.lookup i available) = some w') :
    Moved mw w i call (.lookup i available) w' := by
  obtain ⟨request, keyed, phase⟩ := call
  cases keyed with
  | none => exact absurd h (by simp [stepCall])
  | some key =>
    cases phase with
    | lookingUp =>
      obtain rfl := Option.some.inj h
      cases available with
      | true => exact .lookedUp key rfl rfl
      | false => exact .refused (Or.inr rfl) (Or.inr rfl)
    | passing sent => exact absurd h (by simp [stepCall])
    | reserving => exact absurd h (by simp [stepCall])
    | running reservedAt sent => exact absurd h (by simp [stepCall])
    | ended reservedAt sent raised => exact absurd h (by simp [stepCall])
    | finished outcome => exact absurd h (by simp [stepCall])

theorem moved_emit {mw : Middleware} {w w' : World} {i : ℕ} {call : Call} {message : Message}
    {raises : Bool} (h : stepCall mw w i call (.emit i message raises) = some w') :
    Moved mw w i call (.emit i message raises) w' := by
  obtain ⟨request, keyed, phase⟩ := call
  obtain ⟨phase', hphase, rfl⟩ := Option.map_eq_some_iff.mp h
  cases phase with
  | passing sent =>
    simp only [emitted] at hphase
    split at hphase
    · obtain rfl := Option.some.inj hphase
      exact .passing message raises sent rfl
    · exact absurd hphase (by simp)
  | running reservedAt sent =>
    simp only [emitted] at hphase
    split at hphase
    · rename_i hmay
      obtain rfl := Option.some.inj hphase
      exact .sent message raises reservedAt sent rfl hmay
    · exact absurd hphase (by simp)
  | reserving => exact absurd hphase (by simp [emitted])
  | lookingUp => exact absurd hphase (by simp [emitted])
  | ended reservedAt sent raised => exact absurd hphase (by simp [emitted])
  | finished outcome => exact absurd hphase (by simp [emitted])

theorem moved_finishApp {mw : Middleware} {w w' : World} {i : ℕ} {call : Call} {raises : Bool}
    (h : stepCall mw w i call (.finishApp i raises) = some w') :
    Moved mw w i call (.finishApp i raises) w' := by
  obtain ⟨request, keyed, phase⟩ := call
  cases phase with
  | passing sent =>
    obtain rfl := Option.some.inj h
    exact .passed raises sent rfl
  | running reservedAt sent =>
    obtain rfl := Option.some.inj h
    exact .ended raises reservedAt sent rfl
  | reserving => exact absurd h (by simp [stepCall])
  | lookingUp => exact absurd h (by simp [stepCall])
  | ended reservedAt sent raised => exact absurd h (by simp [stepCall])
  | finished outcome => exact absurd h (by simp [stepCall])

/-- What a step can do. -/
inductive Stepped (mw : Middleware) (w : World) : Action → World → Prop
  | arrived (request : HttpRequest) :
      Stepped mw w (.arrive request) { w with calls := w.calls ++ [arriving mw w request] }
  | foreign (key : String) (entry : Option Entry) (hkey : isKeyOf key = false) :
      Stepped mw w (.foreign key entry)
        { w with store := entry.elim (w.store.delete key) (w.store.insert key) }
  | ticked (now : ℚ) (hle : w.now ≤ now) : Stepped mw w (.tick now) { w with now }
  | moved {a : Action} {w' : World} (i : ℕ) (call : Call) (hi : w.calls[i]? = some call)
      (h : Moved mw w i call a w') : Stepped mw w a w'

theorem step_cases {mw : Middleware} {w w' : World} {a : Action} (h : step mw w a = some w') :
    Stepped mw w a w' := by
  cases a with
  | arrive request =>
    obtain rfl := Option.some.inj h
    exact .arrived request
  | foreign key entry =>
    simp only [step, Action.call, stepOther] at h
    split at h
    · exact absurd h (by simp)
    · rename_i hkey
      obtain rfl := Option.some.inj h
      exact .foreign key entry (by simpa using hkey)
  | tick now =>
    simp only [step, Action.call, stepOther] at h
    split at h
    · rename_i hle
      obtain rfl := Option.some.inj h
      exact .ticked now hle
    · exact absurd h (by simp)
  | reserve i available =>
    obtain ⟨call, hi, h⟩ := Option.bind_eq_some_iff.mp h
    exact .moved i call hi (moved_reserve h)
  | lookup i available =>
    obtain ⟨call, hi, h⟩ := Option.bind_eq_some_iff.mp h
    exact .moved i call hi (moved_lookup h)
  | emit i message raises =>
    obtain ⟨call, hi, h⟩ := Option.bind_eq_some_iff.mp h
    exact .moved i call hi (moved_emit h)
  | finishApp i raises =>
    obtain ⟨call, hi, h⟩ := Option.bind_eq_some_iff.mp h
    exact .moved i call hi (moved_finishApp h)
  | settle i available =>
    obtain ⟨call, hi, h⟩ := Option.bind_eq_some_iff.mp h
    exact .moved i call hi (moved_settle h)

theorem getElem?_moved {w : World} {i : ℕ} {call p : Call} {phase : Phase} {store : Store}
    (hi : w.calls[i]? = some p) :
    (w.moved i call phase store).calls[i]? = some { call with phase } := by
  rw [World.moved, List.getElem?_set, if_pos rfl, if_pos (List.getElem?_eq_some_iff.mp hi).1]

/-- A request that a step changed is the one that moved. -/
theorem moved_of_step {mw : Middleware} {w w' : World} {a : Action} (h : step mw w a = some w')
    {i : ℕ} {p p' : Call} (hi : w.calls[i]? = some p) (hi' : w'.calls[i]? = some p')
    (hne : p' ≠ p) : Moved mw w i p a w' := by
  cases step_cases h with
  | arrived request =>
    rw [List.getElem?_append_left (List.getElem?_eq_some_iff.mp hi).1, hi] at hi'
    exact absurd (Option.some.inj hi').symm hne
  | foreign key entry hkey => exact absurd (Option.some.inj (hi.symm.trans hi')).symm hne
  | ticked now hle => exact absurd (Option.some.inj (hi.symm.trans hi')).symm hne
  | moved j mover hj hmoved =>
    by_cases hij : j = i
    · subst hij
      obtain rfl : p = mover := Option.some.inj (hi.symm.trans hj)
      exact hmoved
    · have hcalls : w'.calls[i]? = w.calls[i]? := by
        cases hmoved <;> exact (List.getElem?_set_ne hij)
      exact absurd (Option.some.inj ((hcalls.trans hi).symm.trans hi')).symm hne

theorem uniqueItems_headers (headers : List (String × String)) :
    UniqueItems (headers.map fun h => Json.arr [.str h.1, .str h.2]) := by
  induction headers with
  | nil => trivial
  | cons h headers ih => exact ⟨⟨trivial, trivial, trivial⟩, ih⟩

theorem loads_pendingText (key : Keyed) :
    loads (pendingText key) = some (pendingRecord key.fingerprint) := by
  refine loads_dumps jsonStyle _ ⟨by simp, ?_⟩
  exact ⟨trivial, trivial, trivial⟩

theorem loads_doneText (key : Keyed) (sent : List Message) :
    loads (doneText key sent) = some (doneRecord key.fingerprint (captured sent)) := by
  refine loads_dumps jsonStyle _ ⟨by simp [doneFields], ?_⟩
  exact ⟨trivial, trivial, trivial, uniqueItems_headers _, trivial, trivial⟩

theorem mapM_headerOf (headers : List (String × String)) :
    (headers.map fun h => Json.arr [.str h.1, .str h.2]).mapM headerOf = some headers := by
  induction headers with
  | nil => rfl
  | cons h headers ih =>
    rw [List.map_cons, List.mapM_cons, ih]
    rfl

/-- What a recorded response is replayed as. -/
def replayed (sent : List Message) : Response :=
  ⟨(captured sent).status, (captured sent).headers ++ [("idempotent-replayed", "true")],
    (captured sent).chunks.flatten⟩

theorem readResponse_doneFields (fingerprint : String) (sent : List Message) :
    readResponse (doneFields fingerprint (captured sent)) = some (replayed sent) := by
  obtain ⟨c, hc⟩ : ∃ c, c = captured sent := ⟨_, rfl⟩
  have hstatus : ((doneFields fingerprint c).lookup "status").bind statusOf = some c.status := by
    show (if (0 : ℤ) ≤ (c.status : ℤ) then some (c.status : ℤ).toNat else none) = some c.status
    rw [if_pos (Int.natCast_nonneg _), Int.toNat_natCast]
  have hitems : ((doneFields fingerprint c).lookup "headers").bind itemsOf =
      some (c.headers.map fun h => .arr [.str h.1, .str h.2]) := rfl
  have htext : ((doneFields fingerprint c).lookup "body").bind textOf =
      some (String.ofList (b64encode c.chunks.flatten)) := rfl
  rw [readResponse, ← hc, hstatus, hitems, htext]
  simp only [Option.bind_eq_bind, Option.bind_some]
  rw [mapM_headerOf, String.toList_ofList]
  simp only [Option.bind_some]
  rw [b64decode_b64encode, replayed, ← hc]
  rfl

theorem answerExisting_pending (key : Keyed) (fingerprint : String) :
    answerExisting (some (pendingText key)) fingerprint =
      if key.fingerprint = fingerprint then .inUse else .reused := by
  have hrecord : answerExisting (some (pendingText key)) fingerprint =
      if some key.fingerprint ≠ some fingerprint then .reused else .inUse := by
    rw [answerExisting, loads_pendingText]
    rfl
  rw [hrecord]
  by_cases h : key.fingerprint = fingerprint
  · rw [if_neg (by simp [h]), if_pos h]
  · rw [if_pos (by simpa using h), if_neg h]

theorem answerExisting_done (key : Keyed) (sent : List Message) (fingerprint : String) :
    answerExisting (some (doneText key sent)) fingerprint =
      if key.fingerprint = fingerprint then .replay (replayed sent) else .reused := by
  have hrecord : answerExisting (some (doneText key sent)) fingerprint =
      if some key.fingerprint ≠ some fingerprint then .reused
      else (readResponse (doneFields key.fingerprint (captured sent))).elim .raised .replay := by
    rw [answerExisting, loads_doneText]
    rfl
  rw [hrecord, readResponse_doneFields]
  by_cases h : key.fingerprint = fingerprint
  · rw [if_neg (by simp [h]), if_pos h]
    rfl
  · rw [if_pos (by simpa using h), if_neg h]

/-- A response as the protocol allows it: its start, then parts of its body. -/
def InForm (sent : List Message) : Prop :=
  sent = [] ∨ ∃ (status : ℕ) (headers : List (String × String)) (chunks : List Bytes),
    sent = .start status headers :: chunks.map .body

theorem inForm_append {sent : List Message} {message : Message} (h : InForm sent)
    (hmay : mayEmit sent message = true) : InForm (sent ++ [message]) := by
  cases message with
  | start status headers =>
    rw [List.isEmpty_iff.mp hmay]
    exact Or.inr ⟨status, headers, [], rfl⟩
  | body chunk =>
    rcases h with rfl | ⟨status, headers, chunks, rfl⟩
    · exact absurd hmay (by simp [mayEmit])
    · exact Or.inr ⟨status, headers, chunks ++ [chunk], by simp⟩

/-- A response that fits is captured as it was sent. -/
theorem captured_eq {status : ℕ} {headers : List (String × String)} {chunks : List Bytes}
    (hsize : chunks.flatten.length ≤ maxStoredBody) :
    captured (.start status headers :: chunks.map .body) =
      ⟨status, keptHeaders headers, chunks, chunks.flatten.length⟩ := by
  have hbody : ∀ (rest : List Bytes) (c : Captured),
      c.size + rest.flatten.length ≤ maxStoredBody →
      (rest.map Message.body).foldl capture c =
        { c with chunks := c.chunks ++ rest, size := c.size + rest.flatten.length } := by
    intro rest
    induction rest with
    | nil =>
      intro c _
      simp
    | cons chunk rest ih =>
      intro c hfits
      rw [List.flatten_cons, List.length_append] at hfits
      have hchunk : c.size + chunk.length ≤ maxStoredBody := by omega
      rw [List.map_cons, List.foldl_cons, ih]
      · simp only [capture, if_pos hchunk, List.flatten_cons, List.length_append]
        simp [Nat.add_assoc]
      · simp only [capture]
        omega
  have hstart := hbody chunks ⟨status, keptHeaders headers, [], 0⟩ (by simpa using hsize)
  rw [captured, List.foldl_cons]
  simpa [capture] using hstart

theorem size_captured {status : ℕ} {headers : List (String × String)} (chunks : List Bytes) :
    (captured (.start status headers :: chunks.map .body)).size = chunks.flatten.length := by
  have hbody : ∀ (rest : List Bytes) (c : Captured),
      ((rest.map Message.body).foldl capture c).size = c.size + rest.flatten.length := by
    intro rest
    induction rest with
    | nil =>
      intro c
      simp
    | cons chunk rest ih =>
      intro c
      rw [List.map_cons, List.foldl_cons, ih, List.flatten_cons, List.length_append]
      simp only [capture]
      omega
  rw [captured, List.foldl_cons, hbody]
  simp [capture]

/-- What is recorded was sent: a 2xx start, and a body that fits. -/
theorem sent_of_storable {sent : List Message} (hform : InForm sent)
    (h : (captured sent).storable = true) :
    ∃ (status : ℕ) (headers : List (String × String)) (chunks : List Bytes),
      sent = .start status headers :: chunks.map .body ∧ 200 ≤ status ∧ status < 300 ∧
      replayed sent = ⟨status, keptHeaders headers ++ [("idempotent-replayed", "true")],
        chunks.flatten⟩ := by
  rcases hform with rfl | ⟨status, headers, chunks, rfl⟩
  · exact absurd h (by decide)
  · rw [Captured.storable, Bool.and_eq_true, decide_eq_true_eq, decide_eq_true_eq,
      size_captured] at h
    obtain ⟨hstatus, hsize⟩ := h
    have hcaptured : captured (.start status headers :: chunks.map .body) =
        ⟨status, keptHeaders headers, chunks, chunks.flatten.length⟩ := captured_eq hsize
    rw [hcaptured] at hstatus
    refine ⟨status, headers, chunks, rfl, hstatus.1, hstatus.2, ?_⟩
    rw [replayed, hcaptured]

end ContextLedger.Idempotency
