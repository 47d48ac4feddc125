import ContextLedger.IdempotentKeys
import ContextLedger.Memberships

/-!
The pipeline of a request: the idempotency middleware in front, then the endpoint
with its dependencies. An endpoint below an organization first authenticates the
caller, then reads the agent's client and the membership, each in a transaction of
its own, and answers with a 2xx only when it has a tenant context. The tables change
meanwhile, by the transactions of the membership and agent services.
-/
namespace ContextLedger.RequestPipeline

open Values Authorization Schema Tenancy Idempotency

/-- How far the dependencies of the endpoint have come. -/
inductive Served where
  | begun
  | authenticated (principal : Principal)
  | reading (principal : Principal) (clients : List AgentClient)
  | tenant (ctx : TenantContext)
  | refused

structure World where
  http : Idempotency.World
  tenants : Memberships.World
  served : List Served

/-- The middleware and the routes: `organizationOf` is the organization in the path of an
endpoint below `/organizations/ID`. -/
structure Api where
  middleware : Middleware
  organizationOf : HttpRequest → Option Uuid

def principalOf (claims : TokenClaims) : Principal :=
  ⟨claims.userId, claims.organizationId, claims.scopes, claims.maxPrivacyScope,
    claims.agentClientId⟩

def authenticate (mw : Middleware) (now : ℚ) (request : HttpRequest) : Option Principal :=
  let authorization := (request.header "authorization").getD ""
  if authorization ≠ "" then (bearerClaims mw now authorization).map principalOf
  else
    let raw := (request.header "x-contextledger-user-id").getD ""
    if mw.allowHeaderAuth ∧ raw ≠ "" then
      (readUuid raw).map fun user => ⟨user, none, none, none, none⟩
    else none

/-- The endpoint has been called and has not returned. -/
def inEndpoint : Phase → Bool
  | .passing _ => true
  | .running _ _ => true
  | _ => false

def isSuccess (status : ℕ) : Bool := decide (200 ≤ status ∧ status < 300)

/-- Without a tenant context an endpoint of an organization does not succeed. -/
def mayStart (api : Api) (request : HttpRequest) (served : Served) : Message → Bool
  | .start status _ =>
    match api.organizationOf request, served with
    | none, _ => true
    | some _, .tenant _ => true
    | some _, _ => !isSuccess status
  | .body _ => true

inductive Action where
  | http (a : Idempotency.Action)
  | tenants (a : Memberships.Action)
  | authenticate (i : ℕ) (withinLimit : Bool)
  | readClients (i : ℕ)
  | readMembership (i : ℕ)

def World.serve (w : World) (i : ℕ) (served : Served) : World :=
  { w with served := w.served.set i served }

def allowed (api : Api) (w : World) : Idempotency.Action → Bool
  | .emit i message _ =>
    match w.http.calls[i]?, w.served[i]? with
    | some call, some served => mayStart api call.request served message
    | _, _ => false
  | _ => true

/-- A request that arrives is served from the beginning. -/
def servedAfter (w : World) : Idempotency.Action → List Served
  | .arrive _ => w.served ++ [.begun]
  | _ => w.served

def step (api : Api) (w : World) : Action → Option World
  | .http a =>
    if allowed api w a then
      (Idempotency.step api.middleware w.http a).map fun http =>
        { w with http, served := servedAfter w a }
    else none
  | .tenants a => (Memberships.step w.tenants a).map fun tenants => { w with tenants }
  | .authenticate i withinLimit =>
    match w.http.calls[i]?, w.served[i]? with
    | some call, some .begun =>
      if inEndpoint call.phase then
        some (w.serve i (match authenticate api.middleware w.http.now call.request with
          | none => .refused
          | some principal => if withinLimit then .authenticated principal else .refused))
      else none
    | _, _ => none
  | .readClients i =>
    match w.served[i]? with
    | some (.authenticated principal) =>
      some (w.serve i (.reading principal w.tenants.directory.agentClients))
    | _ => none
  | .readMembership i =>
    match w.http.calls[i]?, w.served[i]? with
    | some call, some (.reading principal clients) =>
      (api.organizationOf call.request).map fun org =>
        w.serve i (match getTenant clients w.tenants.directory.db org principal with
          | .error _ => .refused
          | .ok ctx => .tenant ctx)
    | _, _ => none

structure Start (w : World) : Prop where
  http : Idempotency.Start w.http
  tenants : Memberships.Start w.tenants
  served : w.served = []

def system (api : Api) : Transition.System World Action := ⟨Start, step api⟩

/-- What a step of the dependencies does to the request it is about. -/
inductive Serving (api : Api) (w : World) (call : Call) : Served → Served → Prop where
  | authenticated (principal : Principal)
      (h : authenticate api.middleware w.http.now call.request = some principal) :
      Serving api w call .begun (.authenticated principal)
  | refused (served : Served) : Serving api w call served .refused
  | read (principal : Principal) : Serving api w call (.authenticated principal)
      (.reading principal w.tenants.directory.agentClients)
  | resolved (principal : Principal) (clients : List AgentClient) (org : Uuid)
      (ctx : TenantContext) (horg : api.organizationOf call.request = some org)
      (h : getTenant clients w.tenants.directory.db org principal = .ok ctx) :
      Serving api w call (.reading principal clients) (.tenant ctx)

/-- Everything a step can do. -/
inductive Stepped (api : Api) (w : World) : Action → World → Prop where
  | http (a : Idempotency.Action) (http : Idempotency.World) (hallowed : allowed api w a = true)
      (hstep : Idempotency.step api.middleware w.http a = some http) :
      Stepped api w (.http a) { w with http, served := servedAfter w a }
  | tenants (a : Memberships.Action) (tenants : Memberships.World)
      (hstep : Memberships.step w.tenants a = some tenants) :
      Stepped api w (.tenants a) { w with tenants }
  | served (a : Action) (i : ℕ) (before after : Served) (hi : w.served[i]? = some before)
      (hserving : ∀ call, w.http.calls[i]? = some call → Serving api w call before after) :
      Stepped api w a (w.serve i after)

theorem step_cases {api : Api} {w w' : World} {a : Action} (h : step api w a = some w') :
    Stepped api w a w' := by
  cases a with
  | http a =>
    cases hallowed : allowed api w a with
    | false => exact absurd h (by simp [step, hallowed])
    | true =>
      simp only [step, hallowed, if_true] at h
      obtain ⟨http, hhttp, rfl⟩ := Option.map_eq_some_iff.mp h
      exact .http a http hallowed hhttp
  | tenants a =>
    obtain ⟨tenants, htenants, rfl⟩ := Option.map_eq_some_iff.mp h
    exact .tenants a tenants htenants
  | authenticate i withinLimit =>
    cases hcall : w.http.calls[i]? with
    | none => exact absurd h (by simp [step, hcall])
    | some call =>
      cases hserved : w.served[i]? with
      | none => exact absurd h (by simp [step, hcall, hserved])
      | some served =>
        cases served with
        | begun =>
          cases hin : inEndpoint call.phase with
          | false => exact absurd h (by simp [step, hcall, hserved, hin])
          | true =>
            simp only [step, hcall, hserved, hin, if_true, Option.some.injEq] at h
            subst h
            refine .served _ i .begun _ hserved fun call' hcall' => ?_
            obtain rfl : call = call' := Option.some.inj (hcall.symm.trans hcall')
            cases hprincipal : authenticate api.middleware w.http.now call.request with
            | none => exact .refused .begun
            | some principal =>
              cases withinLimit with
              | false => exact .refused .begun
              | true => exact .authenticated principal hprincipal
        | authenticated principal => exact absurd h (by simp [step, hcall, hserved])
        | reading principal clients => exact absurd h (by simp [step, hcall, hserved])
        | tenant ctx => exact absurd h (by simp [step, hcall, hserved])
        | refused => exact absurd h (by simp [step, hcall, hserved])
  | readClients i =>
    cases hserved : w.served[i]? with
    | none => exact absurd h (by simp [step, hserved])
    | some served =>
      cases served with
      | authenticated principal =>
        simp only [step, hserved, Option.some.injEq] at h
        subst h
        exact .served _ i _ _ hserved fun _ _ => .read principal
      | begun => exact absurd h (by simp [step, hserved])
      | reading principal clients => exact absurd h (by simp [step, hserved])
      | tenant ctx => exact absurd h (by simp [step, hserved])
      | refused => exact absurd h (by simp [step, hserved])
  | readMembership i =>
    cases hcall : w.http.calls[i]? with
    | none => exact absurd h (by simp [step, hcall])
    | some call =>
      cases hserved : w.served[i]? with
      | none => exact absurd h (by simp [step, hcall, hserved])
      | some served =>
        cases served with
        | reading principal clients =>
          simp only [step, hcall, hserved] at h
          obtain ⟨org, horg, rfl⟩ := Option.map_eq_some_iff.mp h
          refine .served _ i _ _ hserved fun call' hcall' => ?_
          obtain rfl : call = call' := Option.some.inj (hcall.symm.trans hcall')
          cases htenant : getTenant clients w.tenants.directory.db org principal with
          | error failure => exact .refused _
          | ok ctx => exact .resolved principal clients org ctx horg htenant
        | begun => exact absurd h (by simp [step, hcall, hserved])
        | authenticated principal => exact absurd h (by simp [step, hcall, hserved])
        | tenant ctx => exact absurd h (by simp [step, hcall, hserved])
        | refused => exact absurd h (by simp [step, hcall, hserved])

/-- The status that the client has received so far. -/
def startStatus (sent : List Message) : Option ℕ :=
  sent.findSome? fun message => match message with
    | .start status _ => some status
    | .body _ => none

def answerStatus : Answer → Option ℕ
  | .problem status _ _ _ => some status
  | .replay response => some response.status
  | .raised => none

def receivedStatus : Phase → Option ℕ
  | .passing sent => startStatus sent
  | .reserving => none
  | .lookingUp => none
  | .running _ sent => startStatus sent
  | .ended _ sent _ => startStatus sent
  | .finished (.passed sent) => startStatus sent
  | .finished (.answered _ answer) => answerStatus answer
  | .finished (.recorded _ _ sent) => startStatus sent
  | .finished (.recordLost _ sent) => startStatus sent
  | .finished (.released _ _ sent _) => startStatus sent
  | .finished (.releaseFailed _ sent _) => startStatus sent

def receivedSuccess (call : Call) : Bool := (receivedStatus call.phase).any isSuccess

end ContextLedger.RequestPipeline
