import ContextLedger.IdempotentKeys
import ContextLedger.RequestBodies

/-!
The size limit around the middleware of the keys. A request arrives with everything
its client will send; the size limit may refuse it by its declared length, and a
request that takes a key enters with the body that was read for it. From then on it
is a request of the keys, next to all the others.
-/
namespace ContextLedger.TruncatedBodies

open Events MemoryStore Idempotency RequestBodies
open Idempotency (World Action)
open IdempotentKeys (exampleRequest exampleMiddleware exampleStart)

/-- A request before its body is read. -/
structure Scope where
  method : String
  path : String
  queryString : Bytes
  headers : List (String × String)
  deriving DecidableEq

def Scope.request (scope : Scope) (body : Bytes) : HttpRequest :=
  ⟨scope.method, scope.path, scope.queryString, scope.headers, body⟩

/-- `bodyOf` is what the framework hands to the endpoint from what it receives. -/
structure Server where
  mw : Middleware
  maxBytes : ℤ
  bodyOf : List Received → Option Bytes

def isKeyed : Dispatch → Bool
  | .keyed _ => true
  | _ => false

def takesKey (mw : Middleware) (now : ℚ) (request : HttpRequest) : Bool :=
  isKeyed (dispatch mw now request)

/-- The refusal of a request before anything of its body is received. -/
def refusal (srv : Server) (scope : Scope) : Option ℕ :=
  if srv.maxBytes ≤ 0 then none else declaredRefusal srv.maxBytes scope.headers

/-- A request that takes no key enters before its body is read. -/
inductive Entry where
  | refused (response : List Message)
  | waiting
  | entered (request : HttpRequest)

def entry (srv : Server) (now : ℚ) (scope : Scope) (incoming : List Received) : Entry :=
  match refusal srv scope with
  | some status => .refused (reject srv.maxBytes status)
  | none =>
    if takesKey srv.mw now (scope.request []) then
      match readBody (behindLimit srv.maxBytes incoming) with
      | none => .waiting
      | some body => .entered (scope.request body)
    else .entered (scope.request [])

structure Arrival where
  scope : Scope
  incoming : List Received
  arrivedAt : ℚ
  deriving DecidableEq

/-- The arrivals stand beside the requests that entered, in the same order. -/
structure Served where
  world : World
  arrivals : List Arrival

inductive Input where
  | deliver (scope : Scope) (incoming : List Received)
  | other (a : Action)

def step (srv : Server) (s : Served) : Input → Option Served
  | .deliver scope incoming =>
    match entry srv s.world.now scope incoming with
    | .entered request =>
      some ⟨{ s.world with calls := s.world.calls ++ [arriving srv.mw s.world request] },
        s.arrivals ++ [⟨scope, incoming, s.world.now⟩]⟩
    | _ => some s
  | .other (.arrive _) => none
  | .other a => (Idempotency.step srv.mw s.world a).map fun world => { s with world }

structure Begins (s : Served) : Prop where
  world : Start s.world
  arrivals : s.arrivals = []

def system (srv : Server) : Transition.System Served Input := ⟨Begins, step srv⟩

/-- Whether the middleware of the keys has called the application behind it. -/
def appCalled : Phase → Bool
  | .passing _ => true
  | .running _ _ => true
  | .ended _ _ _ => true
  | .finished (.answered _ _) => false
  | .finished _ => true
  | .reserving => false
  | .lookingUp => false

/-- What the application receives. -/
def appReceives (srv : Server) (a : Arrival) (call : Call) : List Received :=
  if call.keyed.isSome then replayReceive call.request.body
  else behindLimit srv.maxBytes a.incoming

def EndpointRan (srv : Server) (a : Arrival) (call : Call) (body : Bytes) : Prop :=
  appCalled call.phase = true ∧ srv.bodyOf (appReceives srv a call) = some body

def Recorded (phase : Phase) : Prop := ∃ s r sent, phase = .finished (.recorded s r sent)

/-- The endpoint ran with the complete body only, and for a body that is cut short or
too large it did not run and left no record. -/
structure Whole (srv : Server) (a : Arrival) (call : Call) : Prop where
  complete : ∀ body, EndpointRan srv a call body → completeBody a.incoming = some body
  refused : disconnects a.incoming = true ∨ exceeds srv.maxBytes a.incoming = true →
    (∀ body, ¬EndpointRan srv a call body) ∧ ¬Recorded call.phase

/-- A request that takes a key, whose client goes away before the last part or sends
more than the limit without having said so. -/
def CutShort (srv : Server) (a : Arrival) : Prop :=
  refusal srv a.scope = none ∧ takesKey srv.mw a.arrivedAt (a.scope.request []) = true ∧
    (disconnects a.incoming = true ∨ exceeds srv.maxBytes a.incoming = true)

/-- How a request came to where it is. -/
structure Entered (srv : Server) (a : Arrival) (call : Call) : Prop where
  admitted : refusal srv a.scope = none
  keyed : call.keyed.isSome = true → takesKey srv.mw a.arrivedAt (a.scope.request []) = true ∧
    readBody (behindLimit srv.maxBytes a.incoming) = some call.request.body
  recorded : Recorded call.phase → call.keyed.isSome = true

structure Beside (srv : Server) (s : Served) : Prop where
  length : s.arrivals.length = s.world.calls.length
  entered : ∀ (i : ℕ) (call : Call) (a : Arrival), s.world.calls[i]? = some call →
    s.arrivals[i]? = some a → Entered srv a call

variable {srv : Server}

/-- The body has no part in whether a request takes a key. -/
theorem takesKey_request (mw : Middleware) (now : ℚ) (scope : Scope) (body : Bytes) :
    takesKey mw now (scope.request body) = takesKey mw now (scope.request []) := by
  have hsubject : subject mw now (scope.request body) = subject mw now (scope.request []) := rfl
  unfold takesKey dispatch
  rw [hsubject]
  have hheader : (scope.request body).header = (scope.request []).header := rfl
  rw [hheader]
  by_cases hmethod : (scope.request []).method ≠ "POST"
  · rw [if_pos hmethod, if_pos (show (scope.request body).method ≠ "POST" from hmethod)]
  · rw [if_neg hmethod, if_neg (show ¬(scope.request body).method ≠ "POST" from hmethod)]
    cases (scope.request []).header "idempotency-key" with
    | none => rfl
    | some rawKey =>
      have hpath : (scope.request body).path = (scope.request []).path := rfl
      rw [hpath]
      dsimp only
      split_ifs
      · rfl
      · rfl
      · cases subject mw now (scope.request []) <;> rfl

theorem keyed_of_takesKey {mw : Middleware} {w : World} {request : HttpRequest}
    (h : takesKey mw w.now request = true) :
    ∃ key, arriving mw w request = ⟨request, some key, .reserving⟩ := by
  unfold takesKey at h
  unfold arriving
  cases hdispatch : dispatch mw w.now request with
  | passThrough =>
    rw [hdispatch] at h
    exact absurd h Bool.false_ne_true
  | invalidKey =>
    rw [hdispatch] at h
    exact absurd h Bool.false_ne_true
  | keyed key => exact ⟨key, rfl⟩

theorem arriving_request (mw : Middleware) (w : World) (request : HttpRequest) :
    (arriving mw w request).request = request ∧ ¬Recorded (arriving mw w request).phase ∧
      ((arriving mw w request).keyed.isSome = true → takesKey mw w.now request = true) := by
  unfold arriving takesKey
  cases dispatch mw w.now request with
  | passThrough => exact ⟨rfl, fun ⟨_, _, _, h⟩ => by simp at h, fun h => by simp at h⟩
  | invalidKey => exact ⟨rfl, fun ⟨_, _, _, h⟩ => by simp at h, fun h => by simp at h⟩
  | keyed key => exact ⟨rfl, fun ⟨_, _, _, h⟩ => by simp at h, fun _ => rfl⟩

/-- A request enters with the body that was read for its key. -/
theorem entered_arriving {w : World} {scope : Scope} {incoming : List Received}
    {request : HttpRequest} (h : entry srv w.now scope incoming = .entered request) :
    Entered srv ⟨scope, incoming, w.now⟩ (arriving srv.mw w request) := by
  obtain ⟨hrequest, hrecorded, hkeyed⟩ := arriving_request srv.mw w request
  unfold entry at h
  split at h
  · exact absurd h (by simp)
  · rename_i hadmitted
    refine ⟨hadmitted, fun hsome => ?_, fun h => absurd h hrecorded⟩
    split at h
    · rename_i htakes
      refine ⟨htakes, ?_⟩
      split at h
      · exact absurd h (by simp)
      · rename_i body hread
        cases h
        rw [hrequest]
        exact hread
    · rename_i htakes
      cases h
      exact absurd (hkeyed hsome) htakes

/-- A step of the keys changes the phase of one request, and records only under a key. -/
theorem moved_calls {mw : Middleware} {w w' : World} {i : ℕ} {call : Call} {a : Action}
    (h : Moved mw w i call a w') : ∃ phase, w'.calls = w.calls.set i { call with phase } ∧
      (Recorded phase → call.keyed.isSome = true) := by
  cases h with
  | recorded key reservedAt sent hkey hphase hstorable =>
    exact ⟨_, rfl, fun _ => by rw [hkey]; rfl⟩
  | lost outcome reservedAt sent raised hphase houtcome =>
    refine ⟨_, rfl, fun ⟨_, _, _, h⟩ => ?_⟩
    rcases houtcome with rfl | rfl
    · cases h
    · cases h
  | reserved key hkey hphase hfree => exact ⟨_, rfl, fun ⟨_, _, _, h⟩ => by cases h⟩
  | found key hkey hphase htaken => exact ⟨_, rfl, fun ⟨_, _, _, h⟩ => by cases h⟩
  | lookedUp key hkey hphase => exact ⟨_, rfl, fun ⟨_, _, _, h⟩ => by cases h⟩
  | refused ha hphase => exact ⟨_, rfl, fun ⟨_, _, _, h⟩ => by cases h⟩
  | passing message raises sent hphase => exact ⟨_, rfl, fun ⟨_, _, _, h⟩ => by cases h⟩
  | sent message raises reservedAt sent hphase hmay =>
    exact ⟨_, rfl, fun ⟨_, _, _, h⟩ => by cases h⟩
  | passed raises sent hphase => exact ⟨_, rfl, fun ⟨_, _, _, h⟩ => by cases h⟩
  | ended raises reservedAt sent hphase => exact ⟨_, rfl, fun ⟨_, _, _, h⟩ => by cases h⟩
  | released key reservedAt sent raised hkey hphase hfailed =>
    exact ⟨_, rfl, fun ⟨_, _, _, h⟩ => by cases h⟩

theorem Beside.other {s : Served} {world : World} {a : Action} (hs : Beside srv s)
    (hnew : ∀ request, a ≠ .arrive request)
    (h : Idempotency.step srv.mw s.world a = some world) : Beside srv { s with world } := by
  cases step_cases h with
  | arrived request => exact absurd rfl (hnew request)
  | foreign key entry hkey => exact ⟨hs.length, hs.entered⟩
  | ticked now hle => exact ⟨hs.length, hs.entered⟩
  | moved j mover hj hmoved =>
    obtain ⟨phase, hcalls, hrecorded⟩ := moved_calls hmoved
    refine ⟨?_, fun i call a hi ha => ?_⟩
    · show s.arrivals.length = world.calls.length
      rw [hcalls, List.length_set]
      exact hs.length
    · have hi' : (s.world.calls.set j { mover with phase })[i]? = some call := hcalls ▸ hi
      by_cases hij : j = i
      · subst hij
        rw [List.getElem?_set_self (List.getElem?_eq_some_iff.mp hj).1] at hi'
        obtain rfl := Option.some.inj hi'
        have hmover := hs.entered j mover a hj ha
        exact ⟨hmover.admitted, hmover.keyed, hrecorded⟩
      · rw [List.getElem?_set_ne hij] at hi'
        exact hs.entered i call a hi' ha

theorem Beside.deliver {s : Served} {scope : Scope} {incoming : List Received}
    {request : HttpRequest} (hs : Beside srv s)
    (h : entry srv s.world.now scope incoming = .entered request) :
    Beside srv ⟨{ s.world with calls := s.world.calls ++ [arriving srv.mw s.world request] },
      s.arrivals ++ [⟨scope, incoming, s.world.now⟩]⟩ := by
  refine ⟨?_, fun i call a hi ha => ?_⟩
  · rw [List.length_append, List.length_append, hs.length]
    rfl
  · rcases lt_trichotomy i s.world.calls.length with hlt | heq | hgt
    · rw [List.getElem?_append_left hlt] at hi
      rw [List.getElem?_append_left (hs.length ▸ hlt)] at ha
      exact hs.entered i call a hi ha
    · rw [heq, List.getElem?_concat_length] at hi
      rw [heq, ← hs.length, List.getElem?_concat_length] at ha
      obtain rfl := Option.some.inj hi
      obtain rfl := Option.some.inj ha
      exact entered_arriving h
    · have hnone : (s.world.calls ++ [arriving srv.mw s.world request])[i]? = none :=
        List.getElem?_eq_none (by rw [List.length_append]; exact hgt)
      rw [hnone] at hi
      cases hi

theorem beside_step {s s' : Served} {input : Input} (hs : Beside srv s)
    (h : step srv s input = some s') : Beside srv s' := by
  cases input with
  | deliver scope incoming =>
    rw [step] at h
    split at h
    · rename_i request hentry
      obtain rfl := Option.some.inj h
      exact hs.deliver hentry
    · obtain rfl := Option.some.inj h
      exact hs
  | other a =>
    cases a with
    | arrive request => cases h
    | _ =>
      obtain ⟨world, hworld, rfl⟩ := Option.map_eq_some_iff.mp h
      exact hs.other (fun _ h => by cases h) hworld

/-- What entered is whole, unless it is cut short. -/
theorem Entered.whole (hbody : ∀ messages, srv.bodyOf messages = completeBody messages)
    {a : Arrival} {call : Call} (h : Entered srv a call) (hcut : ¬CutShort srv a) :
    Whole srv a call := by
  cases hkeyed : call.keyed.isSome with
  | true =>
    obtain ⟨htakes, hread⟩ := h.keyed hkeyed
    have hintact : ¬(disconnects a.incoming = true ∨ exceeds srv.maxBytes a.incoming = true) :=
      fun hshort => hcut ⟨h.admitted, htakes, hshort⟩
    refine ⟨fun body hran => ?_, fun hshort => absurd hshort hintact⟩
    have hreceived := hran.2
    rw [appReceives, if_pos hkeyed, hbody] at hreceived
    have hend : disconnects (behindLimit srv.maxBytes a.incoming) = false :=
      Bool.eq_false_iff.mpr fun h => hintact (disconnects_behindLimit.mp h)
    rw [← Option.some.inj hreceived]
    exact completeBody_behindLimit (completeBody_of_readBody hread hend)
  | false =>
    have hreceives : appReceives srv a call = behindLimit srv.maxBytes a.incoming := by
      rw [appReceives, if_neg (by rw [hkeyed]; exact Bool.false_ne_true)]
    have hcomplete : ∀ body, EndpointRan srv a call body →
        completeBody (behindLimit srv.maxBytes a.incoming) = some body := by
      intro body hran
      rw [← hbody, ← hreceives]
      exact hran.2
    refine ⟨fun body hran => completeBody_behindLimit (hcomplete body hran),
      fun hshort => ⟨fun body hran => ?_, fun hrecorded => ?_⟩⟩
    · obtain ⟨hdisconnects, hexceeds⟩ := intact_of_completeBody_behindLimit (hcomplete body hran)
      rcases hshort with hshort | hshort
      · exact Bool.false_ne_true (hdisconnects.symm.trans hshort)
      · exact Bool.false_ne_true (hexceeds.symm.trans hshort)
    · exact Bool.false_ne_true (hkeyed.symm.trans (h.recorded hrecorded))

/-- A request that is cut short runs when its key is free. -/
theorem runs_of_cutShort {a : Arrival} (hcut : CutShort srv a) :
    ∃ s s' trace call, Begins s ∧ (system srv).run s trace = some s' ∧
      s'.world.calls[0]? = some call ∧ s'.arrivals[0]? = some a ∧
      call.phase = .running a.arrivedAt [] ∧ call.keyed.isSome = true := by
  obtain ⟨hadmitted, htakes, hshort⟩ := hcut
  obtain ⟨body, hread⟩ := readBody_of_disconnects (disconnects_behindLimit.mpr hshort)
  have hentry : entry srv a.arrivedAt a.scope a.incoming = .entered (a.scope.request body) := by
    rw [entry, hadmitted]
    dsimp only
    rw [if_pos htakes, hread]
  let w₀ : World := ⟨MemoryStore.empty, a.arrivedAt, []⟩
  obtain ⟨key, harriving⟩ := keyed_of_takesKey (w := w₀)
    ((takesKey_request srv.mw a.arrivedAt a.scope body).trans htakes)
  let w₁ : World := ⟨MemoryStore.empty, a.arrivedAt, [⟨a.scope.request body, some key, .reserving⟩]⟩
  have hdeliver : step srv ⟨w₀, []⟩ (.deliver a.scope a.incoming) = some ⟨w₁, [a]⟩ := by
    rw [step, hentry]
    dsimp only
    rw [harriving]
    rfl
  let w₂ : World := w₁.moved 0 ⟨a.scope.request body, some key, .reserving⟩ (.running a.arrivedAt [])
    (MemoryStore.empty.insert key.storeKey ⟨pendingText key, a.arrivedAt + srv.mw.lockSeconds⟩)
  have hreserve : step srv ⟨w₁, [a]⟩ (.other (.reserve 0 true)) = some ⟨w₂, [a]⟩ := rfl
  refine ⟨⟨w₀, []⟩, ⟨w₂, [a]⟩, [.deliver a.scope a.incoming, .other (.reserve 0 true)],
    ⟨a.scope.request body, some key, .running a.arrivedAt []⟩, ⟨⟨rfl, fun _ _ => rfl⟩, rfl⟩, ?_,
    rfl, rfl, rfl, rfl⟩
  refine (Transition.System.run_cons_eq_some _).mpr ⟨_, hdeliver, ?_⟩
  exact (Transition.System.run_cons_eq_some _).mpr ⟨_, hreserve, rfl⟩

/-- The endpoint runs with complete bodies only, exactly for the arrivals that are not
cut short behind a key. -/
theorem whole_iff (srv : Server)
    (hbody : ∀ messages, srv.bodyOf messages = completeBody messages) (a : Arrival) :
    (∀ s s' trace, Begins s → (system srv).run s trace = some s' → ∀ (i : ℕ) (call : Call),
      s'.world.calls[i]? = some call → s'.arrivals[i]? = some a → Whole srv a call) ↔
      ¬CutShort srv a := by
  constructor
  · intro hall hcut
    obtain ⟨s, s', trace, call, hbegins, hrun, hcall, ha, hphase, hkeyed⟩ := runs_of_cutShort hcut
    have hwhole := hall s s' trace hbegins hrun 0 call hcall ha
    refine (hwhole.refused hcut.2.2).1 call.request.body ⟨by rw [hphase]; rfl, ?_⟩
    rw [appReceives, if_pos hkeyed, hbody]
    rfl
  · intro hcut s s' trace hbegins hrun i call hcall ha
    have hstart : Beside srv s := by
      refine ⟨?_, fun i call a hi => ?_⟩
      · rw [hbegins.arrivals, hbegins.world.calls]
        rfl
      · rw [hbegins.world.calls] at hi
        cases hi
    have hs' : Beside srv s' :=
      (system srv).run_preserves (Beside srv) (fun _ _ _ hs hstep => beside_step hs hstep) hrun hstart
    exact (hs'.entered i call a hcall ha).whole hbody hcut

def exampleScope : Scope := ⟨exampleRequest.method, exampleRequest.path, [], exampleRequest.headers⟩

def exampleServer : Server := ⟨exampleMiddleware, 4, completeBody⟩

/-- The whole body in two parts, within the limit. -/
def exampleArrival : Arrival := ⟨exampleScope, [.request [123] true, .request [125] false], 0⟩

/-- A first part that is a body by itself, and then more than the limit. -/
def exampleLarge : Arrival :=
  ⟨exampleScope, [.request exampleRequest.body true, .request [32, 32, 32] false], 0⟩

/-- One request, which the endpoint answers with 201. -/
def exampleTrace (a : Arrival) : List Input :=
  [.deliver a.scope a.incoming, .other (.reserve 0 true), .other (.emit 0 (.start 201 []) false),
   .other (.finishApp 0 false), .other (.settle 0 true)]

def isRecorded (call : Call) : Bool :=
  match call.phase with
  | .finished (.recorded _ _ _) => true
  | _ => false

def records (a : Arrival) : Bool :=
  ((system exampleServer).run ⟨exampleStart, []⟩ (exampleTrace a)).any fun s =>
    decide (s.arrivals[0]? = some a) && (s.world.calls[0]?).any isRecorded

theorem exists_recorded {a : Arrival} (h : records a = true) : ∃ s call,
    (system exampleServer).run ⟨exampleStart, []⟩ (exampleTrace a) = some s ∧
      s.world.calls[0]? = some call ∧ s.arrivals[0]? = some a ∧ isRecorded call = true := by
  obtain ⟨s, hrun, hcheck⟩ := (Option.any_eq_true _ _).mp h
  rw [Bool.and_eq_true, decide_eq_true_eq] at hcheck
  obtain ⟨call, hcall, hrecorded⟩ := (Option.any_eq_true _ _).mp hcheck.2
  exact ⟨s, call, hrun, hcall, hcheck.1, hrecorded⟩

theorem whole_iff_complete : ∃ s call,
    (system exampleServer).run ⟨exampleStart, []⟩ (exampleTrace exampleArrival) = some s ∧
      s.world.calls[0]? = some call ∧ isRecorded call = true ∧
        Whole exampleServer exampleArrival call := by
  have hrecords : records exampleArrival = true := by decide +kernel
  obtain ⟨s, call, hrun, hcall, ha, hrecorded⟩ := exists_recorded hrecords
  refine ⟨s, call, hrun, hcall, hrecorded, ?_⟩
  refine (whole_iff exampleServer (fun _ => rfl) exampleArrival).mpr (fun hcut => ?_) _ s _
    ⟨⟨rfl, fun _ _ => rfl⟩, rfl⟩ hrun 0 call hcall ha
  exact hcut.2.2.elim (fun h => absurd h (by decide)) fun h => absurd h (by decide)

/-- The endpoint ran on the first part of a body over the limit, and its response is
recorded under the key. -/
theorem record_of_cut_body : ¬∀ (srv : Server) (a : Arrival) (s s' : Served) (trace : List Input),
    (∀ messages, srv.bodyOf messages = completeBody messages) → Begins s →
      (system srv).run s trace = some s' → ∀ (i : ℕ) (call : Call),
        s'.world.calls[i]? = some call → s'.arrivals[i]? = some a → Whole srv a call := by
  intro hall
  have hrecords : records exampleLarge = true := by decide +kernel
  obtain ⟨s, call, hrun, hcall, ha, hrecorded⟩ := exists_recorded hrecords
  have hwhole := hall exampleServer exampleLarge _ s _ (fun _ => rfl)
    ⟨⟨rfl, fun _ _ => rfl⟩, rfl⟩ hrun 0 call hcall ha
  have hnone := (hwhole.refused (.inr (by decide))).2
  unfold isRecorded at hrecorded
  split at hrecorded
  · rename_i reservedAt recordedAt sent hphase
    exact hnone ⟨reservedAt, recordedAt, sent, hphase⟩
  · exact absurd hrecorded Bool.false_ne_true

end ContextLedger.TruncatedBodies
