import ContextLedger.Manageability
import ContextLedger.RequestPipeline

/-!
What an agent still gets after its access is withdrawn: its client revoked, its
service user no longer a member, or made an ADMIN. A request that comes later and
runs an endpoint of an organization is refused, since the endpoint looks at the
client and the membership first. A request that finds its response recorded under
its key is answered before that.
-/
namespace ContextLedger.AccessWithdrawal

open Values Authorization Schema JsonReader MemoryStore Idempotency IdempotentKeys Tenancy
open RequestPipeline Manageability

/-- Entries of keys come from reservations and recorded responses. -/
structure Sourced (mw : Middleware) (w : Idempotency.World) : Prop where
  keys : ∀ call ∈ w.calls, ∀ key, call.keyed = some key → isKeyOf key.storeKey = true
  entries : ∀ storeKey entry, isKeyOf storeKey = true → w.store.find storeKey = some entry →
    (∃ key t, key.storeKey = storeKey ∧ entry = ⟨pendingText key, t⟩) ∨
    ∃ call ∈ w.calls, ∃ key s r sent, key.storeKey = storeKey ∧ Recorded call key s r sent ∧
      entry = ⟨doneText key sent, r + mw.ttlSeconds⟩

variable {mw : Middleware} {api : Api}

theorem sourced_start {w : Idempotency.World} (h : Idempotency.Start w) : Sourced mw w := by
  refine ⟨by simp [h.calls], fun storeKey entry hkey hfind => ?_⟩
  rw [h.keys storeKey hkey] at hfind
  exact absurd hfind (by simp)

/-- A request takes another phase, and the store changes at most at its key. -/
theorem Sourced.moved {w : Idempotency.World} (hw : Sourced mw w) {i : ℕ} {call : Call}
    (hi : w.calls[i]? = some call) {phase : Phase} {store : Store}
    (hunrecorded : ∀ s r sent, call.phase ≠ .finished (.recorded s r sent))
    (hstore : ∀ storeKey entry, isKeyOf storeKey = true → store.find storeKey = some entry →
      w.store.find storeKey = some entry ∨
      (∃ key t, key.storeKey = storeKey ∧ entry = ⟨pendingText key, t⟩) ∨
      ∃ key s r sent, key.storeKey = storeKey ∧ Recorded { call with phase } key s r sent ∧
        entry = ⟨doneText key sent, r + mw.ttlSeconds⟩) :
    Sourced mw (w.moved i call phase store) := by
  refine ⟨fun other hother key hkey => ?_, fun storeKey entry hkey hfind => ?_⟩
  · rcases Processes.mem_set_cases hother with rfl | ⟨j, -, hj⟩
    · exact hw.keys call (List.mem_of_getElem? hi) key hkey
    · exact hw.keys other (List.mem_of_getElem? hj) key hkey
  · rcases hstore storeKey entry hkey hfind with hold | hpending | hdone
    · rcases hw.entries storeKey entry hkey hold with hpending | ⟨other, hother, hdone⟩
      · exact Or.inl hpending
      · obtain ⟨key, s, r, sent, hstoreKey, hrecorded, hentry⟩ := hdone
        have hne : other ≠ call := by
          rintro rfl
          exact hunrecorded s r sent hrecorded.2
        exact Or.inr ⟨other, Processes.mem_set_of_ne hi hother hne, key, s, r, sent, hstoreKey,
          hrecorded, hentry⟩
    · exact Or.inl hpending
    · exact Or.inr ⟨_, List.mem_of_getElem? (getElem?_moved hi), hdone⟩

theorem sourced_moved {w w' : Idempotency.World} (hw : Sourced mw w) {i : ℕ} {call : Call}
    {a : Idempotency.Action} (hi : w.calls[i]? = some call) (h : Moved mw w i call a w') :
    Sourced mw w' := by
  cases h with
  | reserved key hkey hphase hfree =>
    refine hw.moved hi (by simp [hphase]) fun storeKey entry _ hfind => ?_
    by_cases hstoreKey : storeKey = key.storeKey
    · subst hstoreKey
      rw [find_insert_self, Option.some.injEq] at hfind
      exact Or.inr (Or.inl ⟨key, _, rfl, hfind.symm⟩)
    · rw [find_insert_of_ne _ _ hstoreKey] at hfind
      exact Or.inl hfind
  | found key hkey hphase htaken => exact hw.moved hi (by simp [hphase]) fun _ _ _ h => Or.inl h
  | lookedUp key hkey hphase => exact hw.moved hi (by simp [hphase]) fun _ _ _ h => Or.inl h
  | refused ha hphase =>
    refine hw.moved hi (fun s r sent hrecorded => ?_) fun _ _ _ h => Or.inl h
    rcases hphase with hphase | hphase <;> exact absurd (hphase.symm.trans hrecorded) (by simp)
  | passing message raises sent hphase =>
    exact hw.moved hi (by simp [hphase]) fun _ _ _ h => Or.inl h
  | sent message raises reservedAt sent hphase hmay =>
    exact hw.moved hi (by simp [hphase]) fun _ _ _ h => Or.inl h
  | passed raises sent hphase => exact hw.moved hi (by simp [hphase]) fun _ _ _ h => Or.inl h
  | ended raises reservedAt sent hphase =>
    exact hw.moved hi (by simp [hphase]) fun _ _ _ h => Or.inl h
  | recorded key reservedAt sent hkey hphase hstorable =>
    refine hw.moved hi (by simp [hphase]) fun storeKey entry _ hfind => ?_
    by_cases hstoreKey : storeKey = key.storeKey
    · subst hstoreKey
      rw [find_insert_self, Option.some.injEq] at hfind
      exact Or.inr (Or.inr ⟨key, _, _, sent, rfl, ⟨hkey, rfl⟩, hfind.symm⟩)
    · rw [find_insert_of_ne _ _ hstoreKey] at hfind
      exact Or.inl hfind
  | released key reservedAt sent raised hkey hphase hfailed =>
    refine hw.moved hi (by simp [hphase]) fun storeKey entry _ hfind => ?_
    by_cases hstoreKey : storeKey = key.storeKey
    · subst hstoreKey
      rw [find_delete_self] at hfind
      exact absurd hfind (by simp)
    · rw [find_delete_of_ne _ hstoreKey] at hfind
      exact Or.inl hfind
  | lost outcome reservedAt sent raised hphase houtcome =>
    exact hw.moved hi (by simp [hphase]) fun _ _ _ h => Or.inl h

theorem sourced_step {w w' : Idempotency.World} (hw : Sourced mw w) {a : Idempotency.Action}
    (h : Idempotency.step mw w a = some w') : Sourced mw w' := by
  cases Idempotency.step_cases h with
  | arrived request =>
    refine ⟨fun call hcall key hkey => ?_, fun storeKey entry hkey hfind => ?_⟩
    · rcases List.mem_append.mp hcall with hcall | hcall
      · exact hw.keys call hcall key hkey
      · obtain rfl := List.mem_singleton.mp hcall
        exact (arriving_cases mw w request).1 key hkey
    · rcases hw.entries storeKey entry hkey hfind with hpending | ⟨call, hcall, hdone⟩
      · exact Or.inl hpending
      · exact Or.inr ⟨call, List.mem_append_left _ hcall, hdone⟩
  | foreign key entry hkey =>
    refine ⟨hw.keys, fun storeKey found hstoreKey hfind => ?_⟩
    have hne : storeKey ≠ key := by
      rintro rfl
      exact absurd (hkey.symm.trans hstoreKey) (by simp)
    refine hw.entries storeKey found hstoreKey ?_
    cases entry with
    | none => exact (find_delete_of_ne _ hne).symm.trans hfind
    | some entry => exact (find_insert_of_ne _ _ hne).symm.trans hfind
  | ticked now hle => exact ⟨hw.keys, hw.entries⟩
  | moved i call hi hmoved => exact sourced_moved hw hi hmoved

/-- Without a living record of the same request, nothing is replayed. -/
theorem Sourced.no_replay {w : Idempotency.World} (hw : Sourced mw w) {call : Call}
    (hcall : call ∈ w.calls) {key : Keyed} (hkey : call.keyed = some key)
    (hdead : ¬Alive mw w key) (response : Response) :
    answerExisting (w.store.get w.now key.storeKey) key.fingerprint ≠ .replay response := by
  cases hlive : w.store.live w.now key.storeKey with
  | none => simp [Store.get, hlive, answerExisting, answerRecord, Answer.inUse]
  | some entry =>
    obtain ⟨hfind, hexpires⟩ := live_eq_some.mp hlive
    rw [Store.get, hlive, Option.map_some]
    rcases hw.entries _ entry (hw.keys call hcall key hkey) hfind with
      ⟨key', t, -, rfl⟩ | ⟨other, hother, key', s, r, sent, hstoreKey, hrecorded, rfl⟩
    · rw [answerExisting_pending]
      split <;> simp [Answer.inUse, Answer.reused]
    · rw [answerExisting_done]
      by_cases hfingerprint : key'.fingerprint = key.fingerprint
      · have hsame : key' = key := by
          cases key'
          cases key
          simp_all
        subst hsame
        exact absurd ⟨other, hother, s, r, sent, hrecorded, hexpires⟩ hdead
      · rw [if_neg hfingerprint]
        simp [Answer.reused]

/-- The request carries a token of the agent: whenever it is verified, it names the
client, its service user and its organization. -/
def Carries (mw : Middleware) (client : AgentClient) (request : HttpRequest) : Prop :=
  ∃ authorization, request.header "authorization" = some authorization ∧ authorization ≠ "" ∧
    ∀ now claims, bearerClaims mw now authorization = some claims →
      claims.agentClientId = some client.id ∧ claims.userId = client.serviceUserId ∧
        claims.organizationId = some client.organizationId

def Revoked (d : Directory) (agentClientId : Uuid) : Prop :=
  ∃ c, (d.agentClients.find? fun c => c.id == agentClientId) = some c ∧ c.revokedAt.isSome = true

/-- The service user is not a member, or is an ADMIN. -/
def Ousted (d : Directory) (client : AgentClient) : Prop :=
  ∀ m, getMembership d.db client.organizationId client.serviceUserId = some m → m.role = .admin

theorem isActive_of_revoked {d : Directory} {agentClientId : Uuid} (h : Revoked d agentClientId) :
    isActive d.agentClients agentClientId = false := by
  obtain ⟨c, hfind, hrevoked⟩ := h
  cases hat : c.revokedAt with
  | none => exact absurd hrevoked (by simp [hat])
  | some t => simp [isActive, hfind, hat]

theorem find?_setRevoked (d : Directory) (org id agentClientId : Uuid) (now : Instant) :
    ((d.setRevoked org id now).agentClients.find? fun c => c.id == agentClientId) =
      (d.agentClients.find? fun c => c.id == agentClientId).map fun c =>
        if c.organizationId = org ∧ c.id = id ∧ c.revokedAt = none then
          { c with revokedAt := some now }
        else c := by
  rw [Directory.setRevoked, List.find?_map]
  refine congrArg _ (congrArg (List.find? · d.agentClients) (funext fun c => ?_))
  simp only [Function.comp]
  split <;> rfl

/-- Nothing takes a revocation back. -/
theorem revoked_wrote {d d' : Directory} {operation : Operation} {agentClientId : Uuid}
    (h : Revoked d agentClientId) (hwrote : Wrote d operation d') : Revoked d' agentClientId := by
  obtain ⟨c, hfind, hrevoked⟩ := h
  cases hwrote with
  | createdOrganization organization creatorUserId hid hrow => exact ⟨c, hfind, hrevoked⟩
  | addedMember ctx userId role hrow => exact ⟨c, hfind, hrevoked⟩
  | changedRole ctx userId role => exact ⟨c, hfind, hrevoked⟩
  | removedMember ctx userId => exact ⟨c, hfind, hrevoked⟩
  | createdAgent ctx role client huser hrow =>
    refine ⟨c, ?_, hrevoked⟩
    simp only [Directory.addAgentClient, Directory.addMembership, Directory.addUser,
      List.find?_append, hfind, Option.some_or]
  | revokedAgent ctx id now =>
    refine ⟨_, by rw [find?_setRevoked, hfind]; rfl, ?_⟩
    beta_reduce
    split
    · rfl
    · exact hrevoked

theorem revoked_step {w w' : Memberships.World} {a : Memberships.Action} {agentClientId : Uuid}
    (h : Revoked w.directory agentClientId) (hstep : Memberships.step w a = some w') :
    Revoked w'.directory agentClientId := by
  cases Memberships.step_cases hstep with
  | started request operation hprepare => exact h
  | registered userId hnew => exact h
  | moved a i t t' ht hfree hmoved => exact h
  | committed i t d ht hphase hwrite => exact revoked_wrote h (write_cases hwrite)

theorem authenticate_of_carries {client : AgentClient} {request : HttpRequest}
    (h : Carries mw client request) {now : ℚ} {principal : Principal}
    (hprincipal : authenticate mw now request = some principal) :
    principal.agentClientId = some client.id ∧ principal.userId = client.serviceUserId ∧
      principal.organizationId = some client.organizationId := by
  obtain ⟨authorization, hheader, hnonempty, hclaims⟩ := h
  simp only [authenticate, hheader, Option.getD_some, if_pos hnonempty] at hprincipal
  obtain ⟨claims, hbearer, rfl⟩ := Option.map_eq_some_iff.mp hprincipal
  exact hclaims now claims hbearer

/-- What the dependencies know about a later request of the agent; `revoked` says that the
client was revoked before. -/
def Held (client : AgentClient) (revoked : Prop) : Served → Prop
  | .begun => True
  | .authenticated principal => principal.agentClientId = some client.id ∧
      principal.userId = client.serviceUserId ∧
      principal.organizationId = some client.organizationId
  | .reading principal clients => (principal.agentClientId = some client.id ∧
      principal.userId = client.serviceUserId ∧
      principal.organizationId = some client.organizationId) ∧
      (revoked → isActive clients client.id = false)
  | .tenant _ => False
  | .refused => True

theorem held_serving {w : RequestPipeline.World} {call : Call} {client : AgentClient}
    {revoked : Prop} {before after : Served} (hcarries : Carries api.middleware client call.request)
    (hrevoked : revoked → Revoked w.tenants.directory client.id)
    (hstays : revoked ∨ Ousted w.tenants.directory client) (hheld : Held client revoked before)
    (h : Serving api w call before after) : Held client revoked after := by
  cases h with
  | authenticated principal hprincipal => exact authenticate_of_carries hcarries hprincipal
  | refused => trivial
  | read principal => exact ⟨hheld, fun h => isActive_of_revoked (hrevoked h)⟩
  | resolved principal clients org ctx horg htenant =>
    obtain ⟨⟨hagent, huser, horganization⟩, hinactive⟩ := hheld
    obtain ⟨hscope, hactive, user, m, -, -, hm, hrole, -⟩ := getTenant_eq_ok htenant
    rcases hstays with hgone | housted
    · exact absurd ((hinactive hgone).symm.trans (hactive _ hagent)) (by simp)
    · have hsame := hscope _ horganization
      rw [huser, ← hsame] at hm
      exact hrole (by rw [hagent]; rfl) (housted m hm)

theorem startStatus_append (sent : List Message) (message : Message) :
    startStatus (sent ++ [message]) = (startStatus sent).or (startStatus [message]) :=
  List.findSome?_append

theorem success_append {sent : List Message} {message : Message}
    (hsent : (startStatus sent).any isSuccess = false)
    (hmessage : (startStatus [message]).any isSuccess = false) :
    (startStatus (sent ++ [message])).any isSuccess = false := by
  rw [startStatus_append]
  cases hstatus : startStatus sent with
  | none => exact hmessage
  | some status =>
    rw [hstatus] at hsent
    exact hsent

theorem mayStart_held {client : AgentClient} {revoked : Prop} {served : Served}
    {request : HttpRequest} {message : Message} (hheld : Held client revoked served)
    (horg : (api.organizationOf request).isSome = true)
    (h : mayStart api request served message = true) :
    (startStatus [message]).any isSuccess = false := by
  obtain ⟨org, horg⟩ := Option.isSome_iff_exists.mp horg
  cases message with
  | body chunk => rfl
  | start status headers =>
    cases served with
    | tenant ctx => exact hheld.elim
    | begun => simpa [mayStart, horg, startStatus] using h
    | authenticated principal => simpa [mayStart, horg, startStatus] using h
    | reading principal clients => simpa [mayStart, horg, startStatus] using h
    | refused => simpa [mayStart, horg, startStatus] using h

/-- A request that finds its key taken gets a replay or a problem. -/
theorem success_answerRecord {record : List (String × JsonText.Json)} {fingerprint : String}
    (h : ∀ response, answerRecord record fingerprint ≠ .replay response) :
    (answerStatus (answerRecord record fingerprint)).any isSuccess = false := by
  unfold answerRecord at h ⊢
  by_cases hempty : record = []
  · rw [if_pos hempty]
    rfl
  · rw [if_neg hempty] at h ⊢
    cases hfound : record.lookup "fingerprint" with
    | none => rfl
    | some value =>
      simp only [hfound] at h ⊢
      by_cases hother : textOf value ≠ some fingerprint
      · rw [if_pos hother]
        rfl
      · rw [if_neg hother] at h ⊢
        by_cases hstate : (record.lookup "state").bind textOf ≠ some "done"
        · rw [if_pos hstate]
          rfl
        · rw [if_neg hstate] at h ⊢
          cases hresponse : readResponse record with
          | none => rfl
          | some response => exact absurd (by rw [hresponse]; rfl) (h response)

theorem success_answerExisting {existing : Option String} {fingerprint : String}
    (h : ∀ response, answerExisting existing fingerprint ≠ .replay response) :
    (answerStatus (answerExisting existing fingerprint)).any isSuccess = false := by
  cases existing with
  | none => exact @success_answerRecord [] fingerprint h
  | some text =>
    cases hloads : loads text with
    | none =>
      simp only [answerExisting, hloads]
      rfl
    | some value =>
      cases value with
      | obj record =>
        simp only [answerExisting, hloads] at h ⊢
        exact success_answerRecord h
      | _ =>
        simp only [answerExisting, hloads]
        rfl

theorem request_moved {w w' : Idempotency.World} {i : ℕ} {call call' : Call}
    {a : Idempotency.Action} (h : Moved mw w i call a w') (hi : w.calls[i]? = some call)
    (hi' : w'.calls[i]? = some call') : call'.request = call.request := by
  have hcall : ∀ {phase : Phase} {store : Store},
      (w.moved i call phase store).calls[i]? = some call' → call'.request = call.request := by
    intro phase store hcalls
    rw [getElem?_moved hi, Option.some.injEq] at hcalls
    rw [← hcalls]
  cases h <;> exact hcall hi'

/-- A request that moves and may not start a success, nor find one recorded, gets none. -/
theorem received_moved {w w' : Idempotency.World} {i : ℕ} {call call' : Call}
    {a : Idempotency.Action} (h : Moved mw w i call a w') (hi : w.calls[i]? = some call)
    (hi' : w'.calls[i]? = some call') (hbefore : receivedSuccess call = false)
    (hemit : ∀ message raises, a = .emit i message raises →
      (startStatus [message]).any isSuccess = false)
    (hlookup : ∀ key response, a = .lookup i true → call.keyed = some key →
      answerExisting (w.store.get w.now key.storeKey) key.fingerprint ≠ .replay response) :
    receivedSuccess call' = false := by
  have hcall : ∀ {phase : Phase} {store : Store},
      (w.moved i call phase store).calls[i]? = some call' → call' = { call with phase } :=
    fun hcalls => Option.some.inj (hcalls.symm.trans (getElem?_moved hi))
  rw [receivedSuccess] at hbefore
  cases h with
  | reserved key hkey hphase hfree =>
    obtain rfl := hcall hi'
    rfl
  | found key hkey hphase htaken =>
    obtain rfl := hcall hi'
    rfl
  | lookedUp key hkey hphase =>
    obtain rfl := hcall hi'
    exact success_answerExisting fun response => hlookup key response rfl hkey
  | refused ha hphase =>
    obtain rfl := hcall hi'
    rfl
  | passing message raises sent hphase =>
    obtain rfl := hcall hi'
    rw [hphase] at hbefore
    exact success_append hbefore (hemit message raises rfl)
  | sent message raises reservedAt sent hphase hmay =>
    obtain rfl := hcall hi'
    rw [hphase] at hbefore
    exact success_append hbefore (hemit message raises rfl)
  | passed raises sent hphase =>
    obtain rfl := hcall hi'
    rw [hphase] at hbefore
    exact hbefore
  | ended raises reservedAt sent hphase =>
    obtain rfl := hcall hi'
    rw [hphase] at hbefore
    exact hbefore
  | recorded key reservedAt sent hkey hphase hstorable =>
    obtain rfl := hcall hi'
    rw [hphase] at hbefore
    exact hbefore
  | released key reservedAt sent raised hkey hphase hfailed =>
    obtain rfl := hcall hi'
    rw [hphase] at hbefore
    exact hbefore
  | lost outcome reservedAt sent raised hphase houtcome =>
    obtain rfl := hcall hi'
    rw [hphase] at hbefore
    rcases houtcome with rfl | rfl <;> exact hbefore

theorem received_arriving (w : Idempotency.World) (request : HttpRequest) :
    receivedSuccess (arriving mw w request) = false := by
  unfold arriving
  cases dispatch mw w.now request with
  | passThrough => rfl
  | invalidKey => rfl
  | keyed key => rfl

/-- No request of the agent from the `n`th on to an endpoint of an organization finds its
response recorded: the response to the same request under the same key, within its time. -/
def Unrecorded (api : Api) (client : AgentClient) (n : ℕ) (w : RequestPipeline.World) :
    RequestPipeline.Action → Prop
  | .http (.lookup i _) => n ≤ i → ∀ call key, w.http.calls[i]? = some call →
      call.keyed = some key → Carries api.middleware client call.request →
      (api.organizationOf call.request).isSome = true → ¬Alive api.middleware w.http key
  | _ => True

/-- The requests from the `n`th on are not let in, if they are the agent's. -/
structure Barred (api : Api) (client : AgentClient) (revoked : Prop) (n : ℕ)
    (w : RequestPipeline.World) : Prop where
  sourced : Sourced api.middleware w.http
  served : w.served.length = w.http.calls.length
  withdrawn : revoked → Revoked w.tenants.directory client.id
  later : ∀ i call served, n ≤ i → w.http.calls[i]? = some call → w.served[i]? = some served →
    Carries api.middleware client call.request → (api.organizationOf call.request).isSome = true →
    Held client revoked served ∧ receivedSuccess call = false

theorem servedAfter_moved {w : RequestPipeline.World} {http : Idempotency.World} {i : ℕ}
    {call : Call} {a : Idempotency.Action} (h : Moved api.middleware w.http i call a http) :
    servedAfter w a = w.served ∧ http.calls.length = w.http.calls.length := by
  cases h with
  | refused ha hphase =>
    refine ⟨?_, List.length_set⟩
    rcases ha with rfl | rfl <;> rfl
  | _ => exact ⟨rfl, List.length_set⟩

section Steps

variable {client : AgentClient} {revoked : Prop} {n : ℕ} {w : RequestPipeline.World}

theorem barred_arrived (hw : Barred api client revoked n w) (request : HttpRequest)
    (hsourced : Sourced api.middleware { w.http with
      calls := w.http.calls ++ [arriving api.middleware w.http request] }) :
    Barred api client revoked n { w with
      http := { w.http with calls := w.http.calls ++ [arriving api.middleware w.http request] }
      served := w.served ++ [.begun] } := by
  refine ⟨hsourced, by simp [hw.served], hw.withdrawn, fun i call served hn hi hserved => ?_⟩
  by_cases hold : i < w.http.calls.length
  · rw [List.getElem?_append_left hold] at hi
    rw [List.getElem?_append_left (hw.served ▸ hold)] at hserved
    exact hw.later i call served hn hi hserved
  · have hlast : i = w.http.calls.length := by
      have hlt := (List.getElem?_eq_some_iff.mp hi).1
      simp only [List.length_append, List.length_singleton] at hlt
      omega
    subst hlast
    rw [List.getElem?_concat_length, Option.some.injEq] at hi
    rw [← hw.served, List.getElem?_concat_length, Option.some.injEq] at hserved
    subst hi
    subst hserved
    exact fun _ _ => ⟨trivial, received_arriving w.http request⟩

theorem barred_moved (hw : Barred api client revoked n w) {a : Idempotency.Action}
    {http : Idempotency.World} {j : ℕ} {mover : Call} (hj : w.http.calls[j]? = some mover)
    (hunrecorded : Unrecorded api client n w (.http a)) (hallowed : allowed api w a = true)
    (hmoved : Moved api.middleware w.http j mover a http)
    (hcalls : ∀ i, i ≠ j → http.calls[i]? = w.http.calls[i]?) :
    ∀ i call served, n ≤ i → http.calls[i]? = some call → w.served[i]? = some served →
      Carries api.middleware client call.request → (api.organizationOf call.request).isSome = true →
      Held client revoked served ∧ receivedSuccess call = false := by
  intro i call served hn hi hserved hcarries horg
  by_cases hij : i = j
  · subst hij
    rw [request_moved hmoved hj hi] at hcarries horg
    obtain ⟨hheld, hbefore⟩ := hw.later i mover served hn hj hserved hcarries horg
    refine ⟨hheld, received_moved hmoved hj hi hbefore ?_ ?_⟩
    · rintro message raises rfl
      simp only [allowed, hj, hserved] at hallowed
      exact mayStart_held hheld horg hallowed
    · rintro key response rfl hkey
      exact hw.sourced.no_replay (List.mem_of_getElem? hj) hkey
        (hunrecorded hn mover key hj hkey hcarries horg) response
  · rw [hcalls i hij] at hi
    exact hw.later i call served hn hi hserved hcarries horg

theorem barred_http (hw : Barred api client revoked n w) {a : Idempotency.Action}
    {http : Idempotency.World} (hunrecorded : Unrecorded api client n w (.http a))
    (hallowed : allowed api w a = true)
    (hstep : Idempotency.step api.middleware w.http a = some http) :
    Barred api client revoked n { w with http, served := servedAfter w a } := by
  have hsourced := sourced_step hw.sourced hstep
  cases Idempotency.step_cases hstep with
  | arrived request => exact barred_arrived hw request hsourced
  | foreign key entry hkey => exact ⟨hsourced, hw.served, hw.withdrawn, hw.later⟩
  | ticked now hle => exact ⟨hsourced, hw.served, hw.withdrawn, hw.later⟩
  | moved j mover hj hmoved =>
    obtain ⟨hserved, hlength⟩ := servedAfter_moved hmoved
    rw [hserved]
    refine ⟨hsourced, hw.served.trans hlength.symm, hw.withdrawn, ?_⟩
    refine barred_moved hw hj hunrecorded hallowed hmoved fun i hij => ?_
    cases hmoved <;> exact List.getElem?_set_ne (Ne.symm hij)

theorem barred_step {w' : RequestPipeline.World} {a : RequestPipeline.Action}
    (hw : Barred api client revoked n w)
    (hstays : revoked ∨ Ousted w.tenants.directory client)
    (hunrecorded : Unrecorded api client n w a) (hstep : RequestPipeline.step api w a = some w') :
    Barred api client revoked n w' := by
  cases RequestPipeline.step_cases hstep with
  | http a http hallowed hhttp => exact barred_http hw hunrecorded hallowed hhttp
  | tenants a tenants htenants =>
    exact ⟨hw.sourced, hw.served, fun h => revoked_step (hw.withdrawn h) htenants, hw.later⟩
  | served a j before after hj hserving =>
    refine ⟨hw.sourced, by rw [World.serve, List.length_set, hw.served], hw.withdrawn, ?_⟩
    intro i call served hn hi hserved hcarries horg
    by_cases hij : j = i
    · subst hij
      rw [World.serve, List.getElem?_set, if_pos rfl,
        if_pos (List.getElem?_eq_some_iff.mp hj).1, Option.some.injEq] at hserved
      subst hserved
      obtain ⟨hheld, hreceived⟩ := hw.later j call before hn hi hj hcarries horg
      exact ⟨held_serving hcarries hw.withdrawn hstays hheld (hserving call hi), hreceived⟩
    · rw [World.serve, List.getElem?_set_ne hij] at hserved
      exact hw.later i call served hn hi hserved hcarries horg

end Steps

/-- The state of a run that has only begun is sound, and the requests still to come
have nothing. -/
theorem sound_run {w₀ w : RequestPipeline.World} {trace : List RequestPipeline.Action}
    (h₀ : RequestPipeline.Start w₀) (hrun : (RequestPipeline.system api).run w₀ trace = some w) :
    Sourced api.middleware w.http ∧ w.served.length = w.http.calls.length := by
  refine (RequestPipeline.system api).run_preserves
    (fun w => Sourced api.middleware w.http ∧ w.served.length = w.http.calls.length)
    (fun w a w' hw hstep => ?_) hrun
    ⟨sourced_start h₀.http, by rw [h₀.served, h₀.http.calls]; rfl⟩
  cases RequestPipeline.step_cases hstep with
  | http a http hallowed hhttp =>
    refine ⟨sourced_step hw.1 hhttp, ?_⟩
    cases Idempotency.step_cases hhttp with
    | arrived request => simp [servedAfter, hw.2]
    | foreign key entry hkey => exact hw.2
    | ticked now hle => exact hw.2
    | moved j mover hj hmoved =>
      obtain ⟨hserved, hlength⟩ := servedAfter_moved hmoved
      rw [hserved, hw.2, hlength]
  | tenants a tenants htenants => exact hw
  | served a j before after hj hserving =>
    exact ⟨hw.1, by rw [World.serve, List.length_set, hw.2]⟩

/-- From a state on in which the access of an agent is withdrawn and stays so, no later
request with a token of the agent receives a 2xx from an endpoint of an organization, as
long as none of these finds its response recorded. -/
theorem withdrawal_takes_effect (api : Api) (client : AgentClient)
    (w₀ w₁ w₂ : RequestPipeline.World) (before after : List RequestPipeline.Action)
    (h₀ : RequestPipeline.Start w₀)
    (hbefore : (RequestPipeline.system api).run w₀ before = some w₁)
    (hafter : (RequestPipeline.system api).run w₁ after = some w₂)
    (hstays : (RequestPipeline.system api).RunMeets (fun w _ =>
      Revoked w₁.tenants.directory client.id ∨ Ousted w.tenants.directory client) w₁ after)
    (hunrecorded : (RequestPipeline.system api).RunMeets
      (Unrecorded api client w₁.http.calls.length) w₁ after) :
    ∀ i call, w₁.http.calls.length ≤ i → w₂.http.calls[i]? = some call →
      Carries api.middleware client call.request → (api.organizationOf call.request).isSome = true →
      receivedSuccess call = false := by
  obtain ⟨hsourced, hlength⟩ := sound_run h₀ hbefore
  have hbarred : Barred api client (Revoked w₁.tenants.directory client.id)
      w₁.http.calls.length w₁ := by
    refine ⟨hsourced, hlength, fun h => h, fun i call served hn hi => ?_⟩
    exact absurd (List.getElem?_eq_some_iff.mp hi).1 (by omega)
  have hend := (RequestPipeline.system api).run_preserves_of_meets
    (fun w a => (Revoked w₁.tenants.directory client.id ∨ Ousted w.tenants.directory client) ∧
      Unrecorded api client w₁.http.calls.length w a)
    (Barred api client (Revoked w₁.tenants.directory client.id) w₁.http.calls.length)
    (fun w a w' hw hmeets hstep => barred_step hw hmeets.1 hmeets.2 hstep) hafter
    (Transition.System.RunMeets.and _ hstays hunrecorded) hbarred
  intro i call hn hi hcarries horg
  obtain ⟨served, hserved⟩ : ∃ served, w₂.served[i]? = some served := by
    have hlt := (List.getElem?_eq_some_iff.mp hi).1
    exact ⟨_, List.getElem?_eq_getElem (hend.served ▸ hlt)⟩
  exact (hend.later i call served hn hi hserved hcarries horg).2

def exampleClient : AgentClient :=
  ⟨6, 10, "Auditor", "ctxl_6", "scrypt", 5, [.recordDecisions], .internal, 1, none⟩

/-- The agent's token names its client, its service user and its organization; the digests
are those of the texts of the request below. -/
def exampleMiddleware : Middleware :=
  { IdempotentKeys.exampleMiddleware with
    verify := fun _ token => if token = "t" then
      some ⟨5, some 10, some [.recordDecisions], some .internal, some 6⟩ else none
    sha256 := fun bytes =>
      if bytes = Events.encode "agent:00000000-0000-0000-0000-000000000006\x00k" then
        "2ae0c79eb96d5289690b8e301b3cb673b3dd9ff7c777322471c47e7f7f0b4331"
      else "f8b50cccdc254c3b9696c03e3a3629856a8d663a0813184267e8d1ae078cd29d" }

def exampleRequest (key : List (String × String)) : HttpRequest :=
  ⟨"POST", "/api/v1/organizations/00000000-0000-0000-0000-00000000000a/decisions", [],
    ("authorization", "Bearer t") :: key, Events.encode "\x7b\x7d"⟩

def exampleApi : Api :=
  ⟨exampleMiddleware, fun request =>
    if request.path = (exampleRequest []).path then some 10 else none⟩

def exampleStart : RequestPipeline.World :=
  ⟨IdempotentKeys.exampleStart, AdminPresence.exampleStart, []⟩

/-- An agent is registered and posts a decision with a key; then its client is revoked. -/
def exampleBefore : List RequestPipeline.Action :=
  [.tenants (.start (.createOrganization "Ledger" "ledger" 1 10)), .tenants (.advance 0),
    .tenants (.advance 0),
    .tenants (.start (.createAgent (AdminPresence.exampleContext 1) "Auditor" .engineer
      [.recordDecisions] .internal 6 5 "ctxl_6" "scrypt")),
    .tenants (.advance 1), .tenants (.advance 1), .tenants (.advance 1), .tenants (.advance 1),
    .http (.arrive (exampleRequest [("idempotency-key", "k")])), .http (.reserve 0 true),
    .authenticate 0 true, .readClients 0, .readMembership 0,
    .http (.emit 0 (.start 201 []) false), .http (.emit 0 (.body (Events.encode "[]")) false),
    .http (.finishApp 0 false), .http (.settle 0 true),
    .tenants (.start (.revokeAgent (AdminPresence.exampleContext 1) 6 1)),
    .tenants (.advance 2), .tenants (.advance 2), .tenants (.advance 2)]

/-- The same request once more. -/
def exampleRetry : List RequestPipeline.Action :=
  [.http (.arrive (exampleRequest [("idempotency-key", "k")])), .http (.reserve 1 true),
    .http (.lookup 1 true)]

/-- The request without a key runs the endpoint, which refuses it. -/
def exampleRefused : List RequestPipeline.Action :=
  [.http (.arrive (exampleRequest [])), .authenticate 1 true, .readClients 1, .readMembership 1,
    .http (.emit 1 (.start 403 []) false), .http (.finishApp 1 false)]

def isRevoked (d : Directory) (agentClientId : Uuid) : Bool :=
  (d.agentClients.find? fun c => c.id == agentClientId).any fun c => c.revokedAt.isSome

theorem revoked_of_isRevoked {d : Directory} {agentClientId : Uuid}
    (h : isRevoked d agentClientId = true) : Revoked d agentClientId :=
  (Option.any_eq_true _ _).mp h

def exampleEnds (key : List (String × String)) (status : ℕ) (w₁ w₂ : RequestPipeline.World) :
    Bool :=
  isRevoked w₁.tenants.directory 6 && decide (w₁.http.calls.length = 1) &&
    w₂.http.calls[1]?.any fun call => decide (call.request.path = (exampleRequest key).path) &&
      decide (call.request.headers = (exampleRequest key).headers) &&
      decide (receivedStatus call.phase = some status)

theorem exampleRetry_ends : (((RequestPipeline.system exampleApi).run exampleStart
    exampleBefore).any fun w₁ => ((RequestPipeline.system exampleApi).run w₁
      exampleRetry).any (exampleEnds [("idempotency-key", "k")] 201 w₁)) = true := by
  decide +kernel

theorem exampleRefused_ends : (((RequestPipeline.system exampleApi).run exampleStart
    exampleBefore).any fun w₁ => ((RequestPipeline.system exampleApi).run w₁
      exampleRefused).any (exampleEnds [] 403 w₁)) = true := by
  decide +kernel

theorem exampleStart_starts : RequestPipeline.Start exampleStart :=
  ⟨⟨rfl, fun _ _ => rfl⟩, ⟨rfl, rfl, rfl, rfl⟩, rfl⟩

theorem carries_example {request : HttpRequest} {key : List (String × String)}
    (h : request.headers = (exampleRequest key).headers) :
    Carries exampleMiddleware exampleClient request := by
  refine ⟨"Bearer t", by rw [HttpRequest.header, h]; rfl, by decide, fun now claims hclaims => ?_⟩
  have hbearer : bearerClaims exampleMiddleware now "Bearer t" =
      some ⟨5, some 10, some [.recordDecisions], some .internal, some 6⟩ := rfl
  obtain rfl := Option.some.inj (hbearer.symm.trans hclaims)
  exact ⟨rfl, rfl, rfl⟩

theorem exampleEnds_cases {key : List (String × String)} {status : ℕ}
    {w₁ w₂ : RequestPipeline.World} (h : exampleEnds key status w₁ w₂ = true) :
    Revoked w₁.tenants.directory 6 ∧ w₁.http.calls.length = 1 ∧ ∃ call,
      w₂.http.calls[1]? = some call ∧ Carries exampleMiddleware exampleClient call.request ∧
      (exampleApi.organizationOf call.request).isSome = true ∧
      receivedStatus call.phase = some status := by
  simp only [exampleEnds, Bool.and_eq_true, decide_eq_true_eq] at h
  obtain ⟨⟨hrevoked, hlength⟩, hcall⟩ := h
  obtain ⟨call, hcall, hrest⟩ := (Option.any_eq_true _ _).mp hcall
  simp only [Bool.and_eq_true, decide_eq_true_eq] at hrest
  refine ⟨revoked_of_isRevoked hrevoked, hlength, call, hcall, carries_example hrest.1.2, ?_,
    hrest.2⟩
  have hpath : exampleApi.organizationOf call.request = some 10 := if_pos hrest.1.1
  rw [hpath]
  rfl

theorem withdrawal_takes_effect_example : ∃ w₁ w₂ call,
    (RequestPipeline.system exampleApi).run exampleStart exampleBefore = some w₁ ∧
    (RequestPipeline.system exampleApi).run w₁ exampleRefused = some w₂ ∧
    w₂.http.calls[1]? = some call ∧ receivedStatus call.phase = some 403 ∧
    receivedSuccess call = false := by
  obtain ⟨w₁, hbefore, hrest⟩ := (Option.any_eq_true _ _).mp exampleRefused_ends
  obtain ⟨w₂, hafter, hends⟩ := (Option.any_eq_true _ _).mp hrest
  obtain ⟨hrevoked, hlength, call, hcall, hcarries, horg, hstatus⟩ := exampleEnds_cases hends
  refine ⟨w₁, w₂, call, hbefore, hafter, hcall, hstatus, ?_⟩
  refine withdrawal_takes_effect exampleApi exampleClient exampleStart w₁ w₂ exampleBefore
    exampleRefused exampleStart_starts hbefore hafter ?_ ?_ 1 call (by omega) hcall hcarries horg
  · exact Transition.System.runMeets_of_forall _ fun a _ w => Or.inl hrevoked
  · refine Transition.System.runMeets_of_forall _ fun a ha w => ?_
    simp only [exampleRefused, List.mem_cons, List.not_mem_nil, or_false] at ha
    rcases ha with rfl | rfl | rfl | rfl | rfl | rfl <;> trivial

/-- The recorded response is replayed to the agent after its client is revoked. -/
theorem replayed_after_revocation : ¬∀ (api : Api) (client : AgentClient)
    (w₀ w₁ w₂ : RequestPipeline.World) (before after : List RequestPipeline.Action),
    RequestPipeline.Start w₀ → (RequestPipeline.system api).run w₀ before = some w₁ →
    (RequestPipeline.system api).run w₁ after = some w₂ →
    (RequestPipeline.system api).RunMeets (fun w _ =>
      Revoked w₁.tenants.directory client.id ∨ Ousted w.tenants.directory client) w₁ after →
    ∀ i call, w₁.http.calls.length ≤ i → w₂.http.calls[i]? = some call →
      Carries api.middleware client call.request →
      (api.organizationOf call.request).isSome = true → receivedSuccess call = false := by
  intro hall
  obtain ⟨w₁, hbefore, hrest⟩ := (Option.any_eq_true _ _).mp exampleRetry_ends
  obtain ⟨w₂, hafter, hends⟩ := (Option.any_eq_true _ _).mp hrest
  obtain ⟨hrevoked, hlength, call, hcall, hcarries, horg, hstatus⟩ := exampleEnds_cases hends
  have hfalse := hall exampleApi exampleClient exampleStart w₁ w₂ exampleBefore exampleRetry
    exampleStart_starts hbefore hafter
    (Transition.System.runMeets_of_forall _ fun a _ w => Or.inl hrevoked)
    1 call (by omega) hcall hcarries horg
  rw [receivedSuccess, hstatus] at hfalse
  exact absurd hfalse (by decide)

end ContextLedger.AccessWithdrawal
