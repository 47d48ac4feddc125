import ContextLedger.Events
import ContextLedger.Outbox
import ContextLedger.Transition

/-!
Writers fill the event outbox and relays empty it. Triggers add a row to the
outbox in the transaction of the change, with a number that is drawn at once and
a row that others see when the transaction commits. A relay locks the rows with
the least numbers that no other relay has locked, publishes their messages, and
deletes the rows when it commits; it may fail at any point, after some messages
have been acknowledged or even after its commit. An event leaves the outbox only
in the hands of a relay that has seen it acknowledged.
-/
namespace ContextLedger.EventRelay

open Values JsonText Events

inductive Operation where
  | insert
  | update
  deriving DecidableEq

/-- The arguments of a trigger that emits events. -/
structure Trigger where
  table : String
  eventType : String
  onUpdate : Bool
  aggregate : String
  columns : List String

def emittingTables : List Trigger :=
  [⟨"fact_versions", "fact.version_recorded", false, "id",
     ["id", "fact_id", "version", "source_id", "supersedes_id", "valid_from", "valid_until",
      "authority", "privacy_scope", "recorded_at"]⟩,
   ⟨"fact_embeddings", "fact.embedding_stored", true, "fact_version_id",
     ["fact_version_id", "model", "created_at"]⟩,
   ⟨"evidence", "evidence.captured", false, "id",
     ["id", "source_id", "evidence_type", "content_sha256", "privacy_scope", "captured_at",
      "recorded_at"]⟩,
   ⟨"fact_version_evidence", "evidence.linked", false, "fact_version_id",
     ["fact_version_id", "evidence_id", "relation", "linked_at"]⟩,
   ⟨"context_snapshots", "context.captured", false, "id",
     ["id", "captured_by_user_id", "valid_at", "known_at", "embedding_model", "created_at"]⟩,
   ⟨"decisions", "decision.recorded", false, "id",
     ["id", "snapshot_id", "decided_by_user_id", "agent", "action", "decided_at",
      "receipt_sha256"]⟩,
   ⟨"contradictions", "contradiction.detected", false, "id",
     ["id", "entity_id", "left_version_id", "right_version_id", "kind", "detector",
      "privacy_scope", "detected_at"]⟩,
   ⟨"fact_revocations", "fact.revoked", false, "fact_version_id",
     ["id", "fact_version_id", "revoked_by_user_id", "revoked_at"]⟩,
   ⟨"revocation_impacts", "decision.impacted", false, "decision_id",
     ["revocation_id", "decision_id", "snapshot_id", "fact_version_id", "relied_on"]⟩]

/-- A row as `to_jsonb` shows it, with its columns that hold an identifier. -/
structure TableRow where
  table : String
  organizationId : Uuid
  columns : List (String × Json)
  ids : List (String × Uuid)

/-- `contextledger_emit_event` -/
def emitEvent (trigger : Trigger) (row : TableRow) (id : ℕ) (eventId : Uuid) (now : Instant) :
    OutboxEvent :=
  ⟨id, eventId, row.organizationId, trigger.eventType, (row.ids.lookup trigger.aggregate).getD 0,
    .obj (trigger.columns.map fun c => (c, (row.columns.lookup c).getD .null)), now⟩

/-- The trigger that a change of the table fires, if any. -/
def firedBy (operation : Operation) (row : TableRow) : Option Trigger :=
  emittingTables.find? fun t => t.table = row.table ∧ (operation = .insert ∨ t.onUpdate)

inductive Writer where
  | open (startedAt : Instant) (rows : List OutboxEvent)
  | committed
  | rolledBack

def Writer.rows : Writer → List OutboxEvent
  | .open _ rows => rows
  | _ => []

/-- `left` are the events of the batch whose messages have no acknowledgement yet. -/
inductive Relay where
  | idle
  | claimed (events : List OutboxEvent)
  | publishing (events left : List OutboxEvent)
  | deleted (events : List OutboxEvent)

/-- The events whose rows the relay has locked. -/
def Relay.held : Relay → List OutboxEvent
  | .idle => []
  | .claimed events => events
  | .publishing events _ => events
  | .deleted events => events

/-- `committed` are the events of each committed transaction, in the order of the commits,
and `log` the acknowledged messages, each with the row it was made from. -/
structure World where
  outbox : List OutboxEvent
  nextId : ℕ
  writers : List Writer
  committed : List (List OutboxEvent)
  rolledBack : List OutboxEvent
  relays : List Relay
  log : List (OutboxEvent × OutgoingMessage)

inductive Action where
  | begin (now : Instant)
  | write (i : ℕ) (operation : Operation) (row : TableRow) (eventId : Uuid)
  | commit (i : ℕ)
  | rollBack (i : ℕ)
  | startRelay
  | claim (i batchSize : ℕ) (organizationId : Option Uuid)
  | publish (i : ℕ)
  | acknowledge (i k : ℕ)
  | delete (i : ℕ)
  | finish (i : ℕ)
  | finishFailed (i : ℕ) (stored : Bool)
  | fail (i : ℕ)

def World.lockedByOthers (w : World) (i : ℕ) : List OutboxEvent :=
  (w.relays.eraseIdx i).flatMap Relay.held

def eligible (organizationId : Option Uuid) (e : OutboxEvent) : Bool :=
  organizationId.all fun org => e.organizationId == org

def World.setRelay (w : World) (i : ℕ) (relay : Relay) : World :=
  { w with relays := w.relays.set i relay }

/-- The deletion becomes visible and the locks are given up. -/
def World.commitDelete (w : World) (i : ℕ) (events : List OutboxEvent) : World :=
  { w with
    outbox := Outbox.delete OutboxEvent.id w.outbox events
    relays := w.relays.set i .idle }

def stepWriter (w : World) : Action → Option World
  | .begin now => some { w with writers := w.writers ++ [.open now []] }
  | .write i operation row eventId =>
    match w.writers[i]? with
    | some (.open now rows) =>
      match firedBy operation row with
      | none => some w
      | some trigger =>
        let event := emitEvent trigger row w.nextId eventId now
        some { w with
          nextId := w.nextId + 1
          writers := w.writers.set i (.open now (rows ++ [event])) }
    | _ => none
  | .commit i =>
    match w.writers[i]? with
    | some (.open _ rows) =>
      some { w with
        outbox := w.outbox ++ rows
        committed := w.committed ++ [rows]
        writers := w.writers.set i .committed }
    | _ => none
  | .rollBack i =>
    match w.writers[i]? with
    | some (.open _ rows) =>
      some { w with
        rolledBack := w.rolledBack ++ rows
        writers := w.writers.set i .rolledBack }
    | _ => none
  | _ => none

def stepRelay (codec : Codec) (w : World) (i : ℕ) (relay : Relay) : Action → Option World
  | .claim _ batchSize organizationId =>
    match relay with
    | .idle =>
      let events := Outbox.claim OutboxEvent.id w.outbox (w.lockedByOthers i)
        (eligible organizationId) batchSize
      some (w.setRelay i (if events.isEmpty then .idle else .claimed events))
    | _ => none
  | .publish _ =>
    match relay with
    | .claimed events =>
      if events.all fun e => (messageFor codec e).isSome then
        some (w.setRelay i (.publishing events events))
      else some (w.setRelay i .idle)
    | _ => none
  | .acknowledge _ k =>
    match relay with
    | .publishing events left =>
      (left[k]?).bind fun e => (messageFor codec e).map fun message =>
        { w with
          log := w.log ++ [(e, message)]
          relays := w.relays.set i (.publishing events (left.eraseIdx k)) }
    | _ => none
  | .delete _ =>
    match relay with
    | .publishing events [] => some (w.setRelay i (.deleted events))
    | _ => none
  | .finish _ =>
    match relay with
    | .deleted events => some (w.commitDelete i events)
    | _ => none
  | .finishFailed _ stored =>
    match relay with
    | .deleted events => some (if stored then w.commitDelete i events else w.setRelay i .idle)
    | _ => none
  | .fail _ => some (w.setRelay i .idle)
  | _ => none

/-- The relay that an action is about. -/
def Action.relay : Action → Option ℕ
  | .claim i _ _ => some i
  | .publish i => some i
  | .acknowledge i _ => some i
  | .delete i => some i
  | .finish i => some i
  | .finishFailed i _ => some i
  | .fail i => some i
  | _ => none

def step (codec : Codec) (w : World) (a : Action) : Option World :=
  match a with
  | .startRelay => some { w with relays := w.relays ++ [.idle] }
  | a =>
    match a.relay with
    | none => stepWriter w a
    | some i => (w.relays[i]?).bind fun relay => stepRelay codec w i relay a

/-- Nothing has been written or published. -/
structure Start (w : World) : Prop where
  outbox : w.outbox = []
  writers : w.writers = []
  committed : w.committed = []
  rolledBack : w.rolledBack = []
  relays : w.relays = []
  log : w.log = []

def system (codec : Codec) : Transition.System World Action := ⟨Start, step codec⟩

/-- What an action of a relay can do. -/
inductive Relayed (codec : Codec) (w : World) (i : ℕ) (relay : Relay) : Action → World → Prop
  | gaveUp {a : Action} : Relayed codec w i relay a (w.setRelay i .idle)
  | claimed (batchSize : ℕ) (org : Option Uuid) (events : List OutboxEvent)
      (hidle : relay = .idle)
      (hevents : events = Outbox.claim OutboxEvent.id w.outbox (w.lockedByOthers i)
        (eligible org) batchSize) :
      Relayed codec w i relay (.claim i batchSize org) (w.setRelay i (.claimed events))
  | began (events : List OutboxEvent) (hclaimed : relay = .claimed events) :
      Relayed codec w i relay (.publish i) (w.setRelay i (.publishing events events))
  | acknowledged (k : ℕ) (events left : List OutboxEvent) (e : OutboxEvent)
      (message : OutgoingMessage) (hpublishing : relay = .publishing events left)
      (hk : left[k]? = some e) (hmessage : messageFor codec e = some message) :
      Relayed codec w i relay (.acknowledge i k)
        { w with
          log := w.log ++ [(e, message)]
          relays := w.relays.set i (.publishing events (left.eraseIdx k)) }
  | deleted (events : List OutboxEvent) (hpublished : relay = .publishing events []) :
      Relayed codec w i relay (.delete i) (w.setRelay i (.deleted events))
  | finished {a : Action} (events : List OutboxEvent) (hdeleted : relay = .deleted events) :
      Relayed codec w i relay a (w.commitDelete i events)

theorem relayed_of_stepRelay {codec : Codec} {w w' : World} {i : ℕ} {relay : Relay} {a : Action}
    (hi : a.relay = some i) (h : stepRelay codec w i relay a = some w') :
    Relayed codec w i relay a w' := by
  cases a with
  | claim j batchSize org =>
    obtain rfl := Option.some.inj hi
    cases relay with
    | idle =>
      simp only [stepRelay] at h
      split at h
      · obtain rfl := Option.some.inj h
        exact .gaveUp
      · obtain rfl := Option.some.inj h
        exact .claimed batchSize org _ rfl rfl
    | claimed events => exact absurd h (by simp [stepRelay])
    | publishing events left => exact absurd h (by simp [stepRelay])
    | deleted events => exact absurd h (by simp [stepRelay])
  | publish j =>
    obtain rfl := Option.some.inj hi
    cases relay with
    | claimed events =>
      simp only [stepRelay] at h
      split at h
      · obtain rfl := Option.some.inj h
        exact .began events rfl
      · obtain rfl := Option.some.inj h
        exact .gaveUp
    | idle => exact absurd h (by simp [stepRelay])
    | publishing events left => exact absurd h (by simp [stepRelay])
    | deleted events => exact absurd h (by simp [stepRelay])
  | acknowledge j k =>
    obtain rfl := Option.some.inj hi
    cases relay with
    | publishing events left =>
      obtain ⟨e, hk, h⟩ := Option.bind_eq_some_iff.mp h
      obtain ⟨message, hmessage, rfl⟩ := Option.map_eq_some_iff.mp h
      exact .acknowledged k events left e message rfl hk hmessage
    | idle => exact absurd h (by simp [stepRelay])
    | claimed events => exact absurd h (by simp [stepRelay])
    | deleted events => exact absurd h (by simp [stepRelay])
  | delete j =>
    obtain rfl := Option.some.inj hi
    cases relay with
    | publishing events left =>
      cases left with
      | nil =>
        obtain rfl := Option.some.inj h
        exact .deleted events rfl
      | cons e left => exact absurd h (by simp [stepRelay])
    | idle => exact absurd h (by simp [stepRelay])
    | claimed events => exact absurd h (by simp [stepRelay])
    | deleted events => exact absurd h (by simp [stepRelay])
  | finish j =>
    obtain rfl := Option.some.inj hi
    cases relay with
    | deleted events =>
      obtain rfl := Option.some.inj h
      exact .finished events rfl
    | idle => exact absurd h (by simp [stepRelay])
    | claimed events => exact absurd h (by simp [stepRelay])
    | publishing events left => exact absurd h (by simp [stepRelay])
  | finishFailed j stored =>
    obtain rfl := Option.some.inj hi
    cases relay with
    | deleted events =>
      cases stored with
      | true =>
        obtain rfl := Option.some.inj h
        exact .finished events rfl
      | false =>
        obtain rfl := Option.some.inj h
        exact .gaveUp
    | idle => exact absurd h (by simp [stepRelay])
    | claimed events => exact absurd h (by simp [stepRelay])
    | publishing events left => exact absurd h (by simp [stepRelay])
  | fail j =>
    obtain rfl := Option.some.inj hi
    obtain rfl := Option.some.inj h
    exact .gaveUp
  | _ => exact absurd hi (by simp [Action.relay])

/-- What a step can do. -/
inductive Stepped (codec : Codec) (w : World) : Action → World → Prop
  | started : Stepped codec w .startRelay { w with relays := w.relays ++ [.idle] }
  | begun (now : Instant) :
      Stepped codec w (.begin now) { w with writers := w.writers ++ [.open now []] }
  | silent {a : Action} : Stepped codec w a w
  | wrote {a : Action} (i : ℕ) (now : Instant) (rows : List OutboxEvent) (event : OutboxEvent)
      (hi : w.writers[i]? = some (.open now rows)) (hid : event.id = w.nextId) :
      Stepped codec w a
        { w with
          nextId := w.nextId + 1
          writers := w.writers.set i (.open now (rows ++ [event])) }
  | committed (i : ℕ) (now : Instant) (rows : List OutboxEvent)
      (hi : w.writers[i]? = some (.open now rows)) :
      Stepped codec w (.commit i)
        { w with
          outbox := w.outbox ++ rows
          committed := w.committed ++ [rows]
          writers := w.writers.set i .committed }
  | rolledBack (i : ℕ) (now : Instant) (rows : List OutboxEvent)
      (hi : w.writers[i]? = some (.open now rows)) :
      Stepped codec w (.rollBack i)
        { w with
          rolledBack := w.rolledBack ++ rows
          writers := w.writers.set i .rolledBack }
  | relayed {a : Action} {w' : World} (i : ℕ) (relay : Relay) (hi : w.relays[i]? = some relay)
      (h : Relayed codec w i relay a w') : Stepped codec w a w'

theorem step_cases {codec : Codec} {w w' : World} {a : Action} (h : step codec w a = some w') :
    Stepped codec w a w' := by
  have hrelay : ∀ {i : ℕ}, a.relay = some i →
      ((w.relays[i]?).bind fun relay => stepRelay codec w i relay a) = some w' →
      Stepped codec w a w' := by
    intro i hi h
    obtain ⟨relay, hrelay, h⟩ := Option.bind_eq_some_iff.mp h
    exact .relayed i relay hrelay (relayed_of_stepRelay hi h)
  cases a with
  | startRelay =>
    obtain rfl := Option.some.inj h
    exact .started
  | begin now =>
    obtain rfl := Option.some.inj h
    exact .begun now
  | write i operation row eventId =>
    simp only [step, Action.relay, stepWriter] at h
    split at h
    · rename_i now rows hi
      split at h
      · obtain rfl := Option.some.inj h
        exact .silent
      · obtain rfl := Option.some.inj h
        exact .wrote i now rows _ hi rfl
    · exact absurd h (by simp)
  | commit i =>
    simp only [step, Action.relay, stepWriter] at h
    split at h
    · rename_i now rows hi
      obtain rfl := Option.some.inj h
      exact .committed i now rows hi
    · exact absurd h (by simp)
  | rollBack i =>
    simp only [step, Action.relay, stepWriter] at h
    split at h
    · rename_i now rows hi
      obtain rfl := Option.some.inj h
      exact .rolledBack i now rows hi
    · exact absurd h (by simp)
  | claim i batchSize org => exact hrelay rfl h
  | publish i => exact hrelay rfl h
  | acknowledge i k => exact hrelay rfl h
  | delete i => exact hrelay rfl h
  | finish i => exact hrelay rfl h
  | finishFailed i stored => exact hrelay rfl h
  | fail i => exact hrelay rfl h

/-- Every event that a transaction has written, whatever became of the transaction. -/
def World.drawn (w : World) : List OutboxEvent :=
  w.committed.flatten ++ w.rolledBack ++ w.writers.flatMap Writer.rows

def Acknowledged (log : List (OutboxEvent × OutgoingMessage)) (e : OutboxEvent) : Prop :=
  ∃ message, (e, message) ∈ log

theorem Acknowledged.append {log : List (OutboxEvent × OutgoingMessage)} {e : OutboxEvent}
    (h : Acknowledged log e) (rest : List (OutboxEvent × OutgoingMessage)) :
    Acknowledged (log ++ rest) e := by
  obtain ⟨message, hmem⟩ := h
  exact ⟨message, List.mem_append_left _ hmem⟩

/-- What a relay has seen acknowledged. -/
def Sent (log : List (OutboxEvent × OutgoingMessage)) : Relay → Prop
  | .publishing events left =>
    (∀ e ∈ left, e ∈ events) ∧ ∀ e ∈ events, e ∈ left ∨ Acknowledged log e
  | .deleted events => ∀ e ∈ events, Acknowledged log e
  | _ => True

theorem Sent.append {log : List (OutboxEvent × OutgoingMessage)} {relay : Relay}
    (h : Sent log relay) (rest : List (OutboxEvent × OutgoingMessage)) :
    Sent (log ++ rest) relay := by
  cases relay with
  | idle => trivial
  | claimed events => trivial
  | publishing events left =>
    exact ⟨h.1, fun e he => (h.2 e he).imp id fun hack => hack.append rest⟩
  | deleted events => exact fun e he => (h e he).append rest

structure Kept (codec : Codec) (w : World) : Prop where
  ids : (w.drawn.map OutboxEvent.id).Nodup
  below : ∀ e ∈ w.drawn, e.id < w.nextId
  outbox : ∀ e ∈ w.outbox, e ∈ w.committed.flatten
  outboxIds : (w.outbox.map OutboxEvent.id).Nodup
  held : ∀ relay ∈ w.relays, ∀ e ∈ relay.held, e ∈ w.outbox
  apart : Processes.Apart (Outbox.Disjoint OutboxEvent.id Relay.held) w.relays
  sent : ∀ relay ∈ w.relays, Sent w.log relay
  log : ∀ x ∈ w.log, messageFor codec x.1 = some x.2 ∧ x.1 ∈ w.committed.flatten
  kept : ∀ e ∈ w.committed.flatten, e ∈ w.outbox ∨ Acknowledged w.log e

variable {codec : Codec}

theorem Kept.setRelay {w : World} (hw : Kept codec w) {i : ℕ} {relay : Relay}
    (hheld : ∀ e ∈ relay.held, e ∈ w.outbox)
    (hapart : ∀ j other, w.relays[j]? = some other → i ≠ j →
      Outbox.Disjoint OutboxEvent.id Relay.held relay other)
    (hsent : Sent w.log relay) : Kept codec (w.setRelay i relay) := by
  refine ⟨hw.ids, hw.below, hw.outbox, hw.outboxIds, ?_, ?_, ?_, hw.log, hw.kept⟩
  · intro r hr
    rcases Processes.mem_set_cases hr with rfl | ⟨j, -, hj⟩
    · exact hheld
    · exact hw.held r (List.mem_of_getElem? hj)
  · exact hw.apart.set Outbox.Disjoint.symm hapart
  · intro r hr
    rcases Processes.mem_set_cases hr with rfl | ⟨j, -, hj⟩
    · exact hsent
    · exact hw.sent r (List.mem_of_getElem? hj)

/-- The relay keeps its locks or gives up some. -/
theorem Kept.setRelay_of_held {w : World} (hw : Kept codec w) {i : ℕ} {relay relay' : Relay}
    (hi : w.relays[i]? = some relay) (hheld : ∀ e ∈ relay'.held, e ∈ relay.held)
    (hsent : Sent w.log relay') : Kept codec (w.setRelay i relay') := by
  refine hw.setRelay ?_ ?_ hsent
  · intro e he
    exact hw.held relay (List.mem_of_getElem? hi) e (hheld e he)
  · intro j other hj hij e he e' he'
    exact hw.apart i j relay other hi hj hij e (hheld e he) e' he'

theorem kept_acknowledged {w : World} (hw : Kept codec w) {i k : ℕ}
    {events left : List OutboxEvent} (hi : w.relays[i]? = some (.publishing events left))
    {e : OutboxEvent} (hk : left[k]? = some e) {message : OutgoingMessage}
    (hmessage : messageFor codec e = some message) :
    Kept codec { w with
      log := w.log ++ [(e, message)]
      relays := w.relays.set i (.publishing events (left.eraseIdx k)) } := by
  have hrelay := List.mem_of_getElem? hi
  obtain ⟨hleft, hdone⟩ := hw.sent _ hrelay
  have he : e ∈ events := hleft e (List.mem_of_getElem? hk)
  refine ⟨hw.ids, hw.below, hw.outbox, hw.outboxIds, ?_, ?_, ?_, ?_, ?_⟩
  · intro r hr
    rcases Processes.mem_set_cases hr with rfl | ⟨j, -, hj⟩
    · exact hw.held (.publishing events left) hrelay
    · exact hw.held r (List.mem_of_getElem? hj)
  · refine hw.apart.set Outbox.Disjoint.symm ?_
    intro j other hj hij
    exact hw.apart i j (.publishing events left) other hi hj hij
  · intro r hr
    rcases Processes.mem_set_cases hr with rfl | ⟨j, -, hj⟩
    · refine ⟨fun e' he' => hleft e' (List.mem_of_mem_eraseIdx he'), ?_⟩
      intro e' he'
      rcases hdone e' he' with hopen | hack
      · obtain ⟨j, hj⟩ := List.mem_iff_getElem?.mp hopen
        by_cases hjk : j = k
        · subst hjk
          obtain rfl := Option.some.inj (hj.symm.trans hk)
          exact Or.inr ⟨message, List.mem_append_right _ (List.mem_singleton_self _)⟩
        · exact Or.inl (List.mem_eraseIdx_iff_getElem?.mpr ⟨j, hjk, hj⟩)
      · exact Or.inr (hack.append _)
    · exact (hw.sent r (List.mem_of_getElem? hj)).append _
  · intro x hx
    rcases List.mem_append.mp hx with hx | hx
    · exact hw.log x hx
    · obtain rfl := List.mem_singleton.mp hx
      exact ⟨hmessage, hw.outbox e (hw.held _ hrelay e he)⟩
  · intro e' he'
    exact (hw.kept e' he').imp id fun hack => hack.append _

/-- Only acknowledged events are deleted. -/
theorem kept_finished {w : World} (hw : Kept codec w) {i : ℕ} {events : List OutboxEvent}
    (hi : w.relays[i]? = some (.deleted events)) : Kept codec (w.commitDelete i events) := by
  have hrelay := List.mem_of_getElem? hi
  refine ⟨hw.ids, hw.below, ?_, Outbox.nodup_delete hw.outboxIds events, ?_, ?_, ?_, hw.log, ?_⟩
  · intro e he
    exact hw.outbox e (Outbox.mem_delete.mp he).1
  · intro r hr e he
    rcases Processes.mem_set_cases hr with rfl | ⟨j, hij, hj⟩
    · exact absurd he List.not_mem_nil
    · refine Outbox.mem_delete.mpr ⟨hw.held r (List.mem_of_getElem? hj) e he, ?_⟩
      intro e' he'
      exact hw.apart i j _ r hi hj hij e' he' e he
  · refine hw.apart.set Outbox.Disjoint.symm ?_
    intro j other _ _ e he
    exact absurd he List.not_mem_nil
  · intro r hr
    rcases Processes.mem_set_cases hr with rfl | ⟨j, -, hj⟩
    · trivial
    · exact hw.sent r (List.mem_of_getElem? hj)
  · intro e he
    rcases hw.kept e he with hout | hack
    · by_cases hdone : ∃ e' ∈ events, e'.id = e.id
      · obtain ⟨e', he', hid⟩ := hdone
        have heq : e' = e := Outbox.eq_of_id_eq hw.outboxIds (hw.held _ hrelay e' he') hout hid
        exact Or.inr (heq ▸ hw.sent _ hrelay e' he')
      · exact Or.inl (Outbox.mem_delete.mpr ⟨hout, fun e' he' hid => hdone ⟨e', he', hid⟩⟩)
    · exact Or.inr hack

theorem kept_relayed {w w' : World} (hw : Kept codec w) {i : ℕ} {relay : Relay}
    (hi : w.relays[i]? = some relay) {a : Action} (h : Relayed codec w i relay a w') :
    Kept codec w' := by
  cases h with
  | gaveUp =>
    exact hw.setRelay_of_held hi (fun e he => absurd he List.not_mem_nil) trivial
  | claimed batchSize org events hidle hevents =>
    refine hw.setRelay ?_ ?_ trivial
    · intro e he
      subst hevents
      exact (Outbox.mem_of_mem_claim he).1
    · intro j other hj hij e he e' he'
      subst hevents
      refine ((Outbox.mem_of_mem_claim he).2.2 e' ?_).symm
      exact List.mem_flatMap.mpr ⟨other, Processes.mem_eraseIdx_of_ne hj hij, he'⟩
  | began events hclaimed =>
    subst hclaimed
    exact hw.setRelay_of_held hi (fun e he => he) ⟨fun e he => he, fun e he => Or.inl he⟩
  | acknowledged k events left e message hpublishing hk hmessage =>
    subst hpublishing
    exact kept_acknowledged hw hi hk hmessage
  | deleted events hpublished =>
    subst hpublished
    have hsent := (hw.sent _ (List.mem_of_getElem? hi)).2
    exact hw.setRelay_of_held hi (fun e he => he)
      fun e he => (hsent e he).resolve_left List.not_mem_nil
  | finished events hdeleted =>
    subst hdeleted
    exact kept_finished hw hi

/-- The writer's rows change hands, and the numbers of all events stay different. -/
theorem Kept.drawn {w w' : World} (hw : Kept codec w) (hperm : w'.drawn.Perm w.drawn)
    (hnext : w'.nextId = w.nextId) :
    (w'.drawn.map OutboxEvent.id).Nodup ∧ ∀ e ∈ w'.drawn, e.id < w'.nextId := by
  refine ⟨(hperm.map OutboxEvent.id).nodup_iff.mpr hw.ids, ?_⟩
  intro e he
  rw [hnext]
  exact hw.below e (hperm.mem_iff.mp he)

theorem kept_wrote {w : World} (hw : Kept codec w) {i : ℕ} {now : Instant}
    {rows : List OutboxEvent} (hi : w.writers[i]? = some (.open now rows)) {event : OutboxEvent}
    (hid : event.id = w.nextId) :
    Kept codec { w with
      nextId := w.nextId + 1
      writers := w.writers.set i (.open now (rows ++ [event])) } := by
  obtain ⟨rest, hbefore, hafter⟩ := Processes.perm_flatMap_set Writer.rows hi
  have hperm : (World.drawn { w with
      nextId := w.nextId + 1
      writers := w.writers.set i (.open now (rows ++ [event])) }).Perm (w.drawn ++ [event]) := by
    have hlast : (rows ++ [event] ++ rest).Perm (rows ++ rest ++ [event]) := by
      rw [List.append_assoc, List.append_assoc]
      exact List.perm_append_comm.append_left rows
    have hrows := (hafter (.open now (rows ++ [event]))).trans
      (hlast.trans (hbefore.symm.append_right [event]))
    rw [World.drawn, World.drawn, List.append_assoc (w.committed.flatten ++ w.rolledBack)]
    exact hrows.append_left _
  refine ⟨?_, ?_, hw.outbox, hw.outboxIds, hw.held, hw.apart, hw.sent, hw.log, hw.kept⟩
  · rw [(hperm.map OutboxEvent.id).nodup_iff, List.map_append, List.nodup_append]
    refine ⟨hw.ids, List.nodup_singleton _, ?_⟩
    intro id hdrawn id' hnew
    obtain ⟨e, he, rfl⟩ := List.mem_map.mp hdrawn
    rw [List.map_singleton, List.mem_singleton, hid] at hnew
    exact hnew ▸ (hw.below e he).ne
  · intro e he
    rcases List.mem_append.mp (hperm.mem_iff.mp he) with he | he
    · exact (hw.below e he).trans (Nat.lt_succ_self _)
    · rw [List.mem_singleton.mp he, hid]
      exact Nat.lt_succ_self _

theorem kept_committed {w : World} (hw : Kept codec w) {i : ℕ} {now : Instant}
    {rows : List OutboxEvent} (hi : w.writers[i]? = some (.open now rows)) :
    Kept codec { w with
      outbox := w.outbox ++ rows
      committed := w.committed ++ [rows]
      writers := w.writers.set i .committed } := by
  obtain ⟨rest, hbefore, hafter⟩ := Processes.perm_flatMap_set Writer.rows hi
  have hperm : (World.drawn { w with
      outbox := w.outbox ++ rows
      committed := w.committed ++ [rows]
      writers := w.writers.set i .committed }).Perm w.drawn := by
    show ((w.committed ++ [rows]).flatten ++ w.rolledBack ++
      (w.writers.set i .committed).flatMap Writer.rows).Perm
        (w.committed.flatten ++ w.rolledBack ++ w.writers.flatMap Writer.rows)
    have hcommitted : (w.committed ++ [rows]).flatten = w.committed.flatten ++ rows := by simp
    rw [hcommitted, List.append_assoc, List.append_assoc, List.append_assoc]
    have hothers := (hafter .committed).append_left w.rolledBack
    have hrows := (List.perm_append_comm_assoc rows w.rolledBack rest).trans
      (hbefore.symm.append_left w.rolledBack)
    exact ((hothers.append_left rows).trans hrows).append_left _
  obtain ⟨hids, hbelow⟩ := hw.drawn hperm rfl
  have hcommitted : (w.committed ++ [rows]).flatten = w.committed.flatten ++ rows := by simp
  have hnodup : ((w.committed.flatten ++ rows).map OutboxEvent.id).Nodup := by
    rw [← hcommitted]
    refine hids.sublist (List.Sublist.map _ ?_)
    exact (List.sublist_append_left _ _).trans (List.sublist_append_left _ _)
  rw [List.map_append, List.nodup_append] at hnodup
  obtain ⟨-, hrows, hdisjoint⟩ := hnodup
  refine ⟨hids, hbelow, ?_, ?_, ?_, hw.apart, hw.sent, ?_, ?_⟩
  · intro e he
    show e ∈ (w.committed ++ [rows]).flatten
    rw [hcommitted]
    rcases List.mem_append.mp he with he | he
    · exact List.mem_append_left _ (hw.outbox e he)
    · exact List.mem_append_right _ he
  · show ((w.outbox ++ rows).map OutboxEvent.id).Nodup
    rw [List.map_append, List.nodup_append]
    refine ⟨hw.outboxIds, hrows, ?_⟩
    intro id hold id' hnew
    obtain ⟨e, he, rfl⟩ := List.mem_map.mp hold
    exact hdisjoint _ (List.mem_map_of_mem (hw.outbox e he)) id' hnew
  · intro relay hrelay e he
    exact List.mem_append_left _ (hw.held relay hrelay e he)
  · intro x hx
    obtain ⟨hmessage, hmem⟩ := hw.log x hx
    refine ⟨hmessage, ?_⟩
    show x.1 ∈ (w.committed ++ [rows]).flatten
    rw [hcommitted]
    exact List.mem_append_left _ hmem
  · intro e he
    change e ∈ (w.committed ++ [rows]).flatten at he
    rw [hcommitted] at he
    rcases List.mem_append.mp he with he | he
    · exact (hw.kept e he).imp (fun hout => List.mem_append_left _ hout) id
    · exact Or.inl (List.mem_append_right _ he)

theorem kept_rolledBack {w : World} (hw : Kept codec w) {i : ℕ} {now : Instant}
    {rows : List OutboxEvent} (hi : w.writers[i]? = some (.open now rows)) :
    Kept codec { w with
      rolledBack := w.rolledBack ++ rows
      writers := w.writers.set i .rolledBack } := by
  obtain ⟨rest, hbefore, hafter⟩ := Processes.perm_flatMap_set Writer.rows hi
  have hperm : (World.drawn { w with
      rolledBack := w.rolledBack ++ rows
      writers := w.writers.set i .rolledBack }).Perm w.drawn := by
    show (w.committed.flatten ++ (w.rolledBack ++ rows) ++
      (w.writers.set i .rolledBack).flatMap Writer.rows).Perm
        (w.committed.flatten ++ w.rolledBack ++ w.writers.flatMap Writer.rows)
    rw [List.append_assoc, List.append_assoc, List.append_assoc]
    have hrows := ((hafter .rolledBack).append_left rows).trans hbefore.symm
    exact (hrows.append_left _).append_left _
  obtain ⟨hids, hbelow⟩ := hw.drawn hperm rfl
  exact ⟨hids, hbelow, hw.outbox, hw.outboxIds, hw.held, hw.apart, hw.sent, hw.log, hw.kept⟩

theorem kept_step {w w' : World} {a : Action} (hw : Kept codec w)
    (h : step codec w a = some w') : Kept codec w' := by
  cases step_cases h with
  | started =>
    refine { hw with held := ?_, apart := ?_, sent := ?_ }
    · intro relay hrelay
      rcases List.mem_append.mp hrelay with hrelay | hrelay
      · exact hw.held relay hrelay
      · rw [List.mem_singleton.mp hrelay]
        exact fun e he => absurd he List.not_mem_nil
    · refine hw.apart.append Outbox.Disjoint.symm ?_
      intro other _ e he
      exact absurd he List.not_mem_nil
    · intro relay hrelay
      rcases List.mem_append.mp hrelay with hrelay | hrelay
      · exact hw.sent relay hrelay
      · rw [List.mem_singleton.mp hrelay]
        trivial
  | begun now =>
    have hperm : (World.drawn { w with writers := w.writers ++ [.open now []] }).Perm w.drawn := by
      simp [World.drawn, Writer.rows]
    obtain ⟨hids, hbelow⟩ := hw.drawn hperm rfl
    exact ⟨hids, hbelow, hw.outbox, hw.outboxIds, hw.held, hw.apart, hw.sent, hw.log, hw.kept⟩
  | silent => exact hw
  | wrote i now rows event hi hid => exact kept_wrote hw hi hid
  | committed i now rows hi => exact kept_committed hw hi
  | rolledBack i now rows hi => exact kept_rolledBack hw hi
  | relayed i relay hi hrelayed => exact kept_relayed hw hi hrelayed

theorem kept_start {w : World} (h : Start w) : Kept codec w := by
  have hdrawn : w.drawn = [] := by simp [World.drawn, h.committed, h.rolledBack, h.writers]
  refine ⟨?_, ?_, ?_, ?_, ?_, ?_, ?_, ?_, ?_⟩
  · rw [hdrawn]
    exact List.nodup_nil
  · rw [hdrawn]
    exact fun e he => absurd he List.not_mem_nil
  · rw [h.outbox]
    exact fun e he => absurd he List.not_mem_nil
  · rw [h.outbox]
    exact List.nodup_nil
  · rw [h.relays]
    exact fun relay hrelay => absurd hrelay List.not_mem_nil
  · rw [h.relays]
    exact Processes.apart_nil _
  · rw [h.relays]
    exact fun relay hrelay => absurd hrelay List.not_mem_nil
  · rw [h.log]
    exact fun x hx => absurd hx List.not_mem_nil
  · rw [h.committed]
    exact fun e he => absurd he List.not_mem_nil

theorem reachable_kept {w : World} (hw : (system codec).Reachable w) : Kept codec w :=
  (system codec).reachable_invariant _ (fun _ => kept_start)
    (fun _ _ _ hs hstep => kept_step hs hstep) hw

/-- Every event of a committed transaction is in the outbox or acknowledged, and every
acknowledged message is that of an event of a committed transaction and of no other. -/
theorem no_loss_no_phantom (codec : Codec) (w : World) (hw : (system codec).Reachable w) :
    (∀ e ∈ w.committed.flatten, e ∈ w.outbox ∨
      ∃ message, messageFor codec e = some message ∧ (e, message) ∈ w.log) ∧
    ∀ x ∈ w.log, messageFor codec x.1 = some x.2 ∧ x.1 ∈ w.committed.flatten ∧
      ∀ e ∈ w.rolledBack, e.id ≠ x.1.id := by
  have hkept := reachable_kept hw
  refine ⟨?_, ?_⟩
  · intro e he
    refine (hkept.kept e he).imp id ?_
    rintro ⟨message, hmem⟩
    exact ⟨message, (hkept.log _ hmem).1, hmem⟩
  · intro x hx
    obtain ⟨hmessage, hmem⟩ := hkept.log x hx
    refine ⟨hmessage, hmem, ?_⟩
    have hids : ((w.committed.flatten ++ w.rolledBack).map OutboxEvent.id).Nodup :=
      hkept.ids.sublist ((List.sublist_append_left _ _).map _)
    rw [List.map_append, List.nodup_append] at hids
    intro e he hid
    exact hids.2.2 _ (List.mem_map_of_mem hmem) _ (List.mem_map_of_mem he) hid.symm

def exampleStart : World := ⟨[], 1, [], [], [], [], []⟩

/-- A captured document, with the data of its event. -/
def exampleRow : TableRow :=
  ⟨"evidence", 1, [("id", .str (uuidText 9)), ("source_id", .str (uuidText 3)),
    ("evidence_type", .str "DOCUMENT_EXCERPT"),
    ("content_sha256", .str "0000000000000000000000000000000000000000000000000000000000000000"),
    ("privacy_scope", .str "INTERNAL"), ("captured_at", .str "1970-01-01T00:00:00+00:00"),
    ("recorded_at", .str "1970-01-01T00:00:00+00:00")], [("id", 9), ("source_id", 3)]⟩

/-- One round of a relay up to its commit. -/
def exampleRound : List Action :=
  [.claim 0 200 none, .publish 0, .acknowledge 0 0, .delete 0]

/-- One transaction rolls back and one commits; the relay's first commit fails. -/
def exampleTrace : List Action :=
  [.begin 0, .begin 0, .write 0 .insert exampleRow 7, .write 1 .insert exampleRow 8, .rollBack 1,
   .commit 0, .startRelay] ++ exampleRound ++ [.finishFailed 0 false] ++ exampleRound ++ [.finish 0]

theorem exampleTrace_published : ((system exampleCodec).run exampleStart exampleTrace).any
    (fun w => decide (w.outbox.length = 0 ∧ w.log.map (·.1.eventId) = [7, 7] ∧
      w.rolledBack.map OutboxEvent.eventId = [8])) = true := by
  decide +kernel

theorem no_loss_no_phantom_example : ∃ w, (system exampleCodec).Reachable w ∧
    w.log.map (·.1.eventId) = [7, 7] ∧
    (∀ e ∈ w.committed.flatten, e ∈ w.outbox ∨
      ∃ message, messageFor exampleCodec e = some message ∧ (e, message) ∈ w.log) ∧
    ∀ x ∈ w.log, messageFor exampleCodec x.1 = some x.2 ∧ x.1 ∈ w.committed.flatten ∧
      ∀ e ∈ w.rolledBack, e.id ≠ x.1.id := by
  obtain ⟨w, hrun, hw⟩ := (Option.any_eq_true _ _).mp exampleTrace_published
  have hreachable : (system exampleCodec).Reachable w :=
    ⟨exampleStart, exampleTrace, ⟨rfl, rfl, rfl, rfl, rfl, rfl⟩, hrun⟩
  exact ⟨w, hreachable, (of_decide_eq_true hw).2.1,
    no_loss_no_phantom exampleCodec w hreachable⟩

end ContextLedger.EventRelay
