import ContextLedger.ConsumerOffsets
import ContextLedger.EventRelay

/-!
From a change to the counter of its day. Writers leave events in the outbox, relays
publish them, the broker keeps the messages in partitions and may keep one whose
acknowledgement is lost, and a consumer hands them one by one to the activity
projector and commits its offsets. The parts are the systems of the outbox, of the
offsets and of the counters; here they take their common steps together. Members of
the group that have lost their partitions may still work on what they had fetched.
-/
namespace ContextLedger.ActivityPipeline

open Values Events ActivityCounts

/-- `current` is the call of the processor with the consumer's message. -/
structure World where
  source : EventRelay.World
  group : ConsumerOffsets.World
  tables : ActivityCounts.World
  current : Option ℕ

/-- `acknowledged` and `stored` say whether the relay learns of a message that the broker
keeps, and whether the broker keeps a dead letter that it does not acknowledge. -/
inductive Action where
  | source (a : EventRelay.Action)
  | store (i k offset : ℕ) (acknowledged : Bool)
  | consume (a : ConsumerOffsets.Action)
  | take
  | attempt (m : Move) (stored : Bool)
  | elsewhere (a : ActivityCounts.Action)

/-- What the consumer learns from a move of its call; nothing while an attempt goes on. -/
def learns (call : Call) (stored : Bool) : Move → Option ConsumerOffsets.Action
  | .claim => none
  | .handle => none
  | .commit => some (.applied call.claim.isSome)
  | .loseAcknowledgement error => some (.failed error)
  | .fail error => some (.failed error)
  | .publish => some .deadLettered
  | .refuse => some (.deadLetterFailed stored)
  | .crash => some .crash

/-- The record that a message becomes. -/
def recordOf (offset : ℕ) (message : OutgoingMessage) : ConsumerOffsets.Record :=
  ⟨offset, some message.key, some message.value, message.headers.map fun h => (h.1, some h.2)⟩

/-- The record of that offset is in the log of the partition. -/
def isLogged (log : ConsumerOffsets.Partition → List ConsumerOffsets.Record)
    (m : IncomingMessage) : Bool :=
  (log (ConsumerOffsets.partitionOf m)).any fun r =>
    ConsumerOffsets.toIncoming (ConsumerOffsets.partitionOf m) r = some m

section

variable (codec : Codec) (maxAttempts : ℕ) (partitionFor : String → Bytes → ℕ)

/-- The partition that the producer chooses for a message, by its key. -/
def placeOf (message : OutgoingMessage) : ConsumerOffsets.Partition :=
  (message.topic, partitionFor message.topic message.key)

/-- One of the messages of a relay reaches the broker. -/
def store (w : World) (i k offset : ℕ) (acknowledged : Bool) : Option World :=
  match w.source.relays[i]? with
  | some (.publishing _ left) => do
    let event ← left[k]?
    let message ← messageFor codec event
    let group ← ConsumerOffsets.step (projector codec maxAttempts) w.group
      (.append (placeOf partitionFor message) (recordOf offset message))
    if acknowledged then
      let source ← EventRelay.step codec w.source (.acknowledge i k)
      return { w with source, group }
    else return { w with group }
  | _ => none

/-- The steps of the consumer that are not about a message. -/
def consume (w : World) (a : ConsumerOffsets.Action) : Option World :=
  let next := (ConsumerOffsets.step (projector codec maxAttempts) w.group a).map fun group =>
    { w with group }
  match a with
  | .start => next
  | .getmany _ => next
  | .finish => next
  | .commit => next
  | .commitFailed _ => next
  | .crash => next.map fun w' => { w' with current := none }
  | _ => none

/-- The next message of the batch is handed to the processor, if it is a message. -/
def take (w : World) : Option World := do
  let group ← ConsumerOffsets.step (projector codec maxAttempts) w.group .take
  match group.consumer with
  | .working _ (some (message, _)) _ =>
    let tables ← ActivityCounts.step (projector codec maxAttempts) w.tables (.deliver message)
    return { w with group, tables, current := some w.tables.calls.length }
  | _ => return { w with group, current := none }

/-- A move of the call with the consumer's message. -/
def attempt (w : World) (m : Move) (stored : Bool) : Option World := do
  let i ← w.current
  let call ← w.tables.calls[i]?
  let tables ← ActivityCounts.step (projector codec maxAttempts) w.tables (.move i m)
  match learns call stored m with
  | none => return { w with tables }
  | some a =>
    let group ← ConsumerOffsets.step (projector codec maxAttempts) w.group a
    return { w with group, tables }

/-- Calls of other members of the group, and rows of other consumers. -/
def elsewhere (w : World) (a : ActivityCounts.Action) : Option World :=
  let next := (ActivityCounts.step (projector codec maxAttempts) w.tables a).map fun tables =>
    { w with tables }
  match a with
  | .deliver message => if isLogged w.group.log message then next else none
  | .move i _ => if w.current = some i then none else next
  | .foreign _ => next

def step (w : World) : Action → Option World
  | .source a =>
    match a with
    | .acknowledge _ _ => none
    | a => (EventRelay.step codec w.source a).map fun source => { w with source }
  | .store i k offset acknowledged =>
    store codec maxAttempts partitionFor w i k offset acknowledged
  | .consume a => consume codec maxAttempts w a
  | .take => take codec maxAttempts w
  | .attempt m stored => attempt codec maxAttempts w m stored
  | .elsewhere a => elsewhere codec maxAttempts w a

/-- Nothing has happened yet. -/
structure Start (w : World) : Prop where
  source : EventRelay.Start w.source
  group : ConsumerOffsets.Start w.group
  log : ∀ p, w.group.log p = []
  outcomes : w.group.outcomes = []
  deadLetters : w.group.deadLetters = []
  tables : ActivityCounts.Start w.tables

def pipeline : Transition.System World Action := ⟨Start, step codec maxAttempts partitionFor⟩

end

/-- The steps of the consumer and of the calls. -/
def Action.isConsuming : Action → Bool
  | .source _ => false
  | .store _ _ _ _ => false
  | _ => true

/-- The phase of a call as the consumer sees it. -/
def seen : Phase Txn → Phase Unit
  | .attempting event attempt _ => .attempting event attempt ()
  | .deadLettering error attempts => .deadLettering error attempts
  | .returned outcome => .returned outcome
  | .raised => .raised

@[simp] theorem seen_failed (processor : EventProcessor) (event : EventEnvelope) (n : ℕ)
    (error : AttemptError) : seen (Phase.failed processor .begun event n error) =
      Phase.failed processor () event n error := by
  cases error with
  | permanent message => rfl
  | transient text =>
    simp only [Phase.failed]
    split <;> rfl

@[simp] theorem seen_begin (processor : EventProcessor) (m : IncomingMessage) :
    seen (Phase.begin processor .begun m) = Phase.begin processor () m := by
  unfold Phase.begin
  split
  · rfl
  · split
    · rfl
    · split <;> rfl

section Remembering

variable (codec : Codec)

/-- What an outcome of the call with a message says about the counted events. -/
def Told (counted : List Uuid) (m : IncomingMessage) : Outcome → Prop
  | .handled => ∃ event, decode codec m.value = .ok event ∧ event.id ∈ counted
  | .duplicate => ∃ event, decode codec m.value = .ok event ∧ event.id ∈ counted
  | .ignored => ∃ event, decode codec m.value = .ok event ∧
      event.type ∉ activityProjector.eventTypes
  | .deadLettered => True

structure CallTold (counted : List Uuid) (call : Call) : Prop where
  attempting : ∀ event n txn, call.phase = .attempting event n txn →
    decode codec call.message.value = .ok event ∧ (txn = .skipped → event.id ∈ counted) ∧
      ∀ row, txn.claim = some row → row = rowOf event
  returned : ∀ outcome, call.phase = .returned outcome → Told codec counted call.message outcome

/-- The table remembers the counted events, and the calls say the truth about them. -/
structure Remembered (t : ActivityCounts.World) : Prop where
  counted : ∀ r ∈ t.processed, r.consumer = activityProjector.name → r.eventId ∈ t.counted
  calls : ∀ call ∈ t.calls, CallTold codec t.counted call

end Remembering

variable {codec : Codec} {maxAttempts : ℕ} {partitionFor : String → Bytes → ℕ}

theorem Told.mono {counted counted' : List Uuid} {m : IncomingMessage} {outcome : Outcome}
    (h : Told codec counted m outcome) (hsub : counted ⊆ counted') :
    Told codec counted' m outcome := by
  cases outcome with
  | handled => exact h.imp fun event hevent => ⟨hevent.1, hsub hevent.2⟩
  | duplicate => exact h.imp fun event hevent => ⟨hevent.1, hsub hevent.2⟩
  | ignored => exact h
  | deadLettered => trivial

theorem CallTold.mono {counted counted' : List Uuid} {call : Call}
    (h : CallTold codec counted call) (hsub : counted ⊆ counted') :
    CallTold codec counted' call := by
  refine ⟨?_, fun outcome houtcome => (h.returned outcome houtcome).mono hsub⟩
  intro event n txn hphase
  obtain ⟨hdecode, hskipped, hclaim⟩ := h.attempting event n txn hphase
  exact ⟨hdecode, fun hs => hsub (hskipped hs), hclaim⟩

theorem callTold_attempting {counted : List Uuid} {m : IncomingMessage} {event : EventEnvelope}
    {n : ℕ} {txn : Txn} (hdecode : decode codec m.value = .ok event)
    (hskipped : txn = .skipped → event.id ∈ counted)
    (hrow : ∀ row, txn.claim = some row → row = rowOf event) :
    CallTold codec counted ⟨m, .attempting event n txn⟩ := by
  refine ⟨fun event' n' txn' h => ?_, fun outcome h => absurd h (by simp)⟩
  obtain ⟨rfl, rfl, rfl⟩ := Phase.attempting.inj h
  exact ⟨hdecode, hskipped, hrow⟩

/-- An attempt that begins has claimed nothing. -/
theorem callTold_begun {counted : List Uuid} {m : IncomingMessage} {event : EventEnvelope} {n : ℕ}
    (hdecode : decode codec m.value = .ok event) :
    CallTold codec counted ⟨m, .attempting event n .begun⟩ :=
  callTold_attempting hdecode (fun hs => absurd hs (by simp))
    fun row hrow => absurd hrow (by simp [Txn.claim])

theorem callTold_returned {counted : List Uuid} {m : IncomingMessage} {outcome : Outcome}
    (h : Told codec counted m outcome) : CallTold codec counted ⟨m, .returned outcome⟩ := by
  refine ⟨fun event n txn hphase => absurd hphase (by simp), fun outcome' hphase => ?_⟩
  obtain rfl := Phase.returned.inj hphase
  exact h

theorem callTold_deadLettering (counted : List Uuid) (m : IncomingMessage) (error : String)
    (attempts : ℕ) : CallTold codec counted ⟨m, .deadLettering error attempts⟩ :=
  ⟨fun _ _ _ h => absurd h (by simp), fun _ h => absurd h (by simp)⟩

theorem callTold_raised (counted : List Uuid) (m : IncomingMessage) :
    CallTold codec counted ⟨m, .raised⟩ :=
  ⟨fun _ _ _ h => absurd h (by simp), fun _ h => absurd h (by simp)⟩

theorem callTold_begin (counted : List Uuid) (m : IncomingMessage) :
    CallTold codec counted ⟨m, Phase.begin (projector codec maxAttempts) .begun m⟩ := by
  generalize hphase : Phase.begin (projector codec maxAttempts) Txn.begun m = phase
  unfold Phase.begin at hphase
  split at hphase
  · subst hphase
    exact callTold_deadLettering counted m _ _
  · rename_i event hdecode
    split at hphase
    · rename_i htype
      subst hphase
      exact callTold_returned ⟨event, hdecode, htype⟩
    · split at hphase
      · subst hphase
        exact callTold_deadLettering counted m _ _
      · subst hphase
        exact callTold_begun hdecode

/-- A call that fails begins its next attempt anew, or none. -/
theorem callTold_failed {counted : List Uuid} {call : Call} {event : EventEnvelope} {n : ℕ}
    (hdecode : decode codec call.message.value = .ok event) (error : AttemptError) :
    CallTold codec counted
      { call with phase := Phase.failed (projector codec maxAttempts) .begun event n error } := by
  cases error with
  | permanent message => exact callTold_deadLettering counted call.message _ _
  | transient text =>
    rw [Phase.failed]
    split
    · exact callTold_begun hdecode
    · exact callTold_deadLettering counted call.message _ _

/-- One call of the tables changes its phase, and events are only added to the counted ones. -/
theorem Remembered.setPhase {t t' : ActivityCounts.World} (ht : Remembered codec t) {i : ℕ}
    {call : Call} {phase : Phase Txn} (hsub : t.counted ⊆ t'.counted)
    (hcounted : ∀ r ∈ t'.processed, r.consumer = activityProjector.name →
      r.eventId ∈ t'.counted)
    (hcalls : t'.calls = t.calls.set i { call with phase })
    (hcall : CallTold codec t'.counted { call with phase }) : Remembered codec t' := by
  refine ⟨hcounted, fun c hc => ?_⟩
  rw [hcalls] at hc
  rcases Processes.mem_set_cases hc with rfl | ⟨j, -, hj⟩
  · exact hcall
  · exact (ht.calls c (List.mem_of_getElem? hj)).mono hsub

theorem mem_counted_of_committed {t : ActivityCounts.World} (ht : Remembered codec t)
    (event : EventEnvelope) (write : ActivityDay) :
    ∀ r ∈ (t.committed (rowOf event) write).processed, r.consumer = activityProjector.name →
      r.eventId ∈ (t.committed (rowOf event) write).counted := by
  intro r hr hconsumer
  rcases List.mem_append.mp hr with hr | hr
  · exact List.mem_append_left _ (ht.counted r hr hconsumer)
  · rw [List.mem_singleton.mp hr]
    exact List.mem_append_right _ (List.mem_singleton_self _)

theorem remembered_move {t t' : ActivityCounts.World} (ht : Remembered codec t) {i : ℕ}
    {call : Call} (hi : t.calls[i]? = some call) {m : Move}
    (h : stepCall (projector codec maxAttempts) t i call m = some t') : Remembered codec t' := by
  have htold := ht.calls call (List.mem_of_getElem? hi)
  have hquiet : ∀ {phase : Phase Txn}, CallTold codec t.counted { call with phase } →
      Remembered codec (t.setPhase i call phase) :=
    fun hcall => ht.setPhase (List.Subset.refl _) ht.counted rfl hcall
  cases m with
  | claim =>
    simp only [stepCall] at h
    split at h
    · rename_i event n hphase
      have hdecode := (htold.attempting event n _ hphase).1
      split at h
      · exact absurd h (by simp)
      · split at h
        · rename_i hknown
          obtain rfl := Option.some.inj h
          obtain ⟨r, hr, hkey⟩ := List.any_eq_true.mp hknown
          obtain ⟨hname, hid⟩ := Prod.mk.inj (of_decide_eq_true hkey)
          have hid : r.eventId = event.id := hid
          have hmem : event.id ∈ t.counted := hid ▸ ht.counted r hr hname
          exact hquiet (callTold_attempting hdecode (fun _ => hmem)
            fun row hrow => absurd hrow (by simp [Txn.claim]))
        · obtain rfl := Option.some.inj h
          exact hquiet (callTold_attempting hdecode (fun hs => absurd hs (by simp))
            fun row hrow => (Option.some.inj hrow).symm)
    · exact absurd h (by simp)
  | handle =>
    simp only [stepCall] at h
    split at h
    · rename_i event n row hphase
      obtain ⟨hdecode, -, hrow⟩ := htold.attempting event n _ hphase
      split at h
      · exact absurd h (by simp)
      · split at h
        · exact absurd h (by simp)
        · obtain rfl := Option.some.inj h
          refine hquiet (callTold_attempting hdecode (fun hs => absurd hs (by simp))
            fun row' hrow' => ?_)
          obtain rfl := Option.some.inj hrow'
          exact hrow row rfl
    · exact absurd h (by simp)
  | commit =>
    simp only [stepCall] at h
    split at h
    · rename_i event n hphase
      obtain ⟨hdecode, hskipped, -⟩ := htold.attempting event n _ hphase
      obtain rfl := Option.some.inj h
      exact hquiet (callTold_returned ⟨event, hdecode, hskipped rfl⟩)
    · rename_i event n row write hphase
      obtain ⟨hdecode, -, hrow⟩ := htold.attempting event n _ hphase
      obtain rfl := hrow row rfl
      obtain rfl := Option.some.inj h
      refine ht.setPhase (List.subset_append_left _ _) (mem_counted_of_committed ht event write) rfl
        ?_
      exact callTold_returned
        ⟨event, hdecode, List.mem_append_right _ (List.mem_singleton_self _)⟩
    · exact absurd h (by simp)
  | loseAcknowledgement error =>
    simp only [stepCall] at h
    split at h
    · rename_i event n row write hphase
      obtain ⟨hdecode, -, hrow⟩ := htold.attempting event n _ hphase
      obtain rfl := hrow row rfl
      obtain rfl := Option.some.inj h
      exact ht.setPhase (List.subset_append_left _ _) (mem_counted_of_committed ht event write) rfl
        (callTold_failed hdecode error)
    · exact absurd h (by simp)
  | fail error =>
    simp only [stepCall] at h
    split at h
    · rename_i event n txn hphase
      obtain rfl := Option.some.inj h
      exact hquiet (callTold_failed (htold.attempting event n txn hphase).1 error)
    · exact absurd h (by simp)
  | publish =>
    simp only [stepCall] at h
    split at h
    · obtain rfl := Option.some.inj h
      exact hquiet (callTold_returned trivial)
    · exact absurd h (by simp)
  | refuse =>
    simp only [stepCall] at h
    split at h
    · obtain rfl := Option.some.inj h
      exact hquiet (callTold_raised _ call.message)
    · exact absurd h (by simp)
  | crash =>
    simp only [stepCall] at h
    split at h
    · exact absurd h (by simp)
    · obtain rfl := Option.some.inj h
      exact hquiet (callTold_raised _ call.message)

theorem remembered_step {t t' : ActivityCounts.World} (ht : Remembered codec t)
    {a : ActivityCounts.Action}
    (h : ActivityCounts.step (projector codec maxAttempts) t a = some t') :
    Remembered codec t' := by
  cases a with
  | deliver message =>
    obtain rfl := Option.some.inj h
    refine ⟨ht.counted, fun call hcall => ?_⟩
    rcases List.mem_append.mp hcall with hcall | hcall
    · exact ht.calls call hcall
    · rw [List.mem_singleton.mp hcall]
      exact callTold_begin _ message
  | move i m =>
    simp only [ActivityCounts.step] at h
    split at h
    · exact absurd h (by simp)
    · rename_i call hi
      exact remembered_move ht hi h
  | foreign row =>
    obtain ⟨⟨hconsumer, -⟩, h⟩ := Option.ite_none_right_eq_some.mp h
    obtain rfl := Option.some.inj h
    refine ⟨fun r hr hname => ?_, ht.calls⟩
    rcases List.mem_append.mp hr with hr | hr
    · exact ht.counted r hr hname
    · rw [List.mem_singleton.mp hr] at hname
      exact absurd hname hconsumer

/-- Only an acknowledgement reaches the relays' log, and what has committed stays so. -/
theorem source_grows {s s' : EventRelay.World} {a : EventRelay.Action}
    (h : EventRelay.step codec s a = some s') :
    s.committed.flatten ⊆ s'.committed.flatten ∧
      ((∀ i k, a ≠ .acknowledge i k) → s'.log = s.log) := by
  cases EventRelay.step_cases h with
  | committed i now rows hi =>
    refine ⟨fun e he => ?_, fun _ => rfl⟩
    show e ∈ (s.committed ++ [rows]).flatten
    rw [List.flatten_append]
    exact List.mem_append_left _ he
  | relayed i relay hi hrelayed =>
    cases hrelayed with
    | acknowledged k events left e message hpublishing hk hmessage =>
      exact ⟨List.Subset.refl _, fun hnot => absurd rfl (hnot i k)⟩
    | _ => exact ⟨List.Subset.refl _, fun _ => rfl⟩
  | _ => exact ⟨List.Subset.refl _, fun _ => rfl⟩

/-- The call of the processor that the consumer waits for. -/
def callOf : ConsumerOffsets.Consumer → Option (IncomingMessage × Phase Unit)
  | .working _ call _ => call
  | _ => none

/-- A step that is not about a message leaves no call behind, and the outcome it may file
is the one of the call it found. -/
theorem consumed {g g' : ConsumerOffsets.World} {a : ConsumerOffsets.Action}
    {processor : EventProcessor}
    (h : ConsumerOffsets.step processor g a = some g')
    (ha : a = .start ∨ (∃ counts, a = .getmany counts) ∨ a = .finish ∨ a = .commit ∨
      (∃ stored, a = .commitFailed stored) ∨ a = .crash) :
    g'.log = g.log ∧ callOf g'.consumer = none ∧ (g'.outcomes = g.outcomes ∨
      ∃ m outcome, callOf g.consumer = some (m, .returned outcome) ∧
        g'.outcomes = g.outcomes ++ [(m, outcome)]) := by
  rcases ha with rfl | ⟨counts, rfl⟩ | rfl | rfl | ⟨stored, rfl⟩ | rfl
  · simp only [ConsumerOffsets.step] at h
    split at h
    · obtain rfl := Option.some.inj h
      exact ⟨rfl, rfl, .inl rfl⟩
    · exact absurd h (by simp)
  · simp only [ConsumerOffsets.step] at h
    split at h
    · obtain ⟨-, h⟩ := Option.ite_none_right_eq_some.mp h
      obtain rfl := Option.some.inj h
      exact ⟨rfl, rfl, .inl rfl⟩
    · exact absurd h (by simp)
  · simp only [ConsumerOffsets.step] at h
    split at h
    · rename_i processed m outcome todo hconsumer
      obtain rfl := Option.some.inj h
      exact ⟨rfl, rfl, .inr ⟨m, outcome, by rw [hconsumer]; rfl, rfl⟩⟩
    · exact absurd h (by simp)
  · simp only [ConsumerOffsets.step] at h
    split at h
    · obtain rfl := Option.some.inj h
      exact ⟨rfl, rfl, .inl rfl⟩
    · obtain rfl := Option.some.inj h
      exact ⟨rfl, rfl, .inl rfl⟩
    · exact absurd h (by simp)
  · simp only [ConsumerOffsets.step] at h
    split at h
    · split at h
      · obtain rfl := Option.some.inj h
        exact ⟨rfl, rfl, .inl rfl⟩
      · obtain rfl := Option.some.inj h
        exact ⟨rfl, rfl, .inl rfl⟩
    · exact absurd h (by simp)
  · obtain rfl := Option.some.inj h
    exact ⟨rfl, rfl, .inl rfl⟩

/-- The next record is handed to the processor, or the run ends. -/
theorem taken {g g' : ConsumerOffsets.World} {processor : EventProcessor}
    (h : ConsumerOffsets.step processor g .take = some g') :
    g'.log = g.log ∧ g'.outcomes = g.outcomes ∧ (callOf g'.consumer = none ∨
      ∃ m, callOf g'.consumer = some (m, Phase.begin processor () m)) := by
  simp only [ConsumerOffsets.step] at h
  split at h
  · split at h
    · obtain rfl := Option.some.inj h
      exact ⟨rfl, rfl, .inl rfl⟩
    · rename_i m hm
      obtain rfl := Option.some.inj h
      exact ⟨rfl, rfl, .inr ⟨m, rfl⟩⟩
  · exact absurd h (by simp)

/-- How the phase of the consumer's call changes by what it learns. -/
inductive Reports (processor : EventProcessor) :
    ConsumerOffsets.Action → Phase Unit → Phase Unit → Prop
  | applied (firstTime : Bool) (event : EventEnvelope) (n : ℕ) :
      Reports processor (.applied firstTime) (.attempting event n ())
        (.returned (if firstTime then .handled else .duplicate))
  | failed (error : AttemptError) (event : EventEnvelope) (n : ℕ) :
      Reports processor (.failed error) (.attempting event n ())
        (Phase.failed processor () event n error)
  | deadLettered (error : String) (attempts : ℕ) :
      Reports processor .deadLettered (.deadLettering error attempts) (.returned .deadLettered)

theorem reported {g g' : ConsumerOffsets.World} {a : ConsumerOffsets.Action} {call : Call}
    {stored : Bool} {m : Move} {processor : EventProcessor} (ha : learns call stored m = some a)
    (h : ConsumerOffsets.step processor g a = some g') :
    g'.log = g.log ∧ g'.outcomes = g.outcomes ∧ (callOf g'.consumer = none ∨
      ∃ message phase phase', callOf g.consumer = some (message, phase) ∧
        callOf g'.consumer = some (message, phase') ∧ Reports processor a phase phase') := by
  have hfailed : ∀ {error : AttemptError},
      ConsumerOffsets.step processor g (.failed error) = some g' → g'.log = g.log ∧
        g'.outcomes = g.outcomes ∧ (callOf g'.consumer = none ∨
          ∃ message phase phase', callOf g.consumer = some (message, phase) ∧
            callOf g'.consumer = some (message, phase') ∧
            Reports processor (.failed error) phase phase') := by
    intro error h
    simp only [ConsumerOffsets.step] at h
    split at h
    · rename_i processed message event n _ todo hconsumer
      obtain rfl := Option.some.inj h
      refine ⟨rfl, rfl, .inr ⟨message, _, _, ?_, rfl, .failed error event n⟩⟩
      rw [hconsumer]
      rfl
    · exact absurd h (by simp)
  cases m with
  | claim => exact absurd ha (by simp [learns])
  | handle => exact absurd ha (by simp [learns])
  | commit =>
    obtain rfl := Option.some.inj ha
    simp only [ConsumerOffsets.step] at h
    split at h
    · rename_i processed message event n _ todo hconsumer
      obtain rfl := Option.some.inj h
      refine ⟨rfl, rfl, .inr ⟨message, _, _, ?_, rfl, .applied _ event n⟩⟩
      rw [hconsumer]
      rfl
    · exact absurd h (by simp)
  | loseAcknowledgement error =>
    obtain rfl := Option.some.inj ha
    exact hfailed h
  | fail error =>
    obtain rfl := Option.some.inj ha
    exact hfailed h
  | publish =>
    obtain rfl := Option.some.inj ha
    simp only [ConsumerOffsets.step] at h
    split at h
    · rename_i processed message error attempts todo hconsumer
      obtain rfl := Option.some.inj h
      refine ⟨rfl, rfl, .inr ⟨message, _, _, ?_, rfl, .deadLettered error attempts⟩⟩
      rw [hconsumer]
      rfl
    · exact absurd h (by simp)
  | refuse =>
    obtain rfl := Option.some.inj ha
    simp only [ConsumerOffsets.step] at h
    split at h
    · obtain rfl := Option.some.inj h
      exact ⟨rfl, rfl, .inl rfl⟩
    · exact absurd h (by simp)
  | crash =>
    obtain rfl := Option.some.inj ha
    obtain rfl := Option.some.inj h
    exact ⟨rfl, rfl, .inl rfl⟩

/-- The call and the consumer change together: what the consumer learns takes it to the
phase of the call, and where it learns nothing that phase has not changed for it. -/
theorem moved_together {t t' : ActivityCounts.World} {i : ℕ} {call : Call} {m : Move}
    (stored : Bool) (h : stepCall (projector codec maxAttempts) t i call m = some t') :
    ∃ phase', t'.calls = t.calls.set i { call with phase := phase' } ∧
      (learns call stored m = none → seen phase' = seen call.phase) ∧
      ∀ a phase, learns call stored m = some a →
        Reports (projector codec maxAttempts) a (seen call.phase) phase → phase = seen phase' := by
  have hsilent : ∀ {phase' : Phase Txn}, learns call stored m = none →
      t'.calls = t.calls.set i { call with phase := phase' } → seen phase' = seen call.phase →
      ∃ phase', t'.calls = t.calls.set i { call with phase := phase' } ∧
        (learns call stored m = none → seen phase' = seen call.phase) ∧
        ∀ a phase, learns call stored m = some a →
          Reports (projector codec maxAttempts) a (seen call.phase) phase → phase = seen phase' :=
    fun hlearns hcalls hseen => ⟨_, hcalls, fun _ => hseen,
      fun a _ ha => absurd (hlearns.symm.trans ha) (by simp)⟩
  have hspoken : ∀ {phase' : Phase Txn} {a : ConsumerOffsets.Action},
      learns call stored m = some a → t'.calls = t.calls.set i { call with phase := phase' } →
      (∀ phase, Reports (projector codec maxAttempts) a (seen call.phase) phase →
        phase = seen phase') →
      ∃ phase', t'.calls = t.calls.set i { call with phase := phase' } ∧
        (learns call stored m = none → seen phase' = seen call.phase) ∧
        ∀ a phase, learns call stored m = some a →
          Reports (projector codec maxAttempts) a (seen call.phase) phase →
            phase = seen phase' := by
    intro phase' a hlearns hcalls hreports
    refine ⟨_, hcalls, fun hnone => absurd (hlearns.symm.trans hnone) (by simp), ?_⟩
    intro a' phase ha'
    obtain rfl := Option.some.inj (hlearns.symm.trans ha')
    exact hreports phase
  cases m with
  | claim =>
    simp only [stepCall] at h
    split at h
    · rename_i event n hphase
      split at h
      · exact absurd h (by simp)
      · split at h
        · obtain rfl := Option.some.inj h
          exact hsilent rfl rfl (by rw [hphase]; rfl)
        · obtain rfl := Option.some.inj h
          exact hsilent rfl rfl (by rw [hphase]; rfl)
    · exact absurd h (by simp)
  | handle =>
    simp only [stepCall] at h
    split at h
    · rename_i event n row hphase
      split at h
      · exact absurd h (by simp)
      · split at h
        · exact absurd h (by simp)
        · obtain rfl := Option.some.inj h
          exact hsilent rfl rfl (by rw [hphase]; rfl)
    · exact absurd h (by simp)
  | commit =>
    simp only [stepCall] at h
    split at h
    · rename_i event n hphase
      obtain rfl := Option.some.inj h
      refine hspoken rfl rfl fun phase hreports => ?_
      have hclaim : call.claim = none := by rw [Call.claim, Call.txn, hphase]; rfl
      rw [hclaim, hphase] at hreports
      cases hreports
      rfl
    · rename_i event n row write hphase
      obtain rfl := Option.some.inj h
      refine hspoken rfl rfl fun phase hreports => ?_
      have hclaim : call.claim = some row := by rw [Call.claim, Call.txn, hphase]; rfl
      rw [hclaim, hphase] at hreports
      cases hreports
      rfl
    · exact absurd h (by simp)
  | loseAcknowledgement error =>
    simp only [stepCall] at h
    split at h
    · rename_i event n row write hphase
      obtain rfl := Option.some.inj h
      refine hspoken rfl rfl fun phase hreports => ?_
      rw [hphase] at hreports
      cases hreports
      exact (seen_failed _ event n error).symm
    · exact absurd h (by simp)
  | fail error =>
    simp only [stepCall] at h
    split at h
    · rename_i event n txn hphase
      obtain rfl := Option.some.inj h
      refine hspoken rfl rfl fun phase hreports => ?_
      rw [hphase] at hreports
      cases hreports
      exact (seen_failed _ event n error).symm
    · exact absurd h (by simp)
  | publish =>
    simp only [stepCall] at h
    split at h
    · rename_i error attempts hphase
      obtain rfl := Option.some.inj h
      refine hspoken rfl rfl fun phase hreports => ?_
      rw [hphase] at hreports
      cases hreports
      rfl
    · exact absurd h (by simp)
  | refuse =>
    simp only [stepCall] at h
    split at h
    · obtain rfl := Option.some.inj h
      refine hspoken rfl rfl fun phase hreports => ?_
      cases hreports
    · exact absurd h (by simp)
  | crash =>
    simp only [stepCall] at h
    split at h
    · exact absurd h (by simp)
    · obtain rfl := Option.some.inj h
      refine hspoken rfl rfl fun phase hreports => ?_
      cases hreports

end ContextLedger.ActivityPipeline
