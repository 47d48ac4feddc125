import Mathlib.Data.List.Dedup
import ContextLedger.Events
import ContextLedger.Processes
import ContextLedger.Transition

/-!
The activity projector counts events per organization and day. Each delivery is a
call of the processor that makes its attempts in transactions of their own: it
claims the event, adds one to a counter and commits. A claim waits for another
open transaction that claimed the same event, and the counter waits for another
that wrote the same row, so what a transaction is about to write still fits the
tables when it commits. A commit may succeed without the caller learning of it.
-/
namespace ContextLedger.ActivityCounts

open Values Events

inductive Counter where
  | factsRecorded
  | evidenceCaptured
  | decisionsRecorded
  deriving DecidableEq

/-- `COUNTER_BY_TYPE` -/
def counterTypes : List (String × Counter) :=
  [("fact.version_recorded", .factsRecorded), ("evidence.captured", .evidenceCaptured),
   ("decision.recorded", .decisionsRecorded)]

def counterByType (eventType : String) : Option Counter := counterTypes.lookup eventType

def activityProjector : EventHandler where
  name := "activity-projector"
  topics := [factsTopic, evidenceTopic, decisionsTopic]
  eventTypes := counterTypes.map Prod.fst

/-- `time.astimezone(UTC).date()` as a day number; outside the years 1 to 9999 there is none. -/
def utcDate (t : Instant) : Option ℤ :=
  let d := t / day
  if -719162 ≤ d ∧ d ≤ 2932896 then some d else none

structure ProcessedEvent where
  consumer : String
  eventId : Uuid
  organizationId : Uuid
  eventType : String
  deriving DecidableEq

def ProcessedEvent.key (r : ProcessedEvent) : String × Uuid := (r.consumer, r.eventId)

structure ActivityDay where
  organizationId : Uuid
  day : ℤ
  factsRecorded : ℕ
  evidenceCaptured : ℕ
  decisionsRecorded : ℕ
  deriving DecidableEq

def ActivityDay.key (r : ActivityDay) : Uuid × ℤ := (r.organizationId, r.day)

def ActivityDay.get (r : ActivityDay) : Counter → ℕ
  | .factsRecorded => r.factsRecorded
  | .evidenceCaptured => r.evidenceCaptured
  | .decisionsRecorded => r.decisionsRecorded

def ActivityDay.bump (r : ActivityDay) : Counter → ActivityDay
  | .factsRecorded => { r with factsRecorded := r.factsRecorded + 1 }
  | .evidenceCaptured => { r with evidenceCaptured := r.evidenceCaptured + 1 }
  | .decisionsRecorded => { r with decisionsRecorded := r.decisionsRecorded + 1 }

/-- The stored row, or one with the defaults of its columns. -/
def rowFor (activity : List ActivityDay) (key : Uuid × ℤ) : ActivityDay :=
  (activity.find? fun r => r.key = key).getD ⟨key.1, key.2, 0, 0, 0⟩

def stored (activity : List ActivityDay) (org : Uuid) (day : ℤ) (counter : Counter) : ℕ :=
  (rowFor activity (org, day)).get counter

/-- Put the row in the place of the one with its key. -/
def upsert (activity : List ActivityDay) (row : ActivityDay) : List ActivityDay :=
  row :: activity.filter fun r => r.key ≠ row.key

/-- The transaction of one attempt. -/
inductive Txn where
  | begun
  | skipped
  | claimed (row : ProcessedEvent)
  | counted (row : ProcessedEvent) (write : ActivityDay)

/-- The uncommitted row of `processed_events`. -/
def Txn.claim : Txn → Option ProcessedEvent
  | .claimed row => some row
  | .counted row _ => some row
  | _ => none

/-- The uncommitted row of `organization_activity_daily`. -/
def Txn.write : Txn → Option ActivityDay
  | .counted _ write => some write
  | _ => none

structure Call where
  message : IncomingMessage
  phase : Phase Txn

def Call.txn (call : Call) : Option Txn :=
  match call.phase with
  | .attempting _ _ txn => some txn
  | _ => none

def Call.claim (call : Call) : Option ProcessedEvent := call.txn.bind Txn.claim

def Call.write (call : Call) : Option ActivityDay := call.txn.bind Txn.write

/-- `counted` keeps the events whose increment has committed. -/
structure World where
  processed : List ProcessedEvent
  activity : List ActivityDay
  calls : List Call
  counted : List Uuid

inductive Move where
  | claim
  | handle
  | commit
  | loseAcknowledgement (error : AttemptError)
  | fail (error : AttemptError)
  | publish
  | refuse
  | crash

/-- `foreign` is a row of another consumer. -/
inductive Action where
  | deliver (message : IncomingMessage)
  | move (i : ℕ) (move : Move)
  | foreign (row : ProcessedEvent)

def rowOf (event : EventEnvelope) : ProcessedEvent :=
  ⟨activityProjector.name, event.id, event.organizationId, event.type⟩

/-- The largest value of an integer column. -/
def maxInteger : ℕ := 2147483647

/-- `ActivityProjector.handle`: the row after the increment. -/
def incremented (activity : List ActivityDay) (event : EventEnvelope) : Option ActivityDay := do
  let counter ← counterByType event.type
  let date ← utcDate event.time
  let row := (rowFor activity (event.organizationId, date)).bump counter
  if row.get counter ≤ maxInteger then some row else none

/-- The rows that the transaction has written become visible. -/
def World.committed (w : World) (row : ProcessedEvent) (write : ActivityDay) : World :=
  { w with
    processed := w.processed ++ [row]
    activity := upsert w.activity write
    counted := w.counted ++ [row.eventId] }

def World.setPhase (w : World) (i : ℕ) (call : Call) (phase : Phase Txn) : World :=
  { w with calls := w.calls.set i { call with phase } }

def World.others (w : World) (i : ℕ) : List Call := w.calls.eraseIdx i

def stepCall (processor : EventProcessor) (w : World) (i : ℕ) (call : Call) :
    Move → Option World
  | .claim =>
    match call.phase with
    | .attempting event attempt .begun =>
      let row := rowOf event
      if (w.others i).any fun other => other.claim.any fun r => r.key = row.key then none
      else if w.processed.any fun r => r.key = row.key then
        some (w.setPhase i call (.attempting event attempt .skipped))
      else some (w.setPhase i call (.attempting event attempt (.claimed row)))
    | _ => none
  | .handle =>
    match call.phase with
    | .attempting event attempt (.claimed row) =>
      match incremented w.activity event with
      | none => none
      | some write =>
        if (w.others i).any fun other => other.write.any fun r => r.key = write.key then none
        else some (w.setPhase i call (.attempting event attempt (.counted row write)))
    | _ => none
  | .commit =>
    match call.phase with
    | .attempting _ _ .skipped => some (w.setPhase i call (.returned .duplicate))
    | .attempting _ _ (.counted row write) =>
      some ((w.committed row write).setPhase i call (.returned .handled))
    | _ => none
  | .loseAcknowledgement error =>
    match call.phase with
    | .attempting event attempt (.counted row write) =>
      some ((w.committed row write).setPhase i call
        (Phase.failed processor .begun event attempt error))
    | _ => none
  | .fail error =>
    match call.phase with
    | .attempting event attempt _ =>
      some (w.setPhase i call (Phase.failed processor .begun event attempt error))
    | _ => none
  | .publish =>
    match call.phase with
    | .deadLettering _ _ => some (w.setPhase i call (.returned .deadLettered))
    | _ => none
  | .refuse =>
    match call.phase with
    | .deadLettering _ _ => some (w.setPhase i call .raised)
    | _ => none
  | .crash =>
    match call.phase with
    | .returned _ => none
    | _ => some (w.setPhase i call .raised)

def step (processor : EventProcessor) (w : World) : Action → Option World
  | .deliver message =>
    some { w with calls := w.calls ++ [⟨message, Phase.begin processor .begun message⟩] }
  | .move i move =>
    match w.calls[i]? with
    | none => none
    | some call => stepCall processor w i call move
  | .foreign row =>
    if row.consumer ≠ activityProjector.name ∧ row.key ∉ w.processed.map ProcessedEvent.key then
      some { w with processed := w.processed ++ [row] }
    else none

/-- Nothing has been delivered or counted. -/
structure Start (w : World) : Prop where
  processed : w.processed = []
  activity : w.activity = []
  calls : w.calls = []
  counted : w.counted = []

def projector (codec : Codec) (maxAttempts : ℕ) : EventProcessor :=
  ⟨codec, activityProjector, maxAttempts⟩

def system (codec : Codec) (maxAttempts : ℕ) : Transition.System World Action :=
  ⟨Start, step (projector codec maxAttempts)⟩

/-- The new phase holds no rows, and attempts no other event. -/
def Harmless (call : Call) (phase : Phase Txn) : Prop :=
  ∀ event attempt txn, phase = .attempting event attempt txn →
    txn.claim = none ∧ txn.write = none ∧
      ∃ attempt' txn', call.phase = .attempting event attempt' txn'

/-- The moves that make rows visible. -/
inductive Commits : Move → Prop
  | commit : Commits .commit
  | loseAcknowledgement (error : AttemptError) : Commits (.loseAcknowledgement error)

/-- What a move of a call can do. -/
inductive Moved (w : World) (i : ℕ) (call : Call) : Move → World → Prop
  | released {m : Move} (phase : Phase Txn) (hphase : Harmless call phase) :
      Moved w i call m (w.setPhase i call phase)
  | claimed (event : EventEnvelope) (attempt : ℕ)
      (hphase : call.phase = .attempting event attempt .begun)
      (hfree : ∀ other ∈ w.others i, ∀ r, other.claim = some r → r.key ≠ (rowOf event).key)
      (hnew : (rowOf event).key ∉ w.processed.map ProcessedEvent.key) :
      Moved w i call .claim
        (w.setPhase i call (.attempting event attempt (.claimed (rowOf event))))
  | counted (event : EventEnvelope) (attempt : ℕ) (row : ProcessedEvent) (write : ActivityDay)
      (hphase : call.phase = .attempting event attempt (.claimed row))
      (hwrite : incremented w.activity event = some write)
      (hfree : ∀ other ∈ w.others i, ∀ r, other.write = some r → r.key ≠ write.key) :
      Moved w i call .handle (w.setPhase i call (.attempting event attempt (.counted row write)))
  | committed {m : Move} (event : EventEnvelope) (attempt : ℕ) (row : ProcessedEvent)
      (write : ActivityDay) (phase : Phase Txn) (hm : Commits m)
      (hphase : call.phase = .attempting event attempt (.counted row write))
      (hharmless : Harmless call phase) :
      Moved w i call m ((w.committed row write).setPhase i call phase)

theorem harmless_failed {processor : EventProcessor} {call : Call} {event : EventEnvelope}
    {attempt : ℕ} {txn : Txn} (h : call.phase = .attempting event attempt txn)
    (error : AttemptError) :
    Harmless call (Phase.failed processor .begun event attempt error) := by
  intro event' attempt' txn' hphase
  cases error with
  | permanent message => exact absurd hphase (by simp [Phase.failed])
  | transient text =>
    rw [Phase.failed] at hphase
    split at hphase
    · obtain ⟨rfl, rfl, rfl⟩ := Phase.attempting.inj hphase
      exact ⟨rfl, rfl, attempt, txn, h⟩
    · exact absurd hphase (by simp)

theorem moved_of_stepCall {processor : EventProcessor} {w w' : World} {i : ℕ} {call : Call}
    {m : Move} (h : stepCall processor w i call m = some w') : Moved w i call m w' := by
  have hidle : ∀ {phase : Phase Txn}, (∀ event attempt txn, phase ≠ .attempting event attempt txn) →
      Harmless call phase :=
    fun hphase event attempt txn heq => absurd heq (hphase event attempt txn)
  cases m with
  | claim =>
    simp only [stepCall] at h
    split at h
    · rename_i event attempt hphase
      split at h
      · exact absurd h (by simp)
      · rename_i hfree
        split at h
        · obtain rfl := Option.some.inj h
          refine .released _ ?_
          intro event' attempt' txn' heq
          obtain ⟨rfl, rfl, rfl⟩ := Phase.attempting.inj heq
          exact ⟨rfl, rfl, attempt, .begun, hphase⟩
        · rename_i hnew
          obtain rfl := Option.some.inj h
          refine .claimed event attempt hphase ?_ ?_
          · intro other hother r hr hkey
            exact hfree (List.any_eq_true.mpr ⟨other, hother, by simp [hr, hkey]⟩)
          · intro hmem
            obtain ⟨r, hr, hkey⟩ := List.mem_map.mp hmem
            exact hnew (List.any_eq_true.mpr ⟨r, hr, decide_eq_true hkey⟩)
    · exact absurd h (by simp)
  | handle =>
    simp only [stepCall] at h
    split at h
    · rename_i event attempt row hphase
      split at h
      · exact absurd h (by simp)
      · rename_i write hwrite
        split at h
        · exact absurd h (by simp)
        · rename_i hfree
          obtain rfl := Option.some.inj h
          refine .counted event attempt row write hphase hwrite ?_
          intro other hother r hr hkey
          exact hfree (List.any_eq_true.mpr ⟨other, hother, by simp [hr, hkey]⟩)
    · exact absurd h (by simp)
  | commit =>
    simp only [stepCall] at h
    split at h
    · obtain rfl := Option.some.inj h
      exact .released _ (hidle (by simp))
    · rename_i event attempt row write hphase
      obtain rfl := Option.some.inj h
      exact .committed event attempt row write _ .commit hphase (hidle (by simp))
    · exact absurd h (by simp)
  | loseAcknowledgement error =>
    simp only [stepCall] at h
    split at h
    · rename_i event attempt row write hphase
      obtain rfl := Option.some.inj h
      exact .committed event attempt row write _ (.loseAcknowledgement error) hphase
        (harmless_failed hphase error)
    · exact absurd h (by simp)
  | fail error =>
    simp only [stepCall] at h
    split at h
    · rename_i event attempt txn hphase
      obtain rfl := Option.some.inj h
      exact .released _ (harmless_failed hphase error)
    · exact absurd h (by simp)
  | publish =>
    simp only [stepCall] at h
    split at h
    · obtain rfl := Option.some.inj h
      exact .released _ (hidle (by simp))
    · exact absurd h (by simp)
  | refuse =>
    simp only [stepCall] at h
    split at h
    · obtain rfl := Option.some.inj h
      exact .released _ (hidle (by simp))
    · exact absurd h (by simp)
  | crash =>
    simp only [stepCall] at h
    split at h
    · exact absurd h (by simp)
    · obtain rfl := Option.some.inj h
      exact .released _ (hidle (by simp))

@[simp] theorem ActivityDay.key_bump (r : ActivityDay) (c : Counter) : (r.bump c).key = r.key := by
  cases c <;> rfl

theorem ActivityDay.get_bump (r : ActivityDay) (c c' : Counter) :
    (r.bump c).get c' = r.get c' + if c = c' then 1 else 0 := by
  cases c <;> cases c' <;> rfl

theorem key_rowFor (activity : List ActivityDay) (key : Uuid × ℤ) :
    (rowFor activity key).key = key := by
  unfold rowFor
  cases hfind : activity.find? fun r => r.key = key with
  | none => rfl
  | some r =>
    have hkey := List.find?_some hfind
    simp only [decide_eq_true_eq] at hkey
    exact hkey

theorem rowFor_upsert (activity : List ActivityDay) (row : ActivityDay) (key : Uuid × ℤ) :
    rowFor (upsert activity row) key = if row.key = key then row else rowFor activity key := by
  unfold rowFor upsert
  by_cases hkey : row.key = key
  · rw [if_pos hkey, List.find?_cons_of_pos (by simpa using hkey)]
    rfl
  · rw [if_neg hkey, List.find?_cons_of_neg (by simpa using hkey), List.find?_filter]
    congr 2
    funext r
    by_cases hr : r.key = key
    · simp [hr, Ne.symm hkey]
    · simp [hr]

theorem incremented_eq_some {activity : List ActivityDay} {event : EventEnvelope}
    {write : ActivityDay} (h : incremented activity event = some write) :
    ∃ counter date, counterByType event.type = some counter ∧ utcDate event.time = some date ∧
      write = (rowFor activity (event.organizationId, date)).bump counter := by
  unfold incremented at h
  obtain ⟨counter, hcounter, h⟩ := Option.bind_eq_some_iff.mp h
  obtain ⟨date, hdate, h⟩ := Option.bind_eq_some_iff.mp h
  obtain ⟨-, h⟩ := Option.ite_none_right_eq_some.mp h
  exact ⟨counter, date, hcounter, hdate, (Option.some.inj h).symm⟩

/-- An increment is not disturbed by rows of other keys. -/
theorem incremented_upsert {activity : List ActivityDay} {event : EventEnvelope}
    {write row : ActivityDay} (h : incremented activity event = some write)
    (hkey : row.key ≠ write.key) : incremented (upsert activity row) event = some write := by
  obtain ⟨counter, date, hcounter, hdate, rfl⟩ := incremented_eq_some h
  rw [ActivityDay.key_bump, key_rowFor] at hkey
  simp only [incremented, hcounter, hdate, Option.bind_eq_bind, Option.bind_some, rowFor_upsert,
    if_neg hkey] at h ⊢
  exact h

section Counting

variable (envelopeOf : Uuid → EventEnvelope)

/-- The row is of an event that the counter of this organization and day counts. -/
def matching (org : Uuid) (day : ℤ) (counter : Counter) (r : ProcessedEvent) : Bool :=
  decide (r.consumer = activityProjector.name ∧ r.organizationId = org ∧
    counterByType r.eventType = some counter ∧ utcDate (envelopeOf r.eventId).time = some day)

/-- How many different events the table has for the counter. -/
def distinctEvents (processed : List ProcessedEvent) (org : Uuid) (day : ℤ) (counter : Counter) :
    ℕ :=
  ((processed.filter (matching envelopeOf org day counter)).map
    ProcessedEvent.eventId).dedup.length

/-- What an open transaction holds fits the tables. -/
structure Attempted (processed : List ProcessedEvent) (activity : List ActivityDay)
    (event : EventEnvelope) (txn : Txn) : Prop where
  known : envelopeOf event.id = event
  claim : ∀ row, txn.claim = some row →
    row = rowOf event ∧ row.key ∉ processed.map ProcessedEvent.key
  write : ∀ write, txn.write = some write → incremented activity event = some write

def CallOk (w : World) (call : Call) : Prop :=
  ∀ event attempt txn, call.phase = .attempting event attempt txn →
    Attempted envelopeOf w.processed w.activity event txn

/-- Two open transactions hold different rows. -/
def KeysApart (c c' : Call) : Prop :=
  (∀ r r', c.claim = some r → c'.claim = some r' → r.key ≠ r'.key) ∧
    ∀ r r', c.write = some r → c'.write = some r' → r.key ≠ r'.key

structure Sound (w : World) : Prop where
  keys : (w.processed.map ProcessedEvent.key).Nodup
  counts : ∀ org day counter, stored w.activity org day counter =
    w.processed.countP (matching envelopeOf org day counter)
  counted : w.counted = (w.processed.filter fun r =>
    r.consumer = activityProjector.name).map ProcessedEvent.eventId
  calls : ∀ call ∈ w.calls, CallOk envelopeOf w call
  apart : Processes.Apart KeysApart w.calls

end Counting

variable {envelopeOf : Uuid → EventEnvelope}

theorem KeysApart.symm (c c' : Call) (h : KeysApart c c') : KeysApart c' c :=
  ⟨fun r r' hr hr' => (h.1 r' r hr' hr).symm, fun r r' hr hr' => (h.2 r' r hr' hr).symm⟩

theorem Harmless.claim {call : Call} {phase : Phase Txn} (h : Harmless call phase) :
    Call.claim { call with phase } = none ∧ Call.write { call with phase } = none := by
  cases phase with
  | attempting event attempt txn =>
    obtain ⟨hclaim, hwrite, -⟩ := h event attempt txn rfl
    exact ⟨hclaim, hwrite⟩
  | deadLettering error attempts => exact ⟨rfl, rfl⟩
  | returned outcome => exact ⟨rfl, rfl⟩
  | raised => exact ⟨rfl, rfl⟩

theorem Harmless.callOk {w : World} {call : Call} {phase : Phase Txn} (h : Harmless call phase)
    (hcall : CallOk envelopeOf w call) (w' : World) :
    CallOk envelopeOf w' { call with phase } := by
  intro event attempt txn hphase
  obtain ⟨hclaim, hwrite, attempt', txn', hbefore⟩ := h event attempt txn hphase
  refine ⟨(hcall event attempt' txn' hbefore).known, ?_, ?_⟩
  · rw [hclaim]
    exact fun row hrow => absurd hrow (by simp)
  · rw [hwrite]
    exact fun row hrow => absurd hrow (by simp)

theorem Harmless.apart {call : Call} {phase : Phase Txn} (h : Harmless call phase) (c : Call) :
    KeysApart { call with phase } c := by
  obtain ⟨hclaim, hwrite⟩ := h.claim
  refine ⟨?_, ?_⟩
  · rw [hclaim]
    exact fun r r' hr => absurd hr (by simp)
  · rw [hwrite]
    exact fun r r' hr => absurd hr (by simp)

/-- Only one call changes, and the tables stay. -/
theorem Sound.setPhase {w : World} (hw : Sound envelopeOf w) {i : ℕ} {call : Call}
    {phase : Phase Txn} (hcall : CallOk envelopeOf w { call with phase })
    (hapart : ∀ j other, w.calls[j]? = some other → i ≠ j → KeysApart { call with phase } other) :
    Sound envelopeOf (w.setPhase i call phase) := by
  refine ⟨hw.keys, hw.counts, hw.counted, ?_, hw.apart.set KeysApart.symm hapart⟩
  intro c hc
  rcases Processes.mem_set_cases hc with rfl | ⟨j, -, hj⟩
  · exact hcall
  · exact hw.calls c (List.mem_of_getElem? hj)

theorem sound_claimed {w : World} (hw : Sound envelopeOf w) {i : ℕ} {call : Call}
    (hi : w.calls[i]? = some call) {event : EventEnvelope} {attempt : ℕ}
    (hphase : call.phase = .attempting event attempt .begun)
    (hfree : ∀ other ∈ w.others i, ∀ r, other.claim = some r → r.key ≠ (rowOf event).key)
    (hnew : (rowOf event).key ∉ w.processed.map ProcessedEvent.key) :
    Sound envelopeOf
      (w.setPhase i call (.attempting event attempt (.claimed (rowOf event)))) := by
  have hknown := (hw.calls call (List.mem_of_getElem? hi) event attempt .begun hphase).known
  refine hw.setPhase ?_ ?_
  · intro event' attempt' txn heq
    obtain ⟨rfl, rfl, rfl⟩ := Phase.attempting.inj heq
    refine ⟨hknown, ?_, ?_⟩
    · rintro row ⟨rfl⟩
      exact ⟨rfl, hnew⟩
    · exact fun write hwrite => absurd hwrite (by simp [Txn.write])
  · intro j other hj hij
    refine ⟨?_, ?_⟩
    · rintro r r' ⟨rfl⟩ hr'
      exact (hfree other (Processes.mem_eraseIdx_of_ne hj hij) r' hr').symm
    · exact fun r r' hr => absurd hr (by simp [Call.write, Call.txn, Txn.write])

theorem sound_counted {w : World} (hw : Sound envelopeOf w) {i : ℕ} {call : Call}
    (hi : w.calls[i]? = some call) {event : EventEnvelope} {attempt : ℕ} {row : ProcessedEvent}
    {write : ActivityDay} (hphase : call.phase = .attempting event attempt (.claimed row))
    (hwrite : incremented w.activity event = some write)
    (hfree : ∀ other ∈ w.others i, ∀ r, other.write = some r → r.key ≠ write.key) :
    Sound envelopeOf (w.setPhase i call (.attempting event attempt (.counted row write))) := by
  have hbefore := hw.calls call (List.mem_of_getElem? hi) event attempt _ hphase
  have hclaim : call.claim = some row := by simp [Call.claim, Call.txn, hphase, Txn.claim]
  refine hw.setPhase ?_ ?_
  · intro event' attempt' txn heq
    obtain ⟨rfl, rfl, rfl⟩ := Phase.attempting.inj heq
    refine ⟨hbefore.known, ?_, ?_⟩
    · rintro row' ⟨rfl⟩
      exact hbefore.claim row rfl
    · rintro write' ⟨rfl⟩
      exact hwrite
  · intro j other hj hij
    refine ⟨?_, ?_⟩
    · rintro r r' ⟨rfl⟩ hr'
      exact (hw.apart i j call other hi hj hij).1 row r' hclaim hr'
    · rintro r r' ⟨rfl⟩ hr'
      exact (hfree other (Processes.mem_eraseIdx_of_ne hj hij) r' hr').symm

/-- A commit adds one event to the counter of its organization and day. -/
theorem counts_committed {w : World} (hw : Sound envelopeOf w) {event : EventEnvelope}
    {write : ActivityDay} (hknown : envelopeOf event.id = event)
    (hwrite : incremented w.activity event = some write) (org : Uuid) (day : ℤ)
    (counter : Counter) : stored (upsert w.activity write) org day counter =
      (w.processed ++ [rowOf event]).countP (matching envelopeOf org day counter) := by
  obtain ⟨c, date, hcounter, hdate, rfl⟩ := incremented_eq_some hwrite
  have hmatching : matching envelopeOf org day counter (rowOf event) = true ↔
      (event.organizationId, date) = (org, day) ∧ c = counter := by
    simp only [matching, rowOf, decide_eq_true_eq, true_and, hknown, hcounter, hdate,
      Option.some.injEq, Prod.mk.injEq]
    tauto
  rw [List.countP_append, List.countP_singleton, ← hw.counts, stored, rowFor_upsert,
    ActivityDay.key_bump, key_rowFor]
  by_cases hkey : (event.organizationId, date) = (org, day)
  · rw [if_pos hkey, ActivityDay.get_bump, hkey]
    by_cases hc : c = counter
    · rw [if_pos hc, if_pos (hmatching.mpr ⟨hkey, hc⟩)]
      rfl
    · rw [if_neg hc, if_neg fun h => hc (hmatching.mp h).2]
      rfl
  · rw [if_neg hkey, if_neg fun h => hkey (hmatching.mp h).1]
    rfl

theorem sound_committed {w : World} (hw : Sound envelopeOf w) {i : ℕ} {call : Call}
    (hi : w.calls[i]? = some call) {event : EventEnvelope} {attempt : ℕ} {row : ProcessedEvent}
    {write : ActivityDay} {phase : Phase Txn}
    (hphase : call.phase = .attempting event attempt (.counted row write))
    (hharmless : Harmless call phase) :
    Sound envelopeOf ((w.committed row write).setPhase i call phase) := by
  have hbefore := hw.calls call (List.mem_of_getElem? hi) event attempt _ hphase
  obtain ⟨rfl, hnew⟩ := hbefore.claim row rfl
  have hwrite := hbefore.write write rfl
  have hclaim : call.claim = some (rowOf event) := by
    simp [Call.claim, Call.txn, hphase, Txn.claim]
  have hheld : call.write = some write := by simp [Call.write, Call.txn, hphase, Txn.write]
  refine ⟨?_, counts_committed hw hbefore.known hwrite, ?_, ?_,
    hw.apart.set KeysApart.symm fun j other _ _ => hharmless.apart other⟩
  · show ((w.processed ++ [rowOf event]).map ProcessedEvent.key).Nodup
    rw [List.map_append, List.nodup_append]
    refine ⟨hw.keys, List.nodup_singleton _, ?_⟩
    rintro key hkey key' hkey' rfl
    rw [List.map_singleton, List.mem_singleton] at hkey'
    exact hnew (hkey' ▸ hkey)
  · show w.counted ++ [event.id] = ((w.processed ++ [rowOf event]).filter fun r =>
      r.consumer = activityProjector.name).map ProcessedEvent.eventId
    rw [List.filter_append, List.map_append, ← hw.counted]
    rfl
  · intro c hc
    rcases Processes.mem_set_cases hc with rfl | ⟨j, hij, hj⟩
    · exact hharmless.callOk (hw.calls call (List.mem_of_getElem? hi)) _
    · intro event' attempt' txn hother
      have hok := hw.calls c (List.mem_of_getElem? hj) event' attempt' txn hother
      have hapart := hw.apart i j call c hi hj hij
      refine ⟨hok.known, ?_, ?_⟩
      · intro row' hrow'
        obtain ⟨heq, hnot⟩ := hok.claim row' hrow'
        refine ⟨heq, ?_⟩
        have hne : (rowOf event).key ≠ row'.key :=
          hapart.1 _ row' hclaim (by simp [Call.claim, Call.txn, hother, hrow'])
        show row'.key ∉ (w.processed ++ [rowOf event]).map ProcessedEvent.key
        rw [List.map_append, List.map_singleton, List.mem_append, List.mem_singleton]
        rintro (hold | hnew')
        · exact hnot hold
        · exact hne hnew'.symm
      · intro write' hwrite'
        exact incremented_upsert (hok.write write' hwrite')
          (hapart.2 write write' hheld (by simp [Call.write, Call.txn, hother, hwrite']))

theorem sound_moved {w w' : World} (hw : Sound envelopeOf w) {i : ℕ} {call : Call}
    (hi : w.calls[i]? = some call) {m : Move} (h : Moved w i call m w') : Sound envelopeOf w' := by
  cases h with
  | released phase hphase =>
    exact hw.setPhase (hphase.callOk (hw.calls call (List.mem_of_getElem? hi)) w)
      fun j other _ _ => hphase.apart other
  | claimed event attempt hphase hfree hnew => exact sound_claimed hw hi hphase hfree hnew
  | counted event attempt row write hphase hwrite hfree =>
    exact sound_counted hw hi hphase hwrite hfree
  | committed event attempt row write phase hm hphase hharmless =>
    exact sound_committed hw hi hphase hharmless

/-- What is delivered under an event id is always the same envelope. -/
def Truthful (envelopeOf : Uuid → EventEnvelope) (codec : Codec) : Action → Prop
  | .deliver message => ∀ event, decode codec message.value = .ok event → envelopeOf event.id = event
  | _ => True

theorem sound_deliver {codec : Codec} {maxAttempts : ℕ} {w : World} (hw : Sound envelopeOf w)
    {message : IncomingMessage} (htruthful : Truthful envelopeOf codec (.deliver message)) :
    Sound envelopeOf { w with calls := w.calls ++
      [⟨message, Phase.begin (projector codec maxAttempts) .begun message⟩] } := by
  have hbegin : ∀ event attempt txn,
      Phase.begin (projector codec maxAttempts) Txn.begun message = .attempting event attempt txn →
      decode codec message.value = .ok event ∧ txn = .begun := by
    intro event attempt txn h
    unfold Phase.begin at h
    split at h
    · exact absurd h (by simp)
    · rename_i event' hdecode
      split at h
      · exact absurd h (by simp)
      · split at h
        · exact absurd h (by simp)
        · obtain ⟨rfl, -, rfl⟩ := Phase.attempting.inj h
          exact ⟨hdecode, rfl⟩
  have hnothing : Call.claim ⟨message, Phase.begin (projector codec maxAttempts) .begun message⟩ =
      none ∧ Call.write ⟨message, Phase.begin (projector codec maxAttempts) .begun message⟩ =
        none := by
    generalize hphase : Phase.begin (projector codec maxAttempts) Txn.begun message = phase
    cases phase with
    | attempting event attempt txn =>
      obtain ⟨-, rfl⟩ := hbegin event attempt txn hphase
      exact ⟨rfl, rfl⟩
    | deadLettering error attempts => exact ⟨rfl, rfl⟩
    | returned outcome => exact ⟨rfl, rfl⟩
    | raised => exact ⟨rfl, rfl⟩
  refine ⟨hw.keys, hw.counts, hw.counted, ?_, ?_⟩
  · intro call hcall
    rcases List.mem_append.mp hcall with hcall | hcall
    · exact hw.calls call hcall
    · obtain rfl := List.mem_singleton.mp hcall
      intro event attempt txn hphase
      obtain ⟨hdecode, rfl⟩ := hbegin event attempt txn hphase
      exact ⟨htruthful event hdecode, fun row hrow => absurd hrow (by simp [Txn.claim]),
        fun write hwrite => absurd hwrite (by simp [Txn.write])⟩
  · refine hw.apart.append KeysApart.symm ?_
    intro other _
    refine ⟨?_, ?_⟩
    · rw [hnothing.1]
      exact fun r r' hr => absurd hr (by simp)
    · rw [hnothing.2]
      exact fun r r' hr => absurd hr (by simp)

theorem sound_foreign {w : World} (hw : Sound envelopeOf w) {row : ProcessedEvent}
    (hconsumer : row.consumer ≠ activityProjector.name)
    (hnew : row.key ∉ w.processed.map ProcessedEvent.key) :
    Sound envelopeOf { w with processed := w.processed ++ [row] } := by
  refine ⟨?_, ?_, ?_, ?_, hw.apart⟩
  · rw [List.map_append, List.nodup_append]
    refine ⟨hw.keys, List.nodup_singleton _, ?_⟩
    rintro key hkey key' hkey' rfl
    rw [List.map_singleton, List.mem_singleton] at hkey'
    exact hnew (hkey' ▸ hkey)
  · intro org day counter
    have hnot : matching envelopeOf org day counter row = false := by
      simp [matching, hconsumer]
    rw [List.countP_append, List.countP_singleton, hnot, ← hw.counts]
    rfl
  · rw [List.filter_append, List.filter_singleton, decide_eq_false hconsumer, hw.counted]
    simp
  · intro call hcall event attempt txn hphase
    have hok := hw.calls call hcall event attempt txn hphase
    refine ⟨hok.known, ?_, hok.write⟩
    intro row' hrow'
    obtain ⟨rfl, hnot⟩ := hok.claim row' hrow'
    refine ⟨rfl, ?_⟩
    rw [List.map_append, List.map_singleton, List.mem_append, List.mem_singleton]
    rintro (hold | heq)
    · exact hnot hold
    · exact hconsumer (congrArg Prod.fst heq).symm

theorem sound_step {codec : Codec} {maxAttempts : ℕ} {w w' : World} {a : Action}
    (hw : Sound envelopeOf w) (htruthful : Truthful envelopeOf codec a)
    (h : step (projector codec maxAttempts) w a = some w') : Sound envelopeOf w' := by
  cases a with
  | deliver message =>
    obtain rfl := Option.some.inj h
    exact sound_deliver hw htruthful
  | move i m =>
    simp only [step] at h
    cases hi : w.calls[i]? with
    | none =>
      rw [hi] at h
      exact absurd h (by simp)
    | some call =>
      rw [hi] at h
      exact sound_moved hw hi (moved_of_stepCall h)
  | foreign row =>
    obtain ⟨⟨hconsumer, hnew⟩, h⟩ := Option.ite_none_right_eq_some.mp h
    obtain rfl := Option.some.inj h
    exact sound_foreign hw hconsumer hnew

theorem sound_start {w : World} (h : Start w) : Sound envelopeOf w := by
  refine ⟨?_, ?_, ?_, ?_, ?_⟩
  · rw [h.processed]
    exact List.nodup_nil
  · rw [h.processed, h.activity]
    intro org day counter
    cases counter <;> rfl
  · rw [h.processed, h.counted]
    rfl
  · rw [h.calls]
    exact fun call hcall => absurd hcall List.not_mem_nil
  · rw [h.calls]
    exact Processes.apart_nil _

theorem nodup_counted {w : World} (hw : Sound envelopeOf w) : w.counted.Nodup := by
  rw [hw.counted]
  refine ((List.Nodup.of_map _ hw.keys).filter _).map_on ?_
  intro r hr r' hr' hid
  obtain ⟨hr, hname⟩ := List.mem_filter.mp hr
  obtain ⟨hr', hname'⟩ := List.mem_filter.mp hr'
  refine List.inj_on_of_nodup_map hw.keys hr hr' ?_
  exact Prod.ext ((of_decide_eq_true hname).trans (of_decide_eq_true hname').symm) hid

/-- No event is in the table twice, so its rows count its events. -/
theorem distinctEvents_eq {w : World} (hw : Sound envelopeOf w) (org : Uuid) (day : ℤ)
    (counter : Counter) : distinctEvents envelopeOf w.processed org day counter =
      w.processed.countP (matching envelopeOf org day counter) := by
  have hsub : (w.processed.filter (matching envelopeOf org day counter)).Sublist
      (w.processed.filter fun r => r.consumer = activityProjector.name) := by
    refine List.monotone_filter_right _ ?_
    intro r hr
    exact decide_eq_true (of_decide_eq_true hr).1
  have hnodup : ((w.processed.filter (matching envelopeOf org day counter)).map
      ProcessedEvent.eventId).Nodup :=
    (hw.counted ▸ nodup_counted hw).sublist (hsub.map _)
  rw [distinctEvents, hnodup.dedup, List.length_map, List.countP_eq_length_filter]

/-- Every stored counter is the number of different events in the table; no event is
counted twice; and a move that does not commit leaves both tables as they are. -/
theorem counts_exact (envelopeOf : Uuid → EventEnvelope) (codec : Codec) (maxAttempts : ℕ)
    {w₀ w : World} {trace : List Action} (hstart : Start w₀)
    (hrun : (system codec maxAttempts).run w₀ trace = some w)
    (htruthful : ∀ a ∈ trace, Truthful envelopeOf codec a) :
    (∀ org day counter, stored w.activity org day counter =
      distinctEvents envelopeOf w.processed org day counter) ∧
    w.counted.Nodup ∧
    ∀ i m w', step (projector codec maxAttempts) w (.move i m) = some w' → ¬Commits m →
      w'.processed = w.processed ∧ w'.activity = w.activity := by
  have hw : Sound envelopeOf w :=
    (system codec maxAttempts).run_preserves_of_meets (fun _ a => Truthful envelopeOf codec a)
      (Sound envelopeOf) (fun _ _ _ hs ha hstep => sound_step hs ha hstep) hrun
      ((system codec maxAttempts).runMeets_of_forall fun a ha _ => htruthful a ha)
      (sound_start hstart)
  refine ⟨?_, nodup_counted hw, ?_⟩
  · intro org day counter
    rw [distinctEvents_eq hw]
    exact hw.counts org day counter
  · intro i m w' hstep hcommits
    simp only [step] at hstep
    cases hi : w.calls[i]? with
    | none =>
      rw [hi] at hstep
      exact absurd hstep (by simp)
    | some call =>
      rw [hi] at hstep
      cases moved_of_stepCall hstep with
      | released phase hphase => exact ⟨rfl, rfl⟩
      | claimed event attempt hphase hfree hnew => exact ⟨rfl, rfl⟩
      | counted event attempt row write hphase hwrite hfree => exact ⟨rfl, rfl⟩
      | committed event attempt row write phase hm => exact absurd hm hcommits

def exampleMessage (offset : ℕ) : IncomingMessage :=
  ⟨evidenceTopic, 0, offset, some (encode (uuidText 1)), encode exampleText, []⟩

theorem begin_exampleMessage (offset : ℕ) :
    Phase.begin (projector exampleCodec 3) Txn.begun (exampleMessage offset) =
      .attempting exampleEvent 1 .begun := by
  simp only [Phase.begin, projector, exampleMessage, decode_exampleText]
  rfl

def exampleStart : World := ⟨[], [], [], []⟩

/-- The event was delivered twice, and both calls are about to begin. -/
def exampleDelivered : World :=
  { exampleStart with
    calls := [⟨exampleMessage 0, .attempting exampleEvent 1 .begun⟩,
      ⟨exampleMessage 1, .attempting exampleEvent 1 .begun⟩] }

/-- The first call counts the event but does not learn that its commit succeeded. -/
def exampleMoves : List Action :=
  [.move 0 .claim, .move 0 .handle, .move 0 (.loseAcknowledgement (.transient "timeout")),
   .move 1 .claim, .move 1 .commit, .move 0 .claim, .move 0 .commit]

def exampleTrace : List Action :=
  [.deliver (exampleMessage 0), .deliver (exampleMessage 1)] ++ exampleMoves

theorem exampleDelivered_run : (system exampleCodec 3).run exampleStart
    [.deliver (exampleMessage 0), .deliver (exampleMessage 1)] = some exampleDelivered := by
  simp only [Transition.System.run, system, step, begin_exampleMessage, Option.bind_some]
  rfl

theorem exampleMoves_counted : ((system exampleCodec 3).run exampleDelivered exampleMoves).any
    (fun w => decide (stored w.activity 1 0 .evidenceCaptured = 1 ∧ w.counted = [7])) = true := by
  decide +kernel

theorem counts_exact_example : ∃ w, (system exampleCodec 3).run exampleStart exampleTrace = some w ∧
    stored w.activity 1 0 .evidenceCaptured = 1 ∧
    (∀ org day counter, stored w.activity org day counter =
      distinctEvents (fun _ => exampleEvent) w.processed org day counter) ∧ w.counted.Nodup := by
  obtain ⟨w, hmoves, hw⟩ := (Option.any_eq_true _ _).mp exampleMoves_counted
  have hrun : (system exampleCodec 3).run exampleStart exampleTrace = some w := by
    rw [exampleTrace, Transition.System.run_append, exampleDelivered_run]
    exact hmoves
  have htruthful : ∀ a ∈ exampleTrace, Truthful (fun _ => exampleEvent) exampleCodec a := by
    intro a _
    cases a with
    | deliver message => exact fun event hevent => (eq_exampleEvent_of_decode hevent).symm
    | move i m => trivial
    | foreign row => trivial
  obtain ⟨hcounts, hnodup, -⟩ := counts_exact (fun _ => exampleEvent) exampleCodec 3
    (⟨rfl, rfl, rfl, rfl⟩ : Start exampleStart) hrun htruthful
  exact ⟨w, hrun, (of_decide_eq_true hw).1, hcounts, hnodup⟩

end ContextLedger.ActivityCounts
