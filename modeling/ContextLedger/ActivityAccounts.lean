import ContextLedger.ActivityPipeline

/-!
What becomes of a change on its way to the counter of its day. The broker holds the
messages of committed events only and all that the relays believe published, and the
consumer knows how its call stands, so an event that has left the outbox is before the
consumer, counted or on a dead-letter topic. The counters are exact for what has been
counted, and what has been counted was committed.
-/
namespace ContextLedger.ActivityAccounts

open Values Events ActivityPipeline
open ActivityCounts hiding World Action step Start exampleStart

variable {codec : Codec} {maxAttempts : ℕ} {partitionFor : String → Bytes → ℕ}

section Joining

variable (codec : Codec) (partitionFor : String → Bytes → ℕ)

/-- The record is that of a committed event, in the partition of its message. -/
def RecordOf (committed : List OutboxEvent) (p : ConsumerOffsets.Partition)
    (r : ConsumerOffsets.Record) (e : OutboxEvent) : Prop :=
  e ∈ committed ∧ ∃ message, messageFor codec e = some message ∧
    p = placeOf partitionFor message ∧ r = recordOf r.offset message

/-- The parts are in order by themselves, the broker holds what the relays have published
and nothing else, and the consumer knows how its call stands. -/
structure Joined (w : World) : Prop where
  kept : EventRelay.Kept codec w.source
  good : ConsumerOffsets.Good activityProjector w.group
  remembered : Remembered codec w.tables
  records : ∀ p, ∀ r ∈ w.group.log p,
    ∃ e, RecordOf codec partitionFor w.source.committed.flatten p r e
  published : ∀ x ∈ w.source.log,
    ∃ r ∈ w.group.log (placeOf partitionFor x.2), r = recordOf r.offset x.2
  messages : ∀ call ∈ w.tables.calls, ConsumerOffsets.FromLog w.group.log call.message
  outcomes : ∀ x ∈ w.group.outcomes, Told codec w.tables.counted x.1 x.2
  current : ∀ message phase, callOf w.group.consumer = some (message, phase) →
    ∃ i call, w.current = some i ∧ w.tables.calls[i]? = some call ∧ call.message = message ∧
      seen call.phase = phase

end Joining

theorem RecordOf.mono {committed committed' : List OutboxEvent} {p : ConsumerOffsets.Partition}
    {r : ConsumerOffsets.Record} {e : OutboxEvent}
    (h : RecordOf codec partitionFor committed p r e) (hsub : committed ⊆ committed') :
    RecordOf codec partitionFor committed' p r e :=
  ⟨hsub h.1, h.2⟩

theorem fromLog_iff {log : ConsumerOffsets.Partition → List ConsumerOffsets.Record}
    {m : IncomingMessage} : isLogged log m = true ↔ ConsumerOffsets.FromLog log m := by
  simp only [isLogged, List.any_eq_true, decide_eq_true_eq, ConsumerOffsets.FromLog]

/-- A record more does no harm to the ones that are there. -/
theorem fromLog_append {log : ConsumerOffsets.Partition → List ConsumerOffsets.Record}
    {p : ConsumerOffsets.Partition} {record : ConsumerOffsets.Record} {m : IncomingMessage}
    (h : ConsumerOffsets.FromLog log m) :
    ConsumerOffsets.FromLog (Function.update log p (log p ++ [record])) m := by
  obtain ⟨r, hr, hm⟩ := h
  refine ⟨r, ?_, hm⟩
  by_cases hp : ConsumerOffsets.partitionOf m = p
  · rw [hp, Function.update_self]
    exact List.mem_append_left _ (hp ▸ hr)
  · rw [Function.update_of_ne hp]
    exact hr

theorem mem_append_log {log : ConsumerOffsets.Partition → List ConsumerOffsets.Record}
    {p q : ConsumerOffsets.Partition} {record r : ConsumerOffsets.Record} :
    r ∈ Function.update log p (log p ++ [record]) q ↔ r ∈ log q ∨ q = p ∧ r = record := by
  by_cases hq : q = p
  · subst hq
    rw [Function.update_self, List.mem_append, List.mem_singleton]
    simp
  · rw [Function.update_of_ne hq]
    simp [hq]

/-- What holds of the consumer's offsets stays so, whatever the projector does. -/
theorem good_group {g g' : ConsumerOffsets.World} {a : ConsumerOffsets.Action}
    (hg : ConsumerOffsets.Good activityProjector g)
    (h : ConsumerOffsets.step (projector codec maxAttempts) g a = some g') :
    ConsumerOffsets.Good activityProjector g' :=
  @ConsumerOffsets.good_step (projector codec maxAttempts) g g' a hg h

theorem joined_source {w : World} (hw : Joined codec partitionFor w) {a : EventRelay.Action}
    (ha : ∀ i k, a ≠ .acknowledge i k) {source : EventRelay.World}
    (h : EventRelay.step codec w.source a = some source) :
    Joined codec partitionFor { w with source } := by
  obtain ⟨hgrows, hlog⟩ := source_grows h
  refine { hw with kept := EventRelay.kept_step hw.kept h, records := ?_, published := ?_ }
  · intro p r hr
    obtain ⟨e, he⟩ := hw.records p r hr
    exact ⟨e, he.mono hgrows⟩
  · intro x hx
    rw [hlog ha] at hx
    exact hw.published x hx

/-- The broker keeps a message of a committed event. -/
theorem joined_stored {w : World} (hw : Joined codec partitionFor w) {e : OutboxEvent}
    (he : e ∈ w.source.committed.flatten) {message : OutgoingMessage}
    (hmessage : messageFor codec e = some message) {offset : ℕ} {group : ConsumerOffsets.World}
    (h : ConsumerOffsets.step (projector codec maxAttempts) w.group
      (.append (placeOf partitionFor message) (recordOf offset message)) = some group) :
    Joined codec partitionFor { w with group } ∧
      recordOf offset message ∈ group.log (placeOf partitionFor message) := by
  have hgood := good_group hw.good h
  obtain ⟨-, h⟩ := Option.ite_none_right_eq_some.mp h
  obtain rfl := Option.some.inj h
  refine ⟨{ hw with good := hgood, records := ?_, published := ?_, messages := ?_ },
    mem_append_log.mpr (.inr ⟨rfl, rfl⟩)⟩
  · intro p r hr
    rcases mem_append_log.mp hr with hr | ⟨rfl, rfl⟩
    · exact hw.records p r hr
    · exact ⟨e, he, message, hmessage, rfl, rfl⟩
  · intro x hx
    obtain ⟨r, hr, heq⟩ := hw.published x hx
    exact ⟨r, mem_append_log.mpr (.inl hr), heq⟩
  · exact fun call hcall => fromLog_append (hw.messages call hcall)

theorem joined_store {w w' : World} (hw : Joined codec partitionFor w) {i k offset : ℕ}
    {acknowledged : Bool}
    (h : store codec maxAttempts partitionFor w i k offset acknowledged = some w') :
    Joined codec partitionFor w' := by
  unfold store at h
  split at h
  · rename_i events left hrelay
    obtain ⟨e, he, h⟩ := Option.bind_eq_some_iff.mp h
    obtain ⟨message, hmessage, h⟩ := Option.bind_eq_some_iff.mp h
    obtain ⟨group, hgroup, h⟩ := Option.bind_eq_some_iff.mp h
    have hmem := List.mem_of_getElem? hrelay
    have hevents : e ∈ events := (hw.kept.sent _ hmem).1 e (List.mem_of_getElem? he)
    have hcommitted := hw.kept.outbox e (hw.kept.held _ hmem e hevents)
    obtain ⟨hjoined, hstored⟩ := joined_stored hw hcommitted hmessage hgroup
    cases acknowledged with
    | false =>
      obtain rfl := Option.some.inj h
      exact hjoined
    | true =>
      obtain ⟨source, hsource, h⟩ := Option.bind_eq_some_iff.mp h
      obtain rfl := Option.some.inj h
      have hgrows := (source_grows hsource).1
      have hlog : source.log = w.source.log ++ [(e, message)] := by
        simp only [EventRelay.step, EventRelay.Action.relay, hrelay, Option.bind_some,
          EventRelay.stepRelay, he, hmessage, Option.map_some] at hsource
        rw [← Option.some.inj hsource]
      refine { hjoined with
        kept := EventRelay.kept_step hw.kept hsource, records := ?_, published := ?_ }
      · intro p r hr
        obtain ⟨e', he'⟩ := hjoined.records p r hr
        exact ⟨e', he'.mono hgrows⟩
      · intro x hx
        rw [hlog] at hx
        rcases List.mem_append.mp hx with hx | hx
        · exact hjoined.published x hx
        · rw [List.mem_singleton.mp hx]
          exact ⟨_, hstored, rfl⟩
  · exact absurd h (by simp)

/-- The consumer and the calls go on, and the log stays as it is. -/
theorem joined_group {w : World} (hw : Joined codec partitionFor w)
    {group : ConsumerOffsets.World} {tables : ActivityCounts.World} {current : Option ℕ}
    (hgood : ConsumerOffsets.Good activityProjector group) (hlog : group.log = w.group.log)
    (hremembered : Remembered codec tables)
    (hmessages : ∀ call ∈ tables.calls, ConsumerOffsets.FromLog w.group.log call.message)
    (houtcomes : ∀ x ∈ group.outcomes, Told codec tables.counted x.1 x.2)
    (hcurrent : ∀ message phase, callOf group.consumer = some (message, phase) →
      ∃ i call, current = some i ∧ tables.calls[i]? = some call ∧ call.message = message ∧
        seen call.phase = phase) :
    Joined codec partitionFor { w with group, tables, current } := by
  refine ⟨hw.kept, hgood, hremembered, ?_, ?_, ?_, houtcomes, hcurrent⟩
  · rw [hlog]
    exact hw.records
  · rw [hlog]
    exact hw.published
  · rw [hlog]
    exact hmessages

theorem joined_consumed {w : World} (hw : Joined codec partitionFor w)
    {a : ConsumerOffsets.Action} {group : ConsumerOffsets.World}
    (ha : a = .start ∨ (∃ counts, a = .getmany counts) ∨ a = .finish ∨ a = .commit ∨
      (∃ stored, a = .commitFailed stored) ∨ a = .crash)
    (h : ConsumerOffsets.step (projector codec maxAttempts) w.group a = some group)
    (current : Option ℕ) : Joined codec partitionFor { w with group, current } := by
  have hgood := good_group hw.good h
  obtain ⟨hlog, hcall, houtcomes⟩ := consumed h ha
  refine joined_group hw hgood hlog hw.remembered hw.messages ?_ ?_
  · rcases houtcomes with hsame | ⟨message, outcome, hreturned, hnew⟩
    · rw [hsame]
      exact hw.outcomes
    · intro x hx
      rw [hnew] at hx
      rcases List.mem_append.mp hx with hx | hx
      · exact hw.outcomes x hx
      · rw [List.mem_singleton.mp hx]
        obtain ⟨i, call, -, hi, hmessage, hphase⟩ := hw.current _ _ hreturned
        have hphase : call.phase = .returned outcome := by
          cases hcase : call.phase with
          | returned outcome' =>
            rw [hcase] at hphase
            rw [Phase.returned.inj hphase]
          | _ =>
            rw [hcase] at hphase
            exact absurd hphase (by simp [seen])
        have htold := (hw.remembered.calls call (List.mem_of_getElem? hi)).returned outcome hphase
        exact hmessage ▸ htold
  · intro message phase hsome
    exact absurd (hcall.symm.trans hsome) (by simp)

theorem joined_consume {w w' : World} (hw : Joined codec partitionFor w)
    {a : ConsumerOffsets.Action} (h : consume codec maxAttempts w a = some w') :
    Joined codec partitionFor w' := by
  have hnext : ∀ {w'' : World}, (ConsumerOffsets.step (projector codec maxAttempts) w.group a).map
      (fun group => { w with group }) = some w'' →
      ∃ group, ConsumerOffsets.step (projector codec maxAttempts) w.group a = some group ∧
        w'' = { w with group } := by
    intro w'' h
    obtain ⟨group, hgroup, rfl⟩ := Option.map_eq_some_iff.mp h
    exact ⟨group, hgroup, rfl⟩
  cases a with
  | start =>
    obtain ⟨group, hgroup, rfl⟩ := hnext h
    exact joined_consumed hw (by simp) hgroup _
  | getmany counts =>
    obtain ⟨group, hgroup, rfl⟩ := hnext h
    exact joined_consumed hw (by simp) hgroup _
  | finish =>
    obtain ⟨group, hgroup, rfl⟩ := hnext h
    exact joined_consumed hw (by simp) hgroup _
  | commit =>
    obtain ⟨group, hgroup, rfl⟩ := hnext h
    exact joined_consumed hw (by simp) hgroup _
  | commitFailed stored =>
    obtain ⟨group, hgroup, rfl⟩ := hnext h
    exact joined_consumed hw (by simp) hgroup _
  | crash =>
    simp only [consume, Option.map_map] at h
    obtain ⟨group, hgroup, rfl⟩ := Option.map_eq_some_iff.mp h
    exact joined_consumed hw (by simp) hgroup none
  | _ => exact absurd h (by simp [consume])

theorem counted_grows {t t' : ActivityCounts.World} {a : ActivityCounts.Action}
    (h : ActivityCounts.step (projector codec maxAttempts) t a = some t') :
    t.counted ⊆ t'.counted := by
  cases a with
  | deliver message =>
    obtain rfl := Option.some.inj h
    exact List.Subset.refl _
  | move i m =>
    simp only [ActivityCounts.step] at h
    split at h
    · exact absurd h (by simp)
    · cases moved_of_stepCall h with
      | committed event n row write phase hm hphase hharmless =>
        exact List.subset_append_left _ _
      | _ => exact List.Subset.refl _
  | foreign row =>
    obtain ⟨-, h⟩ := Option.ite_none_right_eq_some.mp h
    obtain rfl := Option.some.inj h
    exact List.Subset.refl _

/-- A call that moves keeps its message. -/
theorem messages_moved {t t' : ActivityCounts.World} {i : ℕ} {call : Call} {phase : Phase Txn}
    {P : IncomingMessage → Prop} (ht : ∀ c ∈ t.calls, P c.message) (hi : t.calls[i]? = some call)
    (hcalls : t'.calls = t.calls.set i { call with phase }) : ∀ c ∈ t'.calls, P c.message := by
  intro c hc
  rw [hcalls] at hc
  rcases Processes.mem_set_cases hc with rfl | ⟨j, -, hj⟩
  · exact ht call (List.mem_of_getElem? hi)
  · exact ht c (List.mem_of_getElem? hj)

theorem joined_attempt {w w' : World} (hw : Joined codec partitionFor w) {m : Move}
    {stored : Bool} (h : attempt codec maxAttempts w m stored = some w') :
    Joined codec partitionFor w' := by
  obtain ⟨i, hcurrent, h⟩ := Option.bind_eq_some_iff.mp h
  obtain ⟨call, hi, h⟩ := Option.bind_eq_some_iff.mp h
  obtain ⟨tables, htables, h⟩ := Option.bind_eq_some_iff.mp h
  have hremembered := remembered_step hw.remembered htables
  have houtcomes : ∀ x ∈ w.group.outcomes, Told codec tables.counted x.1 x.2 :=
    fun x hx => (hw.outcomes x hx).mono (counted_grows htables)
  simp only [ActivityCounts.step, hi] at htables
  obtain ⟨phase', hcalls, hquiet, hreports⟩ := moved_together stored htables
  have hmessages := messages_moved (P := ConsumerOffsets.FromLog w.group.log) hw.messages hi hcalls
  have hnew : tables.calls[i]? = some { call with phase := phase' } := by
    rw [hcalls]
    exact List.getElem?_set_self (List.getElem?_eq_some_iff.mp hi).1
  have hbefore : ∀ message phase, callOf w.group.consumer = some (message, phase) →
      call.message = message ∧ seen call.phase = phase := by
    intro message phase hsome
    obtain ⟨j, call', hj, hcall', hmessage, hphase⟩ := hw.current message phase hsome
    obtain rfl := Option.some.inj (hcurrent.symm.trans hj)
    obtain rfl := Option.some.inj (hi.symm.trans hcall')
    exact ⟨hmessage, hphase⟩
  split at h
  · rename_i hlearns
    obtain rfl := Option.some.inj h
    refine { hw with
      remembered := hremembered, messages := hmessages, outcomes := houtcomes, current := ?_ }
    intro message phase hsome
    obtain ⟨hmessage, hphase⟩ := hbefore message phase hsome
    exact ⟨i, _, hcurrent, hnew, hmessage, (hquiet hlearns).trans hphase⟩
  · rename_i a hlearns
    obtain ⟨group, hgroup, h⟩ := Option.bind_eq_some_iff.mp h
    obtain rfl := Option.some.inj h
    have hgood := good_group hw.good hgroup
    obtain ⟨hlog, hsame, hcall⟩ := reported hlearns hgroup
    refine joined_group hw hgood hlog hremembered hmessages (hsame ▸ houtcomes) ?_
    intro message phase hsome
    rcases hcall with hnone | ⟨message', phase₀, phase₁, hold, hafter, hmoved⟩
    · exact absurd (hnone.symm.trans hsome) (by simp)
    · obtain ⟨rfl, rfl⟩ := Prod.mk.inj (Option.some.inj (hafter.symm.trans hsome))
      obtain ⟨hmessage, rfl⟩ := hbefore _ _ hold
      exact ⟨i, _, hcurrent, hnew, hmessage, (hreports a _ hlearns hmoved).symm⟩

theorem joined_take {w w' : World} (hw : Joined codec partitionFor w)
    (h : take codec maxAttempts w = some w') : Joined codec partitionFor w' := by
  obtain ⟨group, hgroup, h⟩ := Option.bind_eq_some_iff.mp h
  have hgood := good_group hw.good hgroup
  obtain ⟨hlog, hsame, hcall⟩ := taken hgroup
  split at h
  · rename_i processed message phase todo hconsumer
    obtain ⟨tables, htables, h⟩ := Option.bind_eq_some_iff.mp h
    obtain rfl := Option.some.inj h
    have hremembered := remembered_step hw.remembered htables
    obtain rfl := Option.some.inj htables
    have hphase : phase = Phase.begin (projector codec maxAttempts) () message := by
      rw [hconsumer] at hcall
      rcases hcall with hnone | ⟨m, hm⟩
      · exact absurd hnone (by simp [callOf])
      · obtain ⟨rfl, hphase⟩ := Prod.mk.inj (Option.some.inj hm)
        exact hphase
    refine joined_group hw hgood hlog hremembered ?_ (hsame ▸ hw.outcomes) ?_
    · intro call hcall
      rcases List.mem_append.mp hcall with hcall | hcall
      · exact hw.messages call hcall
      · rw [List.mem_singleton.mp hcall, ← hlog]
        exact ((hgood.batch _ _ _ hconsumer).call message phase rfl).1
    · intro message' phase' hsome
      rw [hconsumer] at hsome
      obtain ⟨rfl, rfl⟩ := Prod.mk.inj (Option.some.inj hsome)
      refine ⟨w.tables.calls.length,
        ⟨message, Phase.begin (projector codec maxAttempts) .begun message⟩, rfl,
        List.getElem?_concat_length, rfl, ?_⟩
      rw [hphase]
      exact seen_begin _ message
  · rename_i hnone
    obtain rfl := Option.some.inj h
    refine joined_group hw hgood hlog hw.remembered hw.messages (hsame ▸ hw.outcomes) ?_
    intro message phase hsome
    cases hconsumer : group.consumer with
    | working processed call todo =>
      rw [hconsumer] at hsome
      exact absurd (hconsumer.trans (by rw [show call = _ from hsome]))
        (hnone processed message phase todo)
    | _ =>
      rw [hconsumer] at hsome
      exact absurd hsome (by simp [callOf])

theorem joined_elsewhere {w w' : World} (hw : Joined codec partitionFor w)
    {a : ActivityCounts.Action} (h : elsewhere codec maxAttempts w a = some w') :
    Joined codec partitionFor w' := by
  have htold : ∀ {tables : ActivityCounts.World},
      ActivityCounts.step (projector codec maxAttempts) w.tables a = some tables →
      Remembered codec tables ∧ ∀ x ∈ w.group.outcomes, Told codec tables.counted x.1 x.2 :=
    fun htables => ⟨remembered_step hw.remembered htables,
      fun x hx => (hw.outcomes x hx).mono (counted_grows htables)⟩
  cases a with
  | deliver message =>
    obtain ⟨hlogged, h⟩ := Option.ite_none_right_eq_some.mp h
    obtain ⟨tables, htables, rfl⟩ := Option.map_eq_some_iff.mp h
    obtain ⟨hremembered, houtcomes⟩ := htold htables
    obtain rfl := Option.some.inj htables
    refine { hw with
      remembered := hremembered, outcomes := houtcomes, messages := ?_, current := ?_ }
    · intro call hcall
      rcases List.mem_append.mp hcall with hcall | hcall
      · exact hw.messages call hcall
      · rw [List.mem_singleton.mp hcall]
        exact fromLog_iff.mp hlogged
    · intro m phase hsome
      obtain ⟨i, call, hcurrent, hi, hrest⟩ := hw.current m phase hsome
      exact ⟨i, call, hcurrent, (List.getElem?_append_left
        (List.getElem?_eq_some_iff.mp hi).1).trans hi, hrest⟩
  | move i m =>
    obtain ⟨hother, h⟩ := Option.ite_none_left_eq_some.mp h
    obtain ⟨tables, htables, rfl⟩ := Option.map_eq_some_iff.mp h
    obtain ⟨hremembered, houtcomes⟩ := htold htables
    simp only [ActivityCounts.step] at htables
    split at htables
    · exact absurd htables (by simp)
    · rename_i call hi
      obtain ⟨phase', hcalls, -⟩ := moved_together false htables
      refine { hw with
        remembered := hremembered
        outcomes := houtcomes
        messages := messages_moved (P := ConsumerOffsets.FromLog w.group.log) hw.messages hi hcalls
        current := ?_ }
      intro message phase hsome
      obtain ⟨j, call', hcurrent, hj, hrest⟩ := hw.current message phase hsome
      have hij : i ≠ j := fun hij => hother (hij ▸ hcurrent)
      refine ⟨j, call', hcurrent, ?_, hrest⟩
      show tables.calls[j]? = some call'
      rw [hcalls, List.getElem?_set_ne hij]
      exact hj
  | foreign row =>
    obtain ⟨tables, htables, rfl⟩ := Option.map_eq_some_iff.mp h
    obtain ⟨hremembered, houtcomes⟩ := htold htables
    obtain ⟨-, htables⟩ := Option.ite_none_right_eq_some.mp htables
    obtain rfl := Option.some.inj htables
    exact { hw with remembered := hremembered, outcomes := houtcomes }

theorem joined_step {w w' : World} {a : Action} (hw : Joined codec partitionFor w)
    (h : step codec maxAttempts partitionFor w a = some w') : Joined codec partitionFor w' := by
  cases a with
  | source a =>
    simp only [step] at h
    split at h
    · exact absurd h (by simp)
    · rename_i hnot
      obtain ⟨source, hsource, rfl⟩ := Option.map_eq_some_iff.mp h
      exact joined_source hw hnot hsource
  | store i k offset acknowledged => exact joined_store hw h
  | consume a => exact joined_consume hw h
  | take => exact joined_take hw h
  | attempt m stored => exact joined_attempt hw h
  | elsewhere a => exact joined_elsewhere hw h

theorem joined_start {w : World} (h : Start w) : Joined codec partitionFor w := by
  refine ⟨EventRelay.kept_start h.source, ConsumerOffsets.good_start h.group, ⟨?_, ?_⟩, ?_, ?_, ?_,
    ?_, ?_⟩
  · rw [h.tables.processed]
    exact fun r hr => absurd hr List.not_mem_nil
  · rw [h.tables.calls]
    exact fun call hcall => absurd hcall List.not_mem_nil
  · intro p r hr
    rw [h.log p] at hr
    exact absurd hr List.not_mem_nil
  · rw [h.source.log]
    exact fun x hx => absurd hx List.not_mem_nil
  · rw [h.tables.calls]
    exact fun call hcall => absurd hcall List.not_mem_nil
  · rw [h.outcomes]
    exact fun x hx => absurd hx List.not_mem_nil
  · intro message phase hsome
    rw [h.group.consumer] at hsome
    exact absurd hsome (by simp [callOf])

section Counting

variable (codec : Codec)

/-- Whatever is read back from the text of the event's envelope is that envelope. -/
def Legible (e : OutboxEvent) : Prop :=
  ∀ event, decode codec (encode (codec.modelDumpJson (envelopeFor e))) = .ok event →
    event = envelopeFor e

/-- The rows of the projector are those of committed events, and its counters follow them. -/
structure Counted (committed : List OutboxEvent) (t : ActivityCounts.World) : Prop where
  rows : ∀ r ∈ t.processed, r.consumer = activityProjector.name →
    ∃ e ∈ committed, r = rowOf (envelopeFor e)
  sound : ∀ envelopeOf : Uuid → EventEnvelope,
    (∀ e ∈ committed, envelopeOf e.eventId = envelopeFor e) → Sound envelopeOf t

end Counting

theorem Counted.mono {committed committed' : List OutboxEvent} {t : ActivityCounts.World}
    (h : Counted committed t) (hsub : committed ⊆ committed') : Counted committed' t :=
  ⟨fun r hr hname => (h.rows r hr hname).imp fun _ he => ⟨hsub he.1, he.2⟩,
    fun envelopeOf hknown => h.sound envelopeOf fun e he => hknown e (hsub he)⟩

theorem mapM_headers (headers : List (String × Bytes)) :
    ((headers.map fun h => (h.1, some h.2)).mapM fun header : String × Option Bytes =>
      header.2.map fun v => (header.1, v)) = some headers := by
  induction headers with
  | nil => rfl
  | cons header headers ih =>
    rw [List.map_cons, List.mapM_cons, ih]
    rfl

/-- A consumer that is given the record has the message that was sent. -/
theorem value_of_recordOf {p : ConsumerOffsets.Partition} {offset : ℕ}
    {message : OutgoingMessage} {m : IncomingMessage}
    (h : ConsumerOffsets.toIncoming p (recordOf offset message) = some m) :
    m.value = message.value := by
  simp only [ConsumerOffsets.toIncoming, recordOf, mapM_headers, Option.bind_eq_bind,
    Option.bind_some, Option.pure_def] at h
  rw [← Option.some.inj h]

theorem value_of_messageFor {e : OutboxEvent} {message : OutgoingMessage}
    (h : messageFor codec e = some message) :
    message.value = encode (codec.modelDumpJson (envelopeFor e)) := by
  obtain ⟨topic, -, rfl⟩ := Option.map_eq_some_iff.mp h
  rfl

/-- What the log delivers is the envelope of a committed event. -/
theorem Joined.origin {w : World} (hw : Joined codec partitionFor w)
    (hlegible : ∀ e ∈ w.source.committed.flatten, Legible codec e) {m : IncomingMessage}
    (hm : ConsumerOffsets.FromLog w.group.log m) {event : EventEnvelope}
    (hdecode : decode codec m.value = .ok event) :
    ∃ e ∈ w.source.committed.flatten, event = envelopeFor e := by
  obtain ⟨r, hr, hincoming⟩ := hm
  obtain ⟨e, he, message, hmessage, -, hrecord⟩ := hw.records _ r hr
  rw [hrecord] at hincoming
  rw [value_of_recordOf hincoming, value_of_messageFor hmessage] at hdecode
  exact ⟨e, he, hlegible e he event hdecode⟩

theorem Joined.counted_step {w : World} (hw : Joined codec partitionFor w)
    (hlegible : ∀ e ∈ w.source.committed.flatten, Legible codec e)
    (hcounted : Counted w.source.committed.flatten w.tables) {a : ActivityCounts.Action}
    (ha : ∀ message, a = .deliver message → ConsumerOffsets.FromLog w.group.log message)
    {tables : ActivityCounts.World}
    (h : ActivityCounts.step (projector codec maxAttempts) w.tables a = some tables) :
    Counted w.source.committed.flatten tables := by
  refine ⟨?_, fun envelopeOf hknown => sound_step (hcounted.sound envelopeOf hknown) ?_ h⟩
  · cases a with
    | deliver message =>
      obtain rfl := Option.some.inj h
      exact hcounted.rows
    | move i m =>
      simp only [ActivityCounts.step] at h
      split at h
      · exact absurd h (by simp)
      · rename_i call hi
        cases moved_of_stepCall h with
        | committed event n row write phase hm hphase hharmless =>
          have hcall := List.mem_of_getElem? hi
          obtain ⟨hdecode, -, hrow⟩ :=
            (hw.remembered.calls call hcall).attempting event n _ hphase
          obtain ⟨e, he, rfl⟩ := hw.origin hlegible (hw.messages call hcall) hdecode
          intro r hr hname
          rcases List.mem_append.mp hr with hr | hr
          · exact hcounted.rows r hr hname
          · exact ⟨e, he, (List.mem_singleton.mp hr).trans (hrow row rfl)⟩
        | _ => exact hcounted.rows
    | foreign row =>
      obtain ⟨⟨hconsumer, -⟩, h⟩ := Option.ite_none_right_eq_some.mp h
      obtain rfl := Option.some.inj h
      intro r hr hname
      rcases List.mem_append.mp hr with hr | hr
      · exact hcounted.rows r hr hname
      · exact absurd (List.mem_singleton.mp hr ▸ hname) hconsumer
  · cases a with
    | deliver message =>
      intro event hdecode
      obtain ⟨e, he, rfl⟩ := hw.origin hlegible (ha message rfl) hdecode
      exact hknown e he
    | move i m => trivial
    | foreign row => trivial

/-- What a step does to the outbox and to the tables of the counters. -/
theorem parts_of_step {w w' : World} (hw : Joined codec partitionFor w) {a : Action}
    (h : step codec maxAttempts partitionFor w a = some w') :
    w.source.committed.flatten ⊆ w'.source.committed.flatten ∧
      (a.isConsuming = true → w'.source = w.source) ∧
      (w'.tables = w.tables ∨ ∃ b,
        (∀ message, b = .deliver message → ConsumerOffsets.FromLog w.group.log message) ∧
        ActivityCounts.step (projector codec maxAttempts) w.tables b = some w'.tables) := by
  cases a with
  | source a =>
    simp only [step] at h
    split at h
    · exact absurd h (by simp)
    · obtain ⟨source, hsource, rfl⟩ := Option.map_eq_some_iff.mp h
      exact ⟨(source_grows hsource).1, fun ha => absurd ha (by simp [Action.isConsuming]), .inl rfl⟩
  | store i k offset acknowledged =>
    simp only [step, store] at h
    split at h
    · obtain ⟨e, he, h⟩ := Option.bind_eq_some_iff.mp h
      obtain ⟨message, hmessage, h⟩ := Option.bind_eq_some_iff.mp h
      obtain ⟨group, hgroup, h⟩ := Option.bind_eq_some_iff.mp h
      cases acknowledged with
      | false =>
        obtain rfl := Option.some.inj h
        exact ⟨List.Subset.refl _, fun _ => rfl, .inl rfl⟩
      | true =>
        obtain ⟨source, hsource, h⟩ := Option.bind_eq_some_iff.mp h
        obtain rfl := Option.some.inj h
        exact ⟨(source_grows hsource).1, fun ha => absurd ha (by simp [Action.isConsuming]),
          .inl rfl⟩
    · exact absurd h (by simp)
  | consume a =>
    have hsame : w'.source = w.source ∧ w'.tables = w.tables := by
      cases a <;> simp only [step, consume, Option.map_map, Option.map_eq_some_iff, reduceCtorEq]
        at h <;> obtain ⟨group, -, rfl⟩ := h <;> exact ⟨rfl, rfl⟩
    rw [hsame.1]
    exact ⟨List.Subset.refl _, fun _ => rfl, .inl hsame.2⟩
  | take =>
    obtain ⟨group, hgroup, h⟩ := Option.bind_eq_some_iff.mp h
    split at h
    · rename_i processed message phase todo hconsumer
      obtain ⟨tables, htables, h⟩ := Option.bind_eq_some_iff.mp h
      obtain rfl := Option.some.inj h
      refine ⟨List.Subset.refl _, fun _ => rfl, .inr ⟨.deliver message, fun m hm => ?_, htables⟩⟩
      obtain rfl := ActivityCounts.Action.deliver.inj hm
      have hgood := good_group hw.good hgroup
      rw [← (taken hgroup).1]
      exact ((hgood.batch _ _ _ hconsumer).call message phase rfl).1
    · obtain rfl := Option.some.inj h
      exact ⟨List.Subset.refl _, fun _ => rfl, .inl rfl⟩
  | attempt m stored =>
    obtain ⟨i, hcurrent, h⟩ := Option.bind_eq_some_iff.mp h
    obtain ⟨call, hi, h⟩ := Option.bind_eq_some_iff.mp h
    obtain ⟨tables, htables, h⟩ := Option.bind_eq_some_iff.mp h
    have hmove : ∀ message, ActivityCounts.Action.move i m = .deliver message →
        ConsumerOffsets.FromLog w.group.log message := fun message h => absurd h (by simp)
    split at h
    · obtain rfl := Option.some.inj h
      exact ⟨List.Subset.refl _, fun _ => rfl, .inr ⟨_, hmove, htables⟩⟩
    · obtain ⟨group, -, h⟩ := Option.bind_eq_some_iff.mp h
      obtain rfl := Option.some.inj h
      exact ⟨List.Subset.refl _, fun _ => rfl, .inr ⟨_, hmove, htables⟩⟩
  | elsewhere a =>
    cases a with
    | deliver message =>
      obtain ⟨hlogged, h⟩ := Option.ite_none_right_eq_some.mp h
      obtain ⟨tables, htables, rfl⟩ := Option.map_eq_some_iff.mp h
      refine ⟨List.Subset.refl _, fun _ => rfl, .inr ⟨_, fun m hm => ?_, htables⟩⟩
      obtain rfl := ActivityCounts.Action.deliver.inj hm
      exact fromLog_iff.mp hlogged
    | move i m =>
      obtain ⟨-, h⟩ := Option.ite_none_left_eq_some.mp h
      obtain ⟨tables, htables, rfl⟩ := Option.map_eq_some_iff.mp h
      exact ⟨List.Subset.refl _, fun _ => rfl, .inr ⟨_, fun m hm => absurd hm (by simp), htables⟩⟩
    | foreign row =>
      obtain ⟨tables, htables, rfl⟩ := Option.map_eq_some_iff.mp h
      exact ⟨List.Subset.refl _, fun _ => rfl, .inr ⟨_, fun m hm => absurd hm (by simp), htables⟩⟩

/-- Every reachable state joins its parts, and counts what has committed if it can read it. -/
theorem reachable_joined {w : World}
    (hw : (pipeline codec maxAttempts partitionFor).Reachable w) :
    Joined codec partitionFor w ∧ ((∀ e ∈ w.source.committed.flatten, Legible codec e) →
      Counted w.source.committed.flatten w.tables) := by
  refine (pipeline codec maxAttempts partitionFor).reachable_invariant
    (fun w => Joined codec partitionFor w ∧ ((∀ e ∈ w.source.committed.flatten, Legible codec e) →
      Counted w.source.committed.flatten w.tables)) ?_ ?_ hw
  · intro w hstart
    refine ⟨joined_start hstart, fun _ => ⟨?_, fun _ _ => sound_start hstart.tables⟩⟩
    rw [hstart.tables.processed]
    exact fun r hr => absurd hr List.not_mem_nil
  · rintro w a w' ⟨hjoined, hcounts⟩ hstep
    refine ⟨joined_step hjoined hstep, fun hlegible => ?_⟩
    obtain ⟨hgrows, -, htables⟩ := parts_of_step hjoined hstep
    have hbefore : ∀ e ∈ w.source.committed.flatten, Legible codec e :=
      fun e he => hlegible e (hgrows he)
    have hcounted := hcounts hbefore
    rcases htables with hsame | ⟨b, hb, htables⟩
    · rw [hsame]
      exact hcounted.mono hgrows
    · exact (hjoined.counted_step hbefore hcounted hb htables).mono hgrows

/-- The event is one that the counter of this organization and day is to count. -/
def concerns (org : Uuid) (day : ℤ) (counter : Counter) (e : OutboxEvent) : Bool :=
  decide (e.organizationId = org ∧ counterByType e.eventType = some counter ∧
    utcDate e.occurredAt = some day)

section Accounting

variable (codec : Codec) (partitionFor : String → Bytes → ℕ) (w : World)

/-- A record of the event is still before the consumer. -/
def Waiting (e : OutboxEvent) : Prop :=
  ∃ p, ∃ r ∈ w.group.log p, w.group.committed p ≤ r.offset ∧
    RecordOf codec partitionFor w.source.committed.flatten p r e

/-- The copy of a record of the event is on a dead-letter topic. -/
def DeadLettered (e : OutboxEvent) : Prop :=
  ∃ p, ∃ r ∈ w.group.log p, RecordOf codec partitionFor w.source.committed.flatten p r e ∧
    ∃ m error attempts, ConsumerOffsets.toIncoming p r = some m ∧
      deadLetter activityProjector m error attempts ∈ w.group.deadLetters

end Accounting

/-- The envelopes of events with different ids, by their id. -/
theorem exists_envelopeOf {events : List OutboxEvent}
    (hids : (events.map OutboxEvent.eventId).Nodup) :
    ∃ envelopeOf : Uuid → EventEnvelope, ∀ e ∈ events, envelopeOf e.eventId = envelopeFor e := by
  refine ⟨fun id => ((events.find? fun e => e.eventId = id).map envelopeFor).getD exampleEvent,
    fun e he => ?_⟩
  have hfind : (events.find? fun e' => e'.eventId = e.eventId) = some e := by
    cases hcase : events.find? fun e' => e'.eventId = e.eventId with
    | none => exact absurd (decide_eq_true rfl) (List.find?_eq_none.mp hcase e he)
    | some e' =>
      have hid := List.find?_some hcase
      simp only [decide_eq_true_eq] at hid
      rw [List.inj_on_of_nodup_map hids (List.mem_of_find?_eq_some hcase) he hid]
  simp only [hfind, Option.map_some, Option.getD_some]

theorem mem_eventTypes_of_counter {eventType : String}
    (h : (counterByType eventType).isSome = true) : eventType ∈ activityProjector.eventTypes := by
  obtain ⟨counter, hcounter⟩ := Option.isSome_iff_exists.mp h
  obtain ⟨before, after, heq, -⟩ := List.lookup_eq_some_iff.mp hcounter
  refine List.mem_map.mpr ⟨(eventType, counter), ?_, rfl⟩
  rw [heq]
  exact List.mem_append_right _ List.mem_cons_self

/-- A counter is the number of committed events for it that have been counted. -/
theorem stored_eq {w : World} (hw : Joined codec partitionFor w)
    (hcounted : Counted w.source.committed.flatten w.tables)
    (hids : (w.source.committed.flatten.map OutboxEvent.eventId).Nodup) (org : Uuid) (day : ℤ)
    (counter : Counter) : stored w.tables.activity org day counter =
      (w.source.committed.flatten.filter fun e =>
        concerns org day counter e && decide (e.eventId ∈ w.tables.counted)).length := by
  obtain ⟨envelopeOf, hknown⟩ := exists_envelopeOf hids
  have hsound := hcounted.sound envelopeOf hknown
  rw [hsound.counts, ← distinctEvents_eq hsound, distinctEvents,
    ← List.length_map OutboxEvent.eventId]
  refine List.Perm.length_eq ((List.perm_ext_iff_of_nodup (List.nodup_dedup _)
    ((List.filter_sublist.map _).nodup hids)).mpr fun id => ?_)
  rw [List.mem_dedup]
  constructor
  · intro hid
    obtain ⟨r, hr, rfl⟩ := List.mem_map.mp hid
    obtain ⟨hr, hmatching⟩ := List.mem_filter.mp hr
    obtain ⟨hname, horg, htype, hday⟩ := of_decide_eq_true hmatching
    have hmem := hw.remembered.counted r hr hname
    obtain ⟨e, he, rfl⟩ := hcounted.rows r hr hname
    rw [show (rowOf (envelopeFor e)).eventId = e.eventId from rfl, hknown e he] at hday
    refine List.mem_map.mpr ⟨e, List.mem_filter.mpr ⟨he, ?_⟩, rfl⟩
    rw [Bool.and_eq_true]
    exact ⟨decide_eq_true ⟨horg, htype, hday⟩, decide_eq_true hmem⟩
  · intro hid
    obtain ⟨e, he, rfl⟩ := List.mem_map.mp hid
    obtain ⟨he, hboth⟩ := List.mem_filter.mp he
    rw [Bool.and_eq_true] at hboth
    obtain ⟨horg, htype, hday⟩ := of_decide_eq_true hboth.1
    have hmem := of_decide_eq_true hboth.2
    rw [hsound.counted] at hmem
    obtain ⟨r, hr, hrid⟩ := List.mem_map.mp hmem
    obtain ⟨hr, hname⟩ := List.mem_filter.mp hr
    have hname := of_decide_eq_true hname
    obtain ⟨e', he', rfl⟩ := hcounted.rows r hr hname
    obtain rfl : e' = e := List.inj_on_of_nodup_map hids he' he hrid
    refine List.mem_map.mpr ⟨_, List.mem_filter.mpr ⟨hr, decide_eq_true ⟨hname, horg, htype, ?_⟩⟩,
      rfl⟩
    rw [show (rowOf (envelopeFor e')).eventId = e'.eventId from rfl, hknown e' he']
    exact hday

/-- A committed event that is to be counted has not got lost. -/
theorem accounted {w : World} (hw : Joined codec partitionFor w)
    (hlegible : ∀ e ∈ w.source.committed.flatten, Legible codec e) {e : OutboxEvent}
    (he : e ∈ w.source.committed.flatten) (hcounter : (counterByType e.eventType).isSome = true) :
    e ∈ w.source.outbox ∨ Waiting codec partitionFor w e ∨ e.eventId ∈ w.tables.counted ∨
      DeadLettered codec partitionFor w e := by
  rcases hw.kept.kept e he with hout | ⟨message, hlog⟩
  · exact .inl hout
  · have hmessage := (hw.kept.log _ hlog).1
    obtain ⟨r, hr, hrecord⟩ := hw.published _ hlog
    have hof : RecordOf codec partitionFor w.source.committed.flatten
        (placeOf partitionFor message) r e := ⟨he, message, hmessage, rfl, hrecord⟩
    by_cases hoffset : w.group.committed (placeOf partitionFor message) ≤ r.offset
    · exact .inr (.inl ⟨_, r, hr, hoffset, hof⟩)
    obtain ⟨m, hincoming, hsettled⟩ := hw.good.accounted _ r hr (Nat.lt_of_not_le hoffset)
    have hvalue : m.value = encode (codec.modelDumpJson (envelopeFor e)) := by
      rw [hrecord] at hincoming
      rw [value_of_recordOf hincoming, value_of_messageFor hmessage]
    have hcounted : (∃ event, decode codec m.value = .ok event ∧ event.id ∈ w.tables.counted) →
        e.eventId ∈ w.tables.counted := by
      rintro ⟨event, hdecode, hmem⟩
      rw [hvalue] at hdecode
      rwa [hlegible e he event hdecode] at hmem
    rcases hsettled with (hhandled | hduplicate | hignored) | ⟨error, attempts, hletter⟩
    · exact .inr (.inr (.inl (hcounted (hw.outcomes _ hhandled))))
    · exact .inr (.inr (.inl (hcounted (hw.outcomes _ hduplicate))))
    · obtain ⟨event, hdecode, htype⟩ := hw.outcomes _ hignored
      rw [hvalue] at hdecode
      rw [hlegible e he event hdecode] at htype
      exact absurd (mem_eventTypes_of_counter hcounter) htype
    · exact .inr (.inr (.inr ⟨_, r, hr, hof, m, error, attempts, hincoming, hletter⟩))

/-- A counter is the number of committed changes of its day that have been counted, each
at most once. A change that is not counted is in the outbox, before the consumer or on a
dead-letter topic; where an organization has no such change its counters are exact. -/
theorem activity_accounts (codec : Codec) (maxAttempts : ℕ) (partitionFor : String → Bytes → ℕ)
    {w : World} (hw : (pipeline codec maxAttempts partitionFor).Reachable w)
    (hids : (w.source.committed.flatten.map OutboxEvent.eventId).Nodup)
    (hlegible : ∀ e ∈ w.source.committed.flatten, Legible codec e) :
    (∀ org day counter, stored w.tables.activity org day counter =
      (w.source.committed.flatten.filter fun e =>
        concerns org day counter e && decide (e.eventId ∈ w.tables.counted)).length) ∧
    w.tables.counted.Nodup ∧
    (∀ e ∈ w.source.committed.flatten, (counterByType e.eventType).isSome = true →
      e ∈ w.source.outbox ∨ Waiting codec partitionFor w e ∨ e.eventId ∈ w.tables.counted ∨
        DeadLettered codec partitionFor w e) ∧
    ∀ org, (∀ e ∈ w.source.committed.flatten, e.organizationId = org →
        (counterByType e.eventType).isSome = true →
        e ∉ w.source.outbox ∧ ¬Waiting codec partitionFor w e ∧
          ¬DeadLettered codec partitionFor w e) →
      ∀ day counter, stored w.tables.activity org day counter =
        (w.source.committed.flatten.filter (concerns org day counter)).length := by
  obtain ⟨hjoined, hcounts⟩ := reachable_joined hw
  have hcounted := hcounts hlegible
  obtain ⟨envelopeOf, hknown⟩ := exists_envelopeOf hids
  refine ⟨stored_eq hjoined hcounted hids, nodup_counted (hcounted.sound envelopeOf hknown),
    fun e he hcounter => accounted hjoined hlegible he hcounter, ?_⟩
  intro org hdone day counter
  rw [stored_eq hjoined hcounted hids]
  refine congrArg List.length (List.filter_congr fun e he => ?_)
  cases hconcerns : concerns org day counter e with
  | false => rfl
  | true =>
    obtain ⟨horg, hcounter, -⟩ := of_decide_eq_true hconcerns
    have hcounted := Option.isSome_iff_exists.mpr ⟨counter, hcounter⟩
    obtain ⟨hout, hwaiting, hletter⟩ := hdone e he horg hcounted
    have hmem := accounted hjoined hlegible he hcounted
    have hmem := ((hmem.resolve_left hout).resolve_left hwaiting).resolve_right hletter
    rw [decide_eq_true hmem]
    rfl

def exampleStart : World where
  source := EventRelay.exampleStart
  group := ⟨fun _ => [], fun _ => 0, fun _ => 0, .stopped, [], [], [], []⟩
  tables := ActivityCounts.exampleStart
  current := none

/-- A document is captured and its event published; the acknowledgement is lost, and the
event is published again. -/
def exampleRelaying : List Action :=
  [.source (.begin 0), .source (.write 0 .insert EventRelay.exampleRow 7), .source (.commit 0),
   .source .startRelay, .source (.claim 0 200 none), .source (.publish 0), .store 0 0 5 false,
   .source (.fail 0), .source (.claim 0 200 none), .source (.publish 0), .store 0 0 6 true,
   .source (.delete 0), .source (.finish 0)]

/-- Both records are handed to the projector, and the offsets are committed. -/
def exampleConsuming : List Action :=
  [.consume .start, .consume (.getmany [((evidenceTopic, 0), 2)]), .take, .attempt .claim false,
   .attempt .handle false, .attempt .commit false, .consume .finish, .take,
   .attempt .claim false, .attempt .commit false, .consume .finish, .consume .commit]

def exampleRow : OutboxEvent := ⟨1, 7, 1, "evidence.captured", 9, exampleData, 0⟩

theorem exampleRelaying_committed : ((pipeline exampleCodec 3 fun _ _ => 0).run exampleStart
    exampleRelaying).map (fun w => w.source.committed) = some [[exampleRow]] := rfl

theorem exampleConsuming_counts : ((pipeline exampleCodec 3 fun _ _ => 0).run exampleStart
    (exampleRelaying ++ exampleConsuming)).any (fun w => decide (w.source.outbox.length = 0 ∧
      w.group.committed (evidenceTopic, 0) = 7 ∧ w.tables.counted = [7] ∧
      stored w.tables.activity 1 0 .evidenceCaptured = 1)) = true := by
  decide +kernel

theorem activity_accounts_example : ∃ w,
    (pipeline exampleCodec 3 fun _ _ => 0).Reachable w ∧ w.source.committed = [[exampleRow]] ∧
    w.source.outbox.length = 0 ∧ w.tables.counted = [7] ∧
    stored w.tables.activity 1 0 .evidenceCaptured =
      ([exampleRow].filter fun e =>
        concerns 1 0 .evidenceCaptured e && decide (e.eventId ∈ w.tables.counted)).length := by
  obtain ⟨w, hrun, hw⟩ := (Option.any_eq_true _ _).mp exampleConsuming_counts
  obtain ⟨hout, -, hcounted, -⟩ := of_decide_eq_true hw
  have hstart : Start exampleStart := by
    refine ⟨⟨rfl, rfl, rfl, rfl, rfl, rfl⟩, ⟨fun _ => List.Pairwise.nil, fun _ => rfl, rfl, rfl⟩,
      fun _ => rfl, rfl, rfl, ⟨rfl, rfl, rfl, rfl⟩⟩
  have hreach : (pipeline exampleCodec 3 fun _ _ => 0).Reachable w := ⟨_, _, hstart, hrun⟩
  have hcommitted : w.source.committed = [[exampleRow]] := by
    rw [Transition.System.run_append] at hrun
    obtain ⟨v, hv, hrest⟩ := Option.bind_eq_some_iff.mp hrun
    have hbefore : v.source.committed = [[exampleRow]] := by
      have hmap := exampleRelaying_committed
      rw [hv] at hmap
      exact Option.some.inj hmap
    have hinv := (pipeline exampleCodec 3 fun _ _ => 0).run_preserves_of_meets
      (fun _ a => a.isConsuming = true)
      (fun u => Joined exampleCodec (fun _ _ => 0) u ∧ u.source.committed = [[exampleRow]])
      (fun u a u' hu ha hstep => ⟨joined_step hu.1 hstep, by
        rw [(parts_of_step hu.1 hstep).2.1 ha]
        exact hu.2⟩) hrest
      (Transition.System.runMeets_of_forall _ fun a ha _ => List.all_eq_true.mp
        (show exampleConsuming.all Action.isConsuming = true from rfl) a ha)
      ⟨(reachable_joined ⟨_, _, hstart, hv⟩).1, hbefore⟩
    exact hinv.2
  have hlegible : ∀ e ∈ w.source.committed.flatten, Legible exampleCodec e := by
    rw [hcommitted]
    intro e he event hdecode
    obtain rfl : e = exampleRow := by simpa using he
    exact eq_exampleEvent_of_decode hdecode
  have haccounts := (activity_accounts exampleCodec 3 (fun _ _ => 0) hreach
    (by rw [hcommitted]; decide) hlegible).1 1 0 .evidenceCaptured
  rw [hcommitted] at haccounts
  exact ⟨w, hreach, hcommitted, hout, hcounted, haccounts⟩

end ContextLedger.ActivityAccounts
