import ContextLedger.EventRelay

/-!
The order in which one relay publishes an organization's events of a topic. It
publishes by number, and numbers are drawn before the transactions commit: two
transactions that overlap can commit in the other order, and if both are in the
outbox when the relay comes, their events are swapped. If every transaction commits
only after the events with larger numbers that committed before it have been
acknowledged, first publications are in the order of the commits.
-/
namespace ContextLedger.RelayOrder

open Values Events EventRelay

/-- The first event's transaction committed before the second's. -/
def Earlier (committed : List (List OutboxEvent)) (e e' : OutboxEvent) : Prop :=
  ∃ before rows after, committed = before ++ rows :: after ∧ e ∈ before.flatten ∧ e' ∈ rows

theorem Earlier.mem {committed : List (List OutboxEvent)} {e e' : OutboxEvent}
    (h : Earlier committed e e') : e ∈ committed.flatten ∧ e' ∈ committed.flatten := by
  obtain ⟨before, rows, after, rfl, he, he'⟩ := h
  rw [List.flatten_append, List.flatten_cons]
  exact ⟨List.mem_append_left _ he, List.mem_append_right _ (List.mem_append_left _ he')⟩

theorem earlier_append {committed : List (List OutboxEvent)} {rows : List OutboxEvent}
    {e e' : OutboxEvent} : Earlier (committed ++ [rows]) e e' ↔
      Earlier committed e e' ∨ e ∈ committed.flatten ∧ e' ∈ rows := by
  constructor
  · rintro ⟨before, rows', after, heq, he, he'⟩
    rcases List.eq_nil_or_concat after with rfl | ⟨after, last, rfl⟩
    · obtain ⟨rfl, hrows⟩ := List.append_inj' heq rfl
      obtain rfl : rows = rows' := by simpa using hrows
      exact Or.inr ⟨he, he'⟩
    · have hsplit : committed ++ [rows] = (before ++ rows' :: after) ++ [last] := by
        rw [heq, List.append_assoc, List.cons_append, List.concat_eq_append]
      obtain ⟨rfl, -⟩ := List.append_inj' hsplit rfl
      exact Or.inl ⟨before, rows', after, rfl, he, he'⟩
  · rintro (⟨before, rows', after, rfl, he, he'⟩ | ⟨he, he'⟩)
    · exact ⟨before, rows', after ++ [rows], by simp, he, he'⟩
    · exact ⟨committed, rows, [], rfl, he, he'⟩

/-- Both events go to one topic of one organization. -/
def SameStream (e e' : OutboxEvent) : Prop :=
  e.organizationId = e'.organizationId ∧ topicFor e.eventType = topicFor e'.eventType

instance (e e' : OutboxEvent) : Decidable (SameStream e e') :=
  inferInstanceAs (Decidable (_ ∧ _))

/-- The acknowledged events, by number, in the order of the acknowledgements. -/
def sentIds (w : World) : List ℕ := w.log.map fun x => x.1.id

/-- What an organization's partition of a topic shows of its events. -/
def partitionIds (w : World) (org : Uuid) (topic : String) : List ℕ :=
  (w.log.filter fun x => x.1.organizationId = org ∧ x.2.topic = topic).map fun x => x.1.id

/-- First occurrences are in the order in which the transactions committed. -/
def InOrder (w : World) : Prop :=
  ∀ org topic e e', Earlier w.committed e e' → e.id ∈ partitionIds w org topic →
    e'.id ∈ partitionIds w org topic →
    (partitionIds w org topic).idxOf e.id < (partitionIds w org topic).idxOf e'.id

/-- There is one relay, and it sees its messages acknowledged in their order. -/
def OneRelay (w : World) : Action → Prop
  | .startRelay => w.relays.length = 0
  | .acknowledge _ k => k = 0
  | _ => True

/-- A transaction commits when no event that committed before it, has a larger number
and goes to the same topic of the same organization is still without acknowledgement. -/
def Orderly (w : World) : Action → Prop
  | .commit i => ∀ e' ∈ (w.writers[i]?).elim [] Writer.rows, ∀ e ∈ w.committed.flatten,
      SameStream e e' → e.id ∉ sentIds w → e.id < e'.id
  | _ => True

instance (w : World) : DecidablePred (OneRelay w) := fun a =>
  match a with
  | .startRelay => inferInstanceAs (Decidable (w.relays.length = 0))
  | .acknowledge _ k => inferInstanceAs (Decidable (k = 0))
  | .begin _ => isTrue trivial
  | .write _ _ _ _ => isTrue trivial
  | .commit _ => isTrue trivial
  | .rollBack _ => isTrue trivial
  | .claim _ _ _ => isTrue trivial
  | .publish _ => isTrue trivial
  | .delete _ => isTrue trivial
  | .finish _ => isTrue trivial
  | .finishFailed _ _ => isTrue trivial
  | .fail _ => isTrue trivial

instance (w : World) : DecidablePred (Orderly w) := fun a =>
  match a with
  | .commit i => inferInstanceAs (Decidable (∀ e' ∈ (w.writers[i]?).elim [] Writer.rows,
      ∀ e ∈ w.committed.flatten, SameStream e e' → e.id ∉ sentIds w → e.id < e'.id))
  | .startRelay => isTrue trivial
  | .acknowledge _ _ => isTrue trivial
  | .begin _ => isTrue trivial
  | .write _ _ _ _ => isTrue trivial
  | .rollBack _ => isTrue trivial
  | .claim _ _ _ => isTrue trivial
  | .publish _ => isTrue trivial
  | .delete _ => isTrue trivial
  | .finish _ => isTrue trivial
  | .finishFailed _ _ => isTrue trivial
  | .fail _ => isTrue trivial

/-- The batch of a relay: in the order of the numbers, with everything that committed
before one of its events and has a smaller number; acknowledged from the front. -/
structure BatchOk (w : World) (events : List OutboxEvent) : Prop where
  sorted : events.Pairwise fun e e' => e.id < e'.id
  closed : ∀ e' ∈ events, ∀ e ∈ w.outbox, Earlier w.committed e e' → SameStream e e' →
    e.id < e'.id → e ∈ events

def RelayOk (w : World) (relay : Relay) : Prop :=
  BatchOk w relay.held ∧ ∀ events left, relay = .publishing events left →
    ∃ done, events = done ++ left ∧ ∀ e ∈ done, e.id ∈ sentIds w

structure Ordered (codec : Codec) (w : World) : Prop where
  kept : Kept codec w
  single : w.relays.length ≤ 1
  waiting : ∀ e e', Earlier w.committed e e' → SameStream e e' → e.id ∉ sentIds w →
    e'.id ∉ sentIds w → e.id < e'.id
  logged : ∀ before x after, w.log = before ++ x :: after → ∀ e, Earlier w.committed e x.1 →
    SameStream e x.1 → ∃ y ∈ before, y.1.id = e.id
  relays : ∀ relay ∈ w.relays, RelayOk w relay

variable {codec : Codec}

theorem mem_sentIds_of_acknowledged {w : World} {e : OutboxEvent} (h : Acknowledged w.log e) :
    e.id ∈ sentIds w := by
  obtain ⟨message, hmem⟩ := h
  exact List.mem_map.mpr ⟨(e, message), hmem, rfl⟩

/-- Two committed events with one number are one event. -/
theorem eq_of_committed {w : World} (hw : Kept codec w) {e e' : OutboxEvent}
    (he : e ∈ w.committed.flatten) (he' : e' ∈ w.committed.flatten) (hid : e.id = e'.id) :
    e = e' := by
  have hids : (w.committed.flatten.map OutboxEvent.id).Nodup := hw.ids.sublist
    (((List.sublist_append_left _ _).trans (List.sublist_append_left _ _)).map _)
  exact List.inj_on_of_nodup_map hids he he' hid

/-- What is neither acknowledged nor lost is in the outbox. -/
theorem mem_outbox_of_waiting {w : World} (hw : Kept codec w) {e : OutboxEvent}
    (he : e ∈ w.committed.flatten) (hwaiting : e.id ∉ sentIds w) : e ∈ w.outbox :=
  (hw.kept e he).resolve_right fun hack => hwaiting (mem_sentIds_of_acknowledged hack)

/-- An acknowledged event has all the earlier ones of its stream acknowledged. -/
theorem Ordered.sent_of_earlier {w : World} (hw : Ordered codec w) {e e' : OutboxEvent}
    (hearlier : Earlier w.committed e e') (hstream : SameStream e e') (he' : e'.id ∈ sentIds w) :
    e.id ∈ sentIds w := by
  obtain ⟨x, hx, hid⟩ := List.mem_map.mp he'
  have heq : x.1 = e' := eq_of_committed hw.kept (hw.kept.log x hx).2 hearlier.mem.2 hid
  obtain ⟨before, after, hlog⟩ := List.append_of_mem hx
  obtain ⟨y, hy, hyid⟩ := hw.logged before x after hlog e (heq ▸ hearlier) (heq ▸ hstream)
  refine List.mem_map.mpr ⟨y, ?_, hyid⟩
  rw [hlog]
  exact List.mem_append_left _ hy

/-- When the next event of the batch is acknowledged, the earlier ones of its stream have been. -/
theorem Ordered.sent_of_next {w : World} (hw : Ordered codec w) {events left : List OutboxEvent}
    {e' : OutboxEvent} (hrelay : Relay.publishing events (e' :: left) ∈ w.relays) {e : OutboxEvent}
    (hearlier : Earlier w.committed e e') (hstream : SameStream e e') : e.id ∈ sentIds w := by
  by_contra hwaiting
  obtain ⟨hbatch, hleft⟩ := hw.relays _ hrelay
  obtain ⟨done, hevents, hdone⟩ := hleft events (e' :: left) rfl
  have hwaiting' : e'.id ∉ sentIds w := fun he' =>
    hwaiting (hw.sent_of_earlier hearlier hstream he')
  have hlt : e.id < e'.id := hw.waiting e e' hearlier hstream hwaiting hwaiting'
  have hmem : e ∈ events := by
    refine hbatch.closed e' ?_ e (mem_outbox_of_waiting hw.kept hearlier.mem.1 hwaiting) hearlier
      hstream hlt
    show e' ∈ events
    rw [hevents]
    exact List.mem_append_right _ List.mem_cons_self
  have hsorted : (done ++ e' :: left).Pairwise fun e e' => e.id < e'.id := hevents ▸ hbatch.sorted
  rw [hevents, List.mem_append, List.mem_cons] at hmem
  rcases hmem with hmem | rfl | hmem
  · exact hwaiting (hdone e hmem)
  · exact lt_irrefl _ hlt
  · have hafter := (List.pairwise_cons.mp (List.pairwise_append.mp hsorted).2.1).1 e hmem
    exact lt_asymm hlt hafter

theorem RelayOk.mono {w w' : World} {relay : Relay} (h : RelayOk w relay)
    (hcommitted : w'.committed = w.committed) (houtbox : ∀ e ∈ w'.outbox, e ∈ w.outbox)
    (hsent : ∀ id ∈ sentIds w, id ∈ sentIds w') : RelayOk w' relay := by
  obtain ⟨hbatch, hleft⟩ := h
  refine ⟨⟨hbatch.sorted, ?_⟩, ?_⟩
  · intro e' he' e he hearlier
    rw [hcommitted] at hearlier
    exact hbatch.closed e' he' e (houtbox e he) hearlier
  · intro events left heq
    obtain ⟨done, hevents, hdone⟩ := hleft events left heq
    exact ⟨done, hevents, fun e he => hsent _ (hdone e he)⟩

/-- The relay changes, and nothing else that the order depends on. -/
theorem Ordered.setRelay {w : World} (hw : Ordered codec w) {i : ℕ} {relay : Relay}
    (hkept : Kept codec (w.setRelay i relay)) (hrelay : RelayOk w relay) :
    Ordered codec (w.setRelay i relay) := by
  refine ⟨hkept, ?_, hw.waiting, hw.logged, ?_⟩
  · show (w.relays.set i relay).length ≤ 1
    rw [List.length_set]
    exact hw.single
  · intro r hr
    rcases Processes.mem_set_cases hr with rfl | ⟨j, -, hj⟩
    · exact hrelay.mono rfl (fun e he => he) fun id hid => hid
    · exact (hw.relays r (List.mem_of_getElem? hj)).mono rfl (fun e he => he) fun id hid => hid

theorem relayOk_idle (w : World) : RelayOk w .idle := by
  refine ⟨⟨List.Pairwise.nil, fun e' he' => absurd he' List.not_mem_nil⟩, ?_⟩
  intro events left heq
  exact absurd heq (by simp)

theorem relayOk_claimed {w : World} (hw : Ordered codec w) {i : ℕ} {relay : Relay}
    (hi : w.relays[i]? = some relay) (batchSize : ℕ) (org : Option Uuid) :
    RelayOk w (.claimed (Outbox.claim OutboxEvent.id w.outbox (w.lockedByOthers i) (eligible org)
      batchSize)) := by
  have hothers : w.lockedByOthers i = [] := by
    obtain ⟨hlt, -⟩ := List.getElem?_eq_some_iff.mp hi
    have hlength := hw.single
    have herase : (w.relays.eraseIdx i).length = 0 := by
      rw [List.length_eraseIdx_of_lt hlt]
      omega
    rw [World.lockedByOthers, List.length_eq_zero_iff.mp herase]
    rfl
  refine ⟨⟨Outbox.pairwise_claim hw.kept.outboxIds _ _ _, ?_⟩, ?_⟩
  · intro e' he' e he _ hstream hlt
    obtain ⟨-, heligible, -⟩ := Outbox.mem_of_mem_claim he'
    refine Outbox.mem_claim_of_lt he' he ?_ ?_ hlt
    · rw [eligible, hstream.1]
      exact heligible
    · rw [hothers]
      exact fun x hx => absurd hx List.not_mem_nil
  · intro events left heq
    exact absurd heq (by simp)

theorem ordered_acknowledged {w : World} (hw : Ordered codec w) {i : ℕ}
    {events left : List OutboxEvent} {e : OutboxEvent} {message : OutgoingMessage}
    (hi : w.relays[i]? = some (.publishing events (e :: left)))
    (hmessage : messageFor codec e = some message) :
    Ordered codec { w with
      log := w.log ++ [(e, message)]
      relays := w.relays.set i (.publishing events left) } := by
  have hrelay := List.mem_of_getElem? hi
  have hsent : ∀ id ∈ sentIds w, id ∈ (w.log ++ [(e, message)]).map fun x => x.1.id := by
    intro id hid
    rw [List.map_append]
    exact List.mem_append_left _ hid
  have hkept := kept_acknowledged (k := 0) hw.kept hi rfl hmessage
  refine ⟨hkept, ?_, ?_, ?_, ?_⟩
  · show (w.relays.set i _).length ≤ 1
    rw [List.length_set]
    exact hw.single
  · intro e₁ e₂ hearlier hstream h₁ h₂
    exact hw.waiting e₁ e₂ hearlier hstream (fun h => h₁ (hsent _ h)) fun h => h₂ (hsent _ h)
  · intro before x after hlog e₁ hearlier hstream
    change w.log ++ [(e, message)] = before ++ x :: after at hlog
    rcases List.eq_nil_or_concat after with rfl | ⟨after, last, rfl⟩
    · obtain ⟨rfl, hx⟩ := List.append_inj' hlog rfl
      obtain rfl : (e, message) = x := by simpa using hx
      exact List.mem_map.mp (hw.sent_of_next hrelay hearlier hstream)
    · have hsplit : w.log ++ [(e, message)] = (before ++ x :: after) ++ [last] := by
        rw [hlog, List.append_assoc, List.cons_append, List.concat_eq_append]
      obtain ⟨hlog', -⟩ := List.append_inj' hsplit rfl
      exact hw.logged before x after hlog' e₁ hearlier hstream
  · intro r hr
    rcases Processes.mem_set_cases hr with rfl | ⟨j, -, hj⟩
    · obtain ⟨hbatch, hleft⟩ := hw.relays _ hrelay
      refine ⟨⟨hbatch.sorted, hbatch.closed⟩, ?_⟩
      rintro events' left' ⟨rfl, rfl⟩
      obtain ⟨done, hevents, hdone⟩ := hleft events (e :: left) rfl
      refine ⟨done ++ [e], by rw [hevents, List.append_assoc, List.singleton_append], ?_⟩
      intro e₁ he₁
      rcases List.mem_append.mp he₁ with he₁ | he₁
      · exact hsent _ (hdone e₁ he₁)
      · rw [List.mem_singleton.mp he₁]
        exact List.mem_map.mpr ⟨(e, message), List.mem_append_right _ (List.mem_singleton_self _),
          rfl⟩
    · exact (hw.relays r (List.mem_of_getElem? hj)).mono rfl (fun e he => he) hsent

theorem ordered_relayed {w w' : World} (hw : Ordered codec w) {i : ℕ} {relay : Relay}
    (hi : w.relays[i]? = some relay) {a : Action} (hone : OneRelay w a)
    (h : Relayed codec w i relay a w') : Ordered codec w' := by
  have hkept := kept_relayed hw.kept hi h
  have hrelay := List.mem_of_getElem? hi
  cases h with
  | gaveUp => exact hw.setRelay hkept (relayOk_idle w)
  | claimed batchSize org events hidle hevents =>
    subst hevents
    exact hw.setRelay hkept (relayOk_claimed hw hi batchSize org)
  | began events hclaimed =>
    subst hclaimed
    refine hw.setRelay hkept ⟨(hw.relays _ hrelay).1, ?_⟩
    rintro events' left ⟨rfl, rfl⟩
    exact ⟨[], rfl, fun e he => absurd he List.not_mem_nil⟩
  | acknowledged k events left e message hpublishing hk hmessage =>
    subst hpublishing
    obtain rfl : k = 0 := hone
    cases left with
    | nil => exact absurd hk (by simp)
    | cons first left =>
      obtain rfl : first = e := Option.some.inj hk
      exact ordered_acknowledged hw hi hmessage
  | deleted events hpublished =>
    subst hpublished
    refine hw.setRelay hkept ⟨(hw.relays _ hrelay).1, ?_⟩
    intro events' left heq
    exact absurd heq (by simp)
  | finished events hdeleted =>
    refine ⟨hkept, ?_, hw.waiting, hw.logged, ?_⟩
    · show (w.relays.set i .idle).length ≤ 1
      rw [List.length_set]
      exact hw.single
    · have houtbox : ∀ e ∈ (w.commitDelete i events).outbox, e ∈ w.outbox :=
        fun e he => (Outbox.mem_delete.mp he).1
      intro r hr
      rcases Processes.mem_set_cases hr with rfl | ⟨j, -, hj⟩
      · exact relayOk_idle _
      · exact (hw.relays r (List.mem_of_getElem? hj)).mono rfl houtbox fun id hid => hid

/-- A row of an open transaction is not one of a committed transaction. -/
theorem not_committed_of_open {w : World} (hw : Kept codec w) {i : ℕ} {now : Instant}
    {rows : List OutboxEvent} (hi : w.writers[i]? = some (.open now rows)) {e : OutboxEvent}
    (he : e ∈ rows) : e ∉ w.committed.flatten := by
  intro hcommitted
  have hids := hw.ids
  rw [World.drawn, List.map_append, List.nodup_append] at hids
  refine hids.2.2 e.id ?_ e.id ?_ rfl
  · exact List.mem_map_of_mem (List.mem_append_left _ hcommitted)
  · exact List.mem_map_of_mem (List.mem_flatMap.mpr ⟨_, List.mem_of_getElem? hi, he⟩)

theorem ordered_committed {w : World} (hw : Ordered codec w) {i : ℕ} {now : Instant}
    {rows : List OutboxEvent} (hi : w.writers[i]? = some (.open now rows))
    (horderly : Orderly w (.commit i)) :
    Ordered codec { w with
      outbox := w.outbox ++ rows
      committed := w.committed ++ [rows]
      writers := w.writers.set i .committed } := by
  have hfresh : ∀ e ∈ rows, e ∉ w.committed.flatten :=
    fun e he => not_committed_of_open hw.kept hi he
  have hearlier : ∀ {e e' : OutboxEvent}, e' ∈ w.committed.flatten →
      Earlier (w.committed ++ [rows]) e e' → Earlier w.committed e e' := by
    intro e e' he' h
    exact (earlier_append.mp h).resolve_right fun hnew => hfresh e' hnew.2 he'
  refine ⟨kept_committed hw.kept hi, hw.single, ?_, ?_, ?_⟩
  · intro e e' h hstream he he'
    rcases earlier_append.mp h with h | ⟨hold, hnew⟩
    · exact hw.waiting e e' h hstream he he'
    · refine horderly e' ?_ e hold hstream he
      rw [hi]
      exact hnew
  · intro before x after hlog e h hstream
    have hx : x ∈ w.log := by
      change w.log = before ++ x :: after at hlog
      rw [hlog]
      exact List.mem_append_right _ List.mem_cons_self
    exact hw.logged before x after hlog e (hearlier (hw.kept.log x hx).2 h) hstream
  · intro relay hrelay
    obtain ⟨hbatch, hleft⟩ := hw.relays relay hrelay
    refine ⟨⟨hbatch.sorted, ?_⟩, hleft⟩
    intro e' he' e he h hstream hlt
    have hheld := hw.kept.outbox e' (hw.kept.held relay hrelay e' he')
    have hbefore := hearlier hheld h
    have hout : e ∈ w.outbox := (List.mem_append.mp he).resolve_right
      fun hnew => hfresh e hnew hbefore.mem.1
    exact hbatch.closed e' he' e hout hbefore hstream hlt

/-- Steps of a writer that commit nothing. -/
theorem Ordered.of_eq {w w' : World} (hw : Ordered codec w) (hkept : Kept codec w')
    (hrelays : w'.relays = w.relays) (hcommitted : w'.committed = w.committed)
    (houtbox : w'.outbox = w.outbox) (hlog : w'.log = w.log) : Ordered codec w' := by
  have hsent : sentIds w' = sentIds w := by rw [sentIds, sentIds, hlog]
  refine ⟨hkept, hrelays ▸ hw.single, ?_, ?_, ?_⟩
  · rw [hcommitted, hsent]
    exact hw.waiting
  · rw [hcommitted, hlog]
    exact hw.logged
  · intro relay hrelay
    rw [hrelays] at hrelay
    refine (hw.relays relay hrelay).mono hcommitted (fun e he => houtbox ▸ he) ?_
    intro id hid
    rw [hsent]
    exact hid

theorem ordered_step {w w' : World} {a : Action} (hw : Ordered codec w)
    (hallowed : OneRelay w a ∧ Orderly w a) (h : step codec w a = some w') :
    Ordered codec w' := by
  have hkept := kept_step hw.kept h
  cases step_cases h with
  | started =>
    have hnone : w.relays = [] := List.length_eq_zero_iff.mp hallowed.1
    refine ⟨hkept, ?_, hw.waiting, hw.logged, ?_⟩
    · show (w.relays ++ [Relay.idle]).length ≤ 1
      rw [hnone]
      exact le_refl 1
    · intro relay hrelay
      change relay ∈ w.relays ++ [Relay.idle] at hrelay
      rw [hnone] at hrelay
      rw [List.mem_singleton.mp hrelay]
      exact relayOk_idle _
  | begun now => exact hw.of_eq hkept rfl rfl rfl rfl
  | silent => exact hw
  | wrote i now rows event hi hid => exact hw.of_eq hkept rfl rfl rfl rfl
  | committed i now rows hi => exact ordered_committed hw hi hallowed.2
  | rolledBack i now rows hi => exact hw.of_eq hkept rfl rfl rfl rfl
  | relayed i relay hi hrelayed => exact ordered_relayed hw hi hallowed.1 hrelayed

theorem ordered_start {w : World} (h : Start w) : Ordered codec w := by
  refine ⟨kept_start h, by rw [h.relays]; exact Nat.zero_le 1, ?_, ?_, ?_⟩
  · intro e e' hearlier
    have hmem := hearlier.mem.1
    rw [h.committed] at hmem
    exact absurd hmem List.not_mem_nil
  · intro before x after hlog
    rw [h.log] at hlog
    exact absurd hlog (by simp)
  · rw [h.relays]
    exact fun relay hrelay => absurd hrelay List.not_mem_nil

/-- If every `b` of the list has an `a` before it, the first `a` is before the first `b`. -/
theorem idxOf_lt_of_split {α : Type*} {l : List α} {p : α → Bool} {f : α → ℕ} {a b : ℕ}
    (hb : b ∈ (l.filter p).map f)
    (h : ∀ before x after, l = before ++ x :: after → p x → f x = b →
      ∃ y ∈ before, p y ∧ f y = a) :
    ((l.filter p).map f).idxOf a < ((l.filter p).map f).idxOf b := by
  obtain ⟨first, rest, hsplit, hfirst⟩ := List.eq_append_cons_of_mem hb
  obtain ⟨shown, shown', hfilter, hshown, hshown'⟩ := List.map_eq_append_iff.mp hsplit
  obtain ⟨before, l', rfl, hbefore, hl'⟩ := List.filter_eq_append_iff.mp hfilter
  obtain ⟨x, xs, hcons, hx, -⟩ := List.map_eq_cons_iff.mp hshown'
  obtain ⟨skipped, after, rfl, hskipped, hpx, -⟩ :=
    List.filter_eq_cons_iff.mp (hl'.trans hcons)
  obtain ⟨y, hy, hpy, hfy⟩ := h (before ++ skipped) x after (by simp) hpx hx
  have hya : a ∈ first := by
    rcases List.mem_append.mp hy with hy | hy
    · rw [← hshown, ← hbefore, ← hfy]
      exact List.mem_map_of_mem (List.mem_filter.mpr ⟨hy, hpy⟩)
    · exact absurd hpy (hskipped y hy)
  rw [hsplit, List.idxOf_append_of_mem hya, List.idxOf_append_of_notMem hfirst]
  exact Nat.lt_add_right _ (List.idxOf_lt_length_iff.mpr hya)

/-- A number in a partition is that of an acknowledged event of its stream. -/
theorem stream_of_mem_partitionIds {w : World} (hw : Kept codec w) {org : Uuid} {topic : String}
    {e : OutboxEvent} (he : e ∈ w.committed.flatten) (h : e.id ∈ partitionIds w org topic) :
    e.organizationId = org ∧ topicFor e.eventType = some topic := by
  obtain ⟨x, hx, hid⟩ := List.mem_map.mp h
  obtain ⟨hlog, hstream⟩ := List.mem_filter.mp hx
  obtain ⟨horg, htopic⟩ := of_decide_eq_true hstream
  obtain ⟨hmessage, hcommitted⟩ := hw.log x hlog
  obtain rfl : x.1 = e := eq_of_committed hw hcommitted he hid
  obtain ⟨t, ht, hx⟩ := Option.map_eq_some_iff.mp hmessage
  refine ⟨horg, ?_⟩
  rw [ht, ← htopic, ← hx]

theorem Ordered.inOrder {w : World} (hw : Ordered codec w) : InOrder w := by
  intro org topic e e' hearlier he he'
  obtain ⟨horg, htopic⟩ := stream_of_mem_partitionIds hw.kept hearlier.mem.1 he
  obtain ⟨horg', htopic'⟩ := stream_of_mem_partitionIds hw.kept hearlier.mem.2 he'
  have hstream : SameStream e e' := ⟨horg.trans horg'.symm, htopic.trans htopic'.symm⟩
  refine idxOf_lt_of_split he' ?_
  intro before x after hlog _ hid
  have hx : x ∈ w.log := by
    rw [hlog]
    exact List.mem_append_right _ List.mem_cons_self
  have heq : x.1 = e' := eq_of_committed hw.kept (hw.kept.log x hx).2 hearlier.mem.2 hid
  obtain ⟨y, hy, hyid⟩ := hw.logged before x after hlog e (heq ▸ hearlier) (heq ▸ hstream)
  have hylog : y ∈ w.log := by
    rw [hlog]
    exact List.mem_append_left _ hy
  obtain ⟨hmessage, hcommitted⟩ := hw.kept.log y hylog
  have hye : y.1 = e := eq_of_committed hw.kept hcommitted hearlier.mem.1 hyid
  refine ⟨y, hy, decide_eq_true ⟨by rw [hye, horg], ?_⟩, hyid⟩
  obtain ⟨t, ht, hsent⟩ := Option.map_eq_some_iff.mp hmessage
  rw [hye, htopic] at ht
  rw [← hsent, Option.some.inj ht]

/-- With one relay, and transactions that commit in an orderly way, the first occurrences
of an organization's events in its partition of a topic are in the order of the commits. -/
theorem relay_in_order (codec : Codec) (w₀ w : World) (trace : List Action) (h₀ : Start w₀)
    (hrun : (system codec).run w₀ trace = some w)
    (hmeets : (system codec).RunMeets (fun w a => OneRelay w a ∧ Orderly w a) w₀ trace) :
    InOrder w := by
  have hw : Ordered codec w := (system codec).run_preserves_of_meets _ (Ordered codec)
    (fun _ _ _ hs hallowed hstep => ordered_step hs hallowed hstep) hrun hmeets (ordered_start h₀)
  exact hw.inOrder

/-- Two transactions overlap, the second one with the larger number commits first and is
published before the first one commits. -/
def exampleOrderly : List Action :=
  [.begin 0, .begin 0, .write 0 .insert exampleRow 7, .write 1 .insert exampleRow 8, .commit 1,
   .startRelay] ++ exampleRound ++ [.finish 0, .commit 0] ++ exampleRound ++ [.finish 0]

/-- The same transactions, both committed when the relay comes. -/
def exampleSwapped : List Action :=
  [.begin 0, .begin 0, .write 0 .insert exampleRow 7, .write 1 .insert exampleRow 8, .commit 1,
   .commit 0, .startRelay, .claim 0 200 none, .publish 0, .acknowledge 0 0, .acknowledge 0 0]

theorem exampleOrderly_meets : (system exampleCodec).RunMeets
    (fun w a => OneRelay w a ∧ Orderly w a) exampleStart exampleOrderly := by
  decide +kernel

theorem exampleOrderly_shows : ((system exampleCodec).run exampleStart exampleOrderly).any
    (fun w => decide (partitionIds w 1 evidenceTopic = [2, 1])) = true := by
  decide +kernel

theorem relay_in_order_example : ∃ w,
    (system exampleCodec).run exampleStart exampleOrderly = some w ∧
    partitionIds w 1 evidenceTopic = [2, 1] ∧ InOrder w := by
  obtain ⟨w, hrun, hshows⟩ := (Option.any_eq_true _ _).mp exampleOrderly_shows
  exact ⟨w, hrun, of_decide_eq_true hshows, relay_in_order exampleCodec exampleStart w
    exampleOrderly ⟨rfl, rfl, rfl, rfl, rfl, rfl⟩ hrun exampleOrderly_meets⟩

theorem exampleSwapped_meets :
    (system exampleCodec).RunMeets OneRelay exampleStart exampleSwapped := by
  decide +kernel

theorem exampleSwapped_shows : ((system exampleCodec).run exampleStart exampleSwapped).any
    (fun w => decide (w.committed.map (List.map OutboxEvent.id) = [[2], [1]] ∧
      partitionIds w 1 evidenceTopic = [1, 2])) = true := by
  decide +kernel

/-- Event 2 committed first, and the only relay shows event 1 first. -/
theorem relay_swapped : ¬∀ (codec : Codec) (w₀ w : World) (trace : List Action), Start w₀ →
    (system codec).run w₀ trace = some w → (system codec).RunMeets OneRelay w₀ trace →
    InOrder w := by
  intro hall
  obtain ⟨w, hrun, hshows⟩ := (Option.any_eq_true _ _).mp exampleSwapped_shows
  obtain ⟨hcommitted, hpartition⟩ := of_decide_eq_true hshows
  have hinOrder := hall exampleCodec exampleStart w exampleSwapped ⟨rfl, rfl, rfl, rfl, rfl, rfl⟩
    hrun exampleSwapped_meets
  obtain ⟨rows, rest, hrows, hfirst, hrest⟩ := List.map_eq_cons_iff.mp hcommitted
  obtain ⟨rows', rest', rfl, hsecond, -⟩ := List.map_eq_cons_iff.mp hrest
  obtain ⟨e, es, rfl, he, -⟩ := List.map_eq_cons_iff.mp hfirst
  obtain ⟨e', es', rfl, he', -⟩ := List.map_eq_cons_iff.mp hsecond
  have hearlier : Earlier w.committed e e' :=
    ⟨[e :: es], e' :: es', rest', hrows, by simp, by simp⟩
  have hlt := hinOrder 1 evidenceTopic e e' hearlier
  rw [hpartition, he, he'] at hlt
  exact absurd (hlt (by simp) (by simp)) (by decide)

end ContextLedger.RelayOrder
