import Mathlib.Algebra.Order.Ring.Rat
import ContextLedger.Base64
import ContextLedger.JsonMaps
import ContextLedger.JsonReader
import ContextLedger.MemoryStore
import ContextLedger.SingleUse
import ContextLedger.Transition

/-!
The states of redirect-based flows, kept in the shared store under a digest.
A state is issued with the payload it stands for and consumed by a callback,
which reads and deletes its entry in one operation. Callbacks may come with any
text, several at once, and the reply of the store can be lost on its way back.
-/
namespace ContextLedger.OAuthStates

open Values JsonText JsonReader JsonMaps MemoryStore SingleUse

def stateBytes : ℕ := 32

def longestState : ℕ := 512

def keyStart : String := "cl:oauth:state:"

def isStateKey (key : String) : Bool := keyStart.toList.isPrefixOf key.toList

/-- `json.dumps` as it is called here. -/
def payloadStyle : Style := ⟨true, true⟩

variable (rt : Runtime)

def stateKey (state : String) : String := keyStart ++ rt.sha256 state

/-- A dict holds each key once. -/
structure Payload where
  fields : List (String × Json)
  unique : UniqueKeys (.obj fields)

/-- What an issued state stands for. -/
structure Bound where
  payload : Payload
  issuedAt : ℚ

/-- How an operation of the store ends: its reply comes back, is lost after the
operation was done, or the store was not reached. -/
inductive Reply where
  | delivered
  | lost
  | unreachable
  deriving DecidableEq

/-- `unreadable` and `unavailable` are exceptions, the other two what is returned. -/
inductive Answer where
  | nothing
  | payload (value : Json)
  | unreadable
  | unavailable

def Answer.isPayload : Answer → Bool
  | .payload _ => true
  | _ => false

/-- The write of `issue`. -/
def issue (store : Store) (now : ℚ) (ttlSeconds : ℚ) (state : String)
    (payload : Payload) : Store :=
  (store.set now (stateKey rt state) (dumpsSorted payloadStyle (.obj payload.fields)) ttlSeconds
    false).2

def decoded : Option String → Answer
  | none => .nothing
  | some raw =>
    match loads raw with
    | some value => .payload value
    | none => .unreadable

/-- A text that is not worth a look at the store. -/
def Refused (state : String) : Prop := state = "" ∨ longestState < state.length

instance : DecidablePred Refused := fun _ => inferInstanceAs (Decidable (_ ∨ _))

def consume (store : Store) (now : ℚ) (reply : Reply) (state : String) : Answer × Store :=
  if Refused state then (.nothing, store)
  else match reply with
    | .delivered =>
      let (raw, store) := store.getAndDelete now (stateKey rt state)
      (decoded raw, store)
    | .lost => (.unavailable, (store.getAndDelete now (stateKey rt state)).2)
    | .unreachable => (.unavailable, store)

/-- What happened to a state. -/
inductive Occurrence where
  | issued (state : String) (bound : Bound)
  | consumed (state : String) (now : ℚ) (reply : Reply) (answer : Answer)

def Occurrence.state : Occurrence → String
  | .issued state _ => state
  | .consumed state _ _ _ => state

/-- The last occurrence stands first. -/
structure World where
  store : Store
  now : ℚ
  history : List Occurrence

/-- `write` and `remove` are the other users of the store, under keys of their own.
The reply to `issue` is lost or delivered; the state exists either way. -/
inductive Action where
  | issue (random : List UInt8) (payload : Payload)
  | consume (state : String) (reply : Reply)
  | write (key : String) (entry : Entry)
  | remove (key : String)
  | tick (now : ℚ)

def Occurrence.isIssued : Occurrence → Bool
  | .issued _ _ => true
  | .consumed _ _ _ _ => false

/-- The random bytes of a state are not those of an earlier one. -/
def step (ttlSeconds : ℕ) (w : World) : Action → Option World
  | .issue random payload =>
    let state := Base64.urlsafeText random
    if random.length = stateBytes ∧ ∀ o ∈ w.history, o.isIssued = true → o.state ≠ state then
      some { w with
        store := issue rt w.store w.now ttlSeconds state payload
        history := .issued state ⟨payload, w.now⟩ :: w.history }
    else none
  | .consume state reply =>
    let (answer, store) := consume rt w.store w.now reply state
    some { w with store, history := .consumed state w.now reply answer :: w.history }
  | .write key entry =>
    if isStateKey key then none else some { w with store := w.store.insert key entry }
  | .remove key => if isStateKey key then none else some { w with store := w.store.delete key }
  | .tick now => if w.now ≤ now then some { w with now } else none

def states (ttlSeconds : ℕ) : Transition.System World Action where
  initial w := w.store = MemoryStore.empty ∧ w.history = []
  step := step rt ttlSeconds

/-- A callback takes its state in when the store was asked. -/
def Occurrence.event : Occurrence → Option (Event String Bound)
  | .issued state bound => some (.issue state bound)
  | .consumed state _ reply answer =>
    if Refused state ∨ reply = .unreachable then none
    else some (.take state answer.isPayload)

/-- The history as one of tickets that can be used once. -/
def events (history : List Occurrence) : List (Event String Bound) :=
  history.filterMap Occurrence.event

/-- What a callback is to be told. -/
def expected (ttlSeconds : ℕ) (earlier : List Occurrence) (state : String) (now : ℚ)
    (reply : Reply) : Answer :=
  if Refused state then .nothing
  else if reply = .delivered then
    match outstanding (events earlier) state with
    | some bound =>
      if now < bound.issuedAt + ttlSeconds then .payload (sortKeys (.obj bound.payload.fields))
      else .nothing
    | none => .nothing
  else .unavailable

/-- Every callback was told what it was to be told. -/
def Exact (ttlSeconds : ℕ) : List Occurrence → Prop
  | [] => True
  | .issued _ _ :: earlier => Exact ttlSeconds earlier
  | .consumed state now reply answer :: earlier =>
    Exact ttlSeconds earlier ∧ answer = expected ttlSeconds earlier state now reply

/-- The digests tell the states of the history apart. -/
def DigestsApart (history : List Occurrence) : Prop :=
  ∀ o ∈ history, ∀ o' ∈ history, rt.sha256 o.state = rt.sha256 o'.state → o.state = o'.state

def entryOf (ttlSeconds : ℕ) (bound : Bound) : Entry :=
  ⟨dumpsSorted payloadStyle (.obj bound.payload.fields), bound.issuedAt + ttlSeconds⟩

/-- The store holds the states that are outstanding, and the history is in order. -/
structure Kept (ttlSeconds : ℕ) (w : World) : Prop where
  sound : ∀ key entry, isStateKey key = true → w.store.find key = some entry →
    ∃ state bound, outstanding (events w.history) state = some bound ∧
      key = stateKey rt state
  complete : ∀ state bound, outstanding (events w.history) state = some bound →
    w.store.find (stateKey rt state) = some (entryOf ttlSeconds bound)
  lawful : Lawful (events w.history)
  exact : Exact ttlSeconds w.history
  usable : ∀ state bound, .issued state bound ∈ w.history → ¬ Refused state

section

variable {rt : Runtime} {ttlSeconds : ℕ} {w : World} {history : List Occurrence} {state : String}

@[simp] theorem isStateKey_stateKey (state : String) : isStateKey (stateKey rt state) = true := by
  rw [isStateKey, stateKey, String.toList_append, List.isPrefixOf_iff_prefix]
  exact List.prefix_append _ _

theorem stateKey_inj {s t : String} :
    stateKey rt s = stateKey rt t ↔ rt.sha256 s = rt.sha256 t := by
  rw [stateKey, stateKey, String.ext_iff, String.toList_append, String.toList_append,
    List.append_cancel_left_eq, ← String.ext_iff]

/-- The state of 32 random bytes is worth a look. -/
theorem not_refused_urlsafeText {random : List UInt8} (h : random.length = stateBytes) :
    ¬ Refused (Base64.urlsafeText random) := by
  have hlength := Base64.length_urlsafeText random
  rw [h] at hlength
  rintro (hempty | hlong)
  · refine Base64.urlsafeText_ne_empty ?_ hempty
    rintro rfl
    exact absurd h (by decide)
  · unfold longestState at hlong
    unfold stateBytes at hlength
    omega

@[simp] theorem events_issued (state : String) (bound : Bound) (history : List Occurrence) :
    events (.issued state bound :: history) = .issue state bound :: events history := rfl

theorem mem_history_of_event {e : Event String Bound} (h : e ∈ events history) :
    ∃ o ∈ history, o.state = e.ticket ∧ o.isIssued = e.isIssue := by
  obtain ⟨o, ho, hevent⟩ := List.mem_filterMap.mp h
  refine ⟨o, ho, ?_⟩
  cases o with
  | issued state bound =>
    obtain rfl := Option.some.inj hevent
    exact ⟨rfl, rfl⟩
  | consumed state now reply answer =>
    rw [Occurrence.event] at hevent
    split_ifs at hevent
    obtain rfl := Option.some.inj hevent
    exact ⟨rfl, rfl⟩

theorem issued_of_outstanding {bound : Bound}
    (h : outstanding (events history) state = some bound) : .issued state bound ∈ history := by
  obtain ⟨o, ho, hevent⟩ := List.mem_filterMap.mp (issue_mem_of_outstanding h)
  cases o with
  | issued s b =>
    obtain ⟨rfl, rfl⟩ := Event.issue.inj (Option.some.inj hevent)
    exact ho
  | consumed s now reply answer =>
    rw [Occurrence.event] at hevent
    split_ifs at hevent
    exact absurd (Option.some.inj hevent) (by simp)

/-- The entry of a state that no digest confuses with another. -/
theorem Kept.find (h : Kept rt ttlSeconds w)
    (happart : ∀ o ∈ w.history, rt.sha256 o.state = rt.sha256 state → o.state = state) :
    w.store.find (stateKey rt state) =
      (outstanding (events w.history) state).map (entryOf ttlSeconds) := by
  cases hout : outstanding (events w.history) state with
  | some bound => exact h.complete state bound hout
  | none =>
    rw [Option.map_none]
    refine Option.eq_none_iff_forall_not_mem.mpr fun entry hentry => ?_
    obtain ⟨other, bound, hother, hkey⟩ := h.sound _ entry (isStateKey_stateKey state) hentry
    have hsame : other = state :=
      happart _ (issued_of_outstanding hother) (stateKey_inj.mp hkey.symm)
    rw [hsame, hout] at hother
    exact absurd hother (by simp)

theorem decoded_dumpsSorted (payload : Payload) :
    decoded (some (dumpsSorted payloadStyle (.obj payload.fields))) =
      .payload (sortKeys (.obj payload.fields)) := by
  have hread := loads_dumps payloadStyle _ (uniqueKeys_sortKeys _ payload.unique)
  show (match loads (dumps payloadStyle (sortKeys (.obj payload.fields))) with
    | some value => Answer.payload value
    | none => .unreadable) = _
  rw [hread]

/-- A callback is told what it is to be told. -/
theorem Kept.consume (h : Kept rt ttlSeconds w)
    (happart : ∀ o ∈ w.history, rt.sha256 o.state = rt.sha256 state → o.state = state)
    (reply : Reply) : (consume rt w.store w.now reply state).1 =
      expected ttlSeconds w.history state w.now reply := by
  unfold OAuthStates.consume expected
  by_cases hrefused : Refused state
  · rw [if_pos hrefused, if_pos hrefused]
  · rw [if_neg hrefused, if_neg hrefused]
    cases reply with
    | lost => rfl
    | unreachable => rfl
    | delivered =>
      rw [if_pos rfl]
      simp only [Store.getAndDelete, Store.get, Store.live, h.find happart]
      cases outstanding (events w.history) state with
      | none => rfl
      | some bound =>
        simp only [Option.map_some, entryOf, Option.filter_some, decide_eq_true_eq]
        by_cases hlive : w.now < bound.issuedAt + ttlSeconds
        · rw [if_pos hlive, if_pos hlive, Option.map_some]
          exact decoded_dumpsSorted bound.payload
        · rw [if_neg hlive, if_neg hlive]
          rfl

/-- Whether a callback reached the entry of its state. -/
def Reaches (state : String) (reply : Reply) : Prop := ¬ Refused state ∧ reply ≠ .unreachable

theorem consume_store (rt : Runtime) (store : Store) (now : ℚ) (state : String) (reply : Reply) :
    (Reaches state reply ∧
      (consume rt store now reply state).2 = store.delete (stateKey rt state)) ∨
      (¬ Reaches state reply ∧ (consume rt store now reply state).2 = store) := by
  unfold Reaches consume
  by_cases hrefused : Refused state
  · exact Or.inr ⟨fun h => h.1 hrefused, by rw [if_pos hrefused]⟩
  · rw [if_neg hrefused]
    cases reply with
    | delivered => exact Or.inl ⟨⟨hrefused, by simp⟩, rfl⟩
    | lost => exact Or.inl ⟨⟨hrefused, by simp⟩, rfl⟩
    | unreachable => exact Or.inr ⟨fun h => h.2 rfl, rfl⟩

theorem event_of_reaches {reply : Reply} (h : Reaches state reply) (now : ℚ) (answer : Answer) :
    Occurrence.event (.consumed state now reply answer) = some (.take state answer.isPayload) :=
  if_neg (not_or.mpr ⟨h.1, h.2⟩)

theorem event_of_not_reaches {reply : Reply} (h : ¬ Reaches state reply) (now : ℚ)
    (answer : Answer) : Occurrence.event (.consumed state now reply answer) = none := by
  refine if_pos ?_
  by_cases hrefused : Refused state
  · exact Or.inl hrefused
  · by_cases hreply : reply = .unreachable
    · exact Or.inr hreply
    · exact absurd ⟨hrefused, hreply⟩ h

/-- Only an outstanding state that has not expired is answered with its payload. -/
theorem expected_eq_payload {now : ℚ} {reply : Reply} {value : Json}
    (h : expected ttlSeconds history state now reply = .payload value) :
    Reaches state reply ∧ ∃ bound, outstanding (events history) state = some bound ∧
      now < bound.issuedAt + ttlSeconds ∧ value = sortKeys (.obj bound.payload.fields) := by
  unfold expected at h
  split_ifs at h with hrefused hreply
  · split at h
    · rename_i bound hout
      split_ifs at h with hlive
      exact ⟨⟨hrefused, by simp [hreply]⟩, bound, hout, hlive, (Answer.payload.inj h).symm⟩
    · exact absurd h (by simp)

theorem DigestsApart.tail {o : Occurrence} (h : DigestsApart rt (o :: history)) :
    DigestsApart rt history :=
  fun a ha b hb => h a (List.mem_cons_of_mem _ ha) b (List.mem_cons_of_mem _ hb)

theorem DigestsApart.head {o : Occurrence} (h : DigestsApart rt (o :: history)) :
    ∀ o' ∈ history, rt.sha256 o'.state = rt.sha256 o.state → o'.state = o.state :=
  fun o' ho' => h o' (List.mem_cons_of_mem _ ho') o List.mem_cons_self

theorem Kept.issue (h : Kept rt ttlSeconds w) {random : List UInt8} {payload : Payload}
    (hlength : random.length = stateBytes)
    (hfresh : ∀ o ∈ w.history, o.isIssued = true → o.state ≠ Base64.urlsafeText random)
    (happart : ∀ o ∈ w.history, rt.sha256 o.state = rt.sha256 (Base64.urlsafeText random) →
      o.state = Base64.urlsafeText random) :
    Kept rt ttlSeconds { w with
      store := issue rt w.store w.now ttlSeconds (Base64.urlsafeText random) payload
      history := .issued (Base64.urlsafeText random) ⟨payload, w.now⟩ :: w.history } := by
  generalize hstate : Base64.urlsafeText random = state at hfresh happart ⊢
  have hstore : OAuthStates.issue rt w.store w.now ttlSeconds state payload =
      w.store.insert (stateKey rt state) (entryOf ttlSeconds ⟨payload, w.now⟩) := rfl
  rw [hstore]
  refine ⟨fun key entry hkey hfind => ?_, fun other bound hout => ?_, ⟨h.lawful, ?_⟩, h.exact,
    fun other bound hmem => ?_⟩
  · by_cases hsame : key = stateKey rt state
    · exact ⟨state, ⟨payload, w.now⟩, if_pos rfl, hsame⟩
    · rw [find_insert_of_ne _ _ hsame] at hfind
      obtain ⟨other, bound, hout, rfl⟩ := h.sound key entry hkey hfind
      refine ⟨other, bound, ?_, rfl⟩
      rwa [events_issued, outstanding_cons_of_ne fun hother => hsame (congrArg _ hother.symm)]
  · rw [events_issued, outstanding] at hout
    by_cases hsame : state = other
    · rw [if_pos hsame] at hout
      obtain rfl := Option.some.inj hout
      rw [← hsame, find_insert_self]
    · rw [if_neg hsame] at hout
      have hne : stateKey rt other ≠ stateKey rt state := fun hkey =>
        hsame (happart _ (issued_of_outstanding hout) (stateKey_inj.mp hkey)).symm
      rw [find_insert_of_ne _ _ hne]
      exact h.complete other bound hout
  · intro e he hissue hticket
    obtain ⟨o, ho, hsame, hissued⟩ := mem_history_of_event he
    exact hfresh o ho (hissued.trans hissue) (hsame.trans hticket)
  · rcases List.mem_cons.mp hmem with hhead | hmem
    · obtain ⟨rfl, -⟩ := Occurrence.issued.inj hhead
      rw [← hstate]
      exact not_refused_urlsafeText hlength
    · exact h.usable other bound hmem

/-- A callback that reached the entry of its state uses it up. -/
theorem Kept.taken (h : Kept rt ttlSeconds w) {reply : Reply} (hreach : Reaches state reply)
    {answer : Answer} (hanswer : answer = expected ttlSeconds w.history state w.now reply)
    (happart : ∀ o ∈ w.history, rt.sha256 o.state = rt.sha256 state → o.state = state) :
    Kept rt ttlSeconds { w with
      store := w.store.delete (stateKey rt state)
      history := .consumed state w.now reply answer :: w.history } := by
  have hevents : events (.consumed state w.now reply answer :: w.history) =
      .take state answer.isPayload :: events w.history :=
    List.filterMap_cons_some (event_of_reaches hreach _ _)
  refine ⟨fun key entry hkey hfind => ?_, fun other bound hout => ?_, ?_, ⟨h.exact, hanswer⟩,
    fun other bound hmem => ?_⟩
  · by_cases hsame : key = stateKey rt state
    · rw [hsame, find_delete_self] at hfind
      exact absurd hfind (by simp)
    · rw [find_delete_of_ne _ hsame] at hfind
      obtain ⟨other, bound, hout, rfl⟩ := h.sound key entry hkey hfind
      refine ⟨other, bound, ?_, rfl⟩
      rwa [hevents, outstanding_cons_of_ne fun hother => hsame (congrArg _ hother.symm)]
  · rw [hevents, outstanding] at hout
    by_cases hsame : state = other
    · rw [if_pos hsame] at hout
      exact absurd hout (by simp)
    · rw [if_neg hsame] at hout
      have hne : stateKey rt other ≠ stateKey rt state := fun hkey =>
        hsame (happart _ (issued_of_outstanding hout) (stateKey_inj.mp hkey)).symm
      rw [find_delete_of_ne _ hne]
      exact h.complete other bound hout
  · rw [hevents]
    refine ⟨h.lawful, fun hpayload => ?_⟩
    cases hcase : answer with
    | payload value =>
      obtain ⟨-, bound, hout, -⟩ := expected_eq_payload (hanswer.symm.trans hcase)
      rw [hout]
      rfl
    | nothing => exact absurd hpayload (by simp [hcase, Answer.isPayload])
    | unreadable => exact absurd hpayload (by simp [hcase, Answer.isPayload])
    | unavailable => exact absurd hpayload (by simp [hcase, Answer.isPayload])
  · exact h.usable other bound ((List.mem_cons.mp hmem).resolve_left (by simp))

theorem Kept.untaken (h : Kept rt ttlSeconds w) {reply : Reply} (hreach : ¬ Reaches state reply)
    {answer : Answer} (hanswer : answer = expected ttlSeconds w.history state w.now reply) :
    Kept rt ttlSeconds { w with history := .consumed state w.now reply answer :: w.history } := by
  have hevents : events (.consumed state w.now reply answer :: w.history) = events w.history :=
    List.filterMap_cons_none (event_of_not_reaches hreach _ _)
  refine ⟨fun key entry hkey hfind => ?_, fun other bound hout => ?_, ?_, ⟨h.exact, hanswer⟩,
    fun other bound hmem => ?_⟩
  · rw [hevents]
    exact h.sound key entry hkey hfind
  · rw [hevents] at hout
    exact h.complete other bound hout
  · rw [hevents]
    exact h.lawful
  · exact h.usable other bound ((List.mem_cons.mp hmem).resolve_left (by simp))

/-- Keys of other users of the store do not matter. -/
theorem Kept.aside (h : Kept rt ttlSeconds w) {store : Store}
    (hsame : ∀ key, isStateKey key = true → store.find key = w.store.find key) :
    Kept rt ttlSeconds { w with store } := by
  refine ⟨fun key entry hkey hfind => ?_, fun state bound hout => ?_, h.lawful, h.exact, h.usable⟩
  · exact h.sound key entry hkey ((hsame key hkey).symm.trans hfind)
  · exact (hsame _ (isStateKey_stateKey state)).trans (h.complete state bound hout)

theorem kept_step {a : Action} {w' : World}
    (h : DigestsApart rt w.history → Kept rt ttlSeconds w)
    (hstep : step rt ttlSeconds w a = some w')
    (happart : DigestsApart rt w'.history) : Kept rt ttlSeconds w' := by
  cases a with
  | issue random payload =>
    simp only [step] at hstep
    split_ifs at hstep with hguard
    obtain rfl := Option.some.inj hstep
    exact (h happart.tail).issue hguard.1 hguard.2 happart.head
  | consume state reply =>
    obtain rfl := Option.some.inj hstep
    have hkept := h happart.tail
    have hothers : ∀ o ∈ w.history, rt.sha256 o.state = rt.sha256 state → o.state = state :=
      happart.head
    have hanswer := hkept.consume hothers reply
    rcases consume_store rt w.store w.now state reply with ⟨hreach, hstore⟩ | ⟨hreach, hstore⟩
    · have hnext := hkept.taken hreach hanswer hothers
      rw [← hstore] at hnext
      exact hnext
    · exact (hkept.untaken hreach hanswer).aside fun key _ => congrArg (Store.find · key) hstore
  | write key entry =>
    simp only [step] at hstep
    split_ifs at hstep with hkey
    obtain rfl := Option.some.inj hstep
    refine (h happart).aside fun other hother => find_insert_of_ne _ _ ?_
    rintro rfl
    exact hkey hother
  | remove key =>
    simp only [step] at hstep
    split_ifs at hstep with hkey
    obtain rfl := Option.some.inj hstep
    refine (h happart).aside fun other hother => find_delete_of_ne _ ?_
    rintro rfl
    exact hkey hother
  | tick now =>
    simp only [step] at hstep
    split_ifs at hstep
    obtain rfl := Option.some.inj hstep
    have hkept := h happart
    exact ⟨hkept.sound, hkept.complete, hkept.lawful, hkept.exact, hkept.usable⟩

theorem reachable_kept (hw : (states rt ttlSeconds).Reachable w) :
    DigestsApart rt w.history → Kept rt ttlSeconds w := by
  refine Transition.System.reachable_invariant (states rt ttlSeconds)
    (fun w => DigestsApart rt w.history → Kept rt ttlSeconds w) ?_
    (fun w a w' h hstep happart => kept_step h hstep happart) hw
  rintro ⟨store, now, history⟩ ⟨rfl, rfl⟩ -
  refine ⟨fun key entry _ hfind => ?_, fun state bound hout => ?_, trivial, trivial, ?_⟩
  · exact absurd hfind (by simp [MemoryStore.empty, Store.find])
  · exact absurd hout (by simp [events, outstanding])
  · exact fun state bound hmem => absurd hmem (by simp)

/-- The callbacks that got the payload of a state. -/
def redeems (state : String) : Occurrence → Bool
  | .issued _ _ => false
  | .consumed s _ _ answer => answer.isPayload && decide (s = state)

theorem redeemed_length (h : Exact ttlSeconds history) (state : String) :
    (history.filter (redeems state)).length =
      ((events history).filter (Event.honours state)).length := by
  induction history with
  | nil => rfl
  | cons o earlier ih =>
    cases o with
    | issued s bound =>
      rw [events_issued, List.filter_cons_of_neg (by simp [redeems]),
        List.filter_cons_of_neg (by simp [Event.honours, Event.isHonoured])]
      exact ih h
    | consumed s now reply answer =>
      by_cases hreach : Reaches s reply
      · rw [events, List.filterMap_cons_some (event_of_reaches hreach now answer)]
        by_cases hredeems : answer.isPayload = true ∧ s = state
        · rw [List.filter_cons_of_pos (by simp [redeems, hredeems]),
            List.filter_cons_of_pos
              (by simp [Event.honours, Event.isHonoured, Event.ticket, hredeems]),
            List.length_cons, List.length_cons, ih h.1]
          rfl
        · have hneither : ¬ (answer.isPayload && decide (s = state)) = true := by
            rw [Bool.and_eq_true, decide_eq_true_eq]
            exact hredeems
          have hcallback : ¬ redeems state (.consumed s now reply answer) = true := hneither
          have hevent :
              ¬ (Event.take s answer.isPayload : Event String Bound).honours state = true :=
            hneither
          rw [List.filter_cons_of_neg hcallback, List.filter_cons_of_neg hevent]
          exact ih h.1
      · have hplain : answer.isPayload = false := by
          cases hcase : answer with
          | payload value =>
            exact absurd (expected_eq_payload (h.2.symm.trans hcase)).1 hreach
          | nothing => rfl
          | unreadable => rfl
          | unavailable => rfl
        rw [events, List.filterMap_cons_none (event_of_not_reaches hreach now answer),
          List.filter_cons_of_neg (by simp [redeems, hplain])]
        exact ih h.1

theorem Exact.of_append {later : List Occurrence} (h : Exact ttlSeconds (later ++ history)) :
    Exact ttlSeconds history := by
  induction later with
  | nil => exact h
  | cons o later ih =>
    cases o with
    | issued s bound => exact ih h
    | consumed s now reply answer => exact ih h.1

end

/-- In every run in which no two states have one digest, every callback is told what
the history says, the payload of a state is handed out at most once and only to a
callback after it was issued and before it expired, and no issued state is refused
for its form. -/
theorem states_single_use {rt : Runtime} {ttlSeconds : ℕ} {w : World}
    (hw : (states rt ttlSeconds).Reachable w) (happart : DigestsApart rt w.history) :
    (∀ later state now reply answer earlier,
      w.history = later ++ .consumed state now reply answer :: earlier →
      answer = expected ttlSeconds earlier state now reply ∧
      ∀ value, answer = .payload value → ∃ bound, .issued state bound ∈ earlier ∧
        now < bound.issuedAt + ttlSeconds ∧ value = sortKeys (.obj bound.payload.fields)) ∧
    (∀ state, (w.history.filter (redeems state)).length ≤ 1) ∧
    (∀ state bound, .issued state bound ∈ w.history → ¬ Refused state) := by
  have hkept := reachable_kept hw happart
  refine ⟨fun later state now reply answer earlier hhistory => ?_, fun state => ?_, hkept.usable⟩
  · have hexact := hkept.exact
    rw [hhistory] at hexact
    obtain ⟨-, hanswer⟩ := hexact.of_append
    refine ⟨hanswer, fun value hvalue => ?_⟩
    obtain ⟨-, bound, hout, hlive, hpayload⟩ := expected_eq_payload (hanswer.symm.trans hvalue)
    exact ⟨bound, issued_of_outstanding hout, hlive, hpayload⟩
  · rw [redeemed_length hkept.exact state]
    exact honoured_once hkept.lawful state

def examplePayload : Payload :=
  ⟨[("client_id", .str "agent-1")], by simp [UniqueKeys, UniqueFields]⟩

def exampleState : String := Base64.urlsafeText (List.replicate 32 7)

/-- Two callbacks come with one state: the first gets its payload, the second nothing. -/
theorem states_single_use_example :
    ∃ w first second, (states ⟨fun _ => true, id⟩ 600).Reachable w ∧
      w.history = [.consumed exampleState 0 .delivered second,
        .consumed exampleState 0 .delivered first, .issued exampleState ⟨examplePayload, 0⟩] ∧
      first = .payload (sortKeys (.obj examplePayload.fields)) ∧ second = .nothing ∧
      ∀ state, (w.history.filter (redeems state)).length ≤ 1 := by
  let rt : Runtime := ⟨fun _ => true, id⟩
  let issued : Occurrence := .issued exampleState ⟨examplePayload, 0⟩
  let store := issue rt MemoryStore.empty 0 (600 : ℕ) exampleState examplePayload
  let first := consume rt store 0 .delivered exampleState
  let second := consume rt first.2 0 .delivered exampleState
  let w : World := ⟨second.2, 0, [.consumed exampleState 0 .delivered second.1,
    .consumed exampleState 0 .delivered first.1, issued]⟩
  have hissue :
      step rt 600 ⟨MemoryStore.empty, 0, []⟩ (.issue (List.replicate 32 7) examplePayload) =
      some ⟨store, 0, [issued]⟩ := by
    rw [step]
    exact if_pos ⟨rfl, by simp⟩
  have hreach : (states rt 600).Reachable w := by
    refine ⟨⟨MemoryStore.empty, 0, []⟩, [.issue (List.replicate 32 7) examplePayload,
      .consume exampleState .delivered, .consume exampleState .delivered], ⟨rfl, rfl⟩, ?_⟩
    rw [Transition.System.run_cons_eq_some]
    exact ⟨_, hissue, rfl⟩
  have husable : ¬ Refused exampleState := not_refused_urlsafeText rfl
  obtain ⟨hanswers, honce, -⟩ := states_single_use hreach fun _ _ _ _ h => h
  refine ⟨w, first.1, second.1, hreach, rfl, ?_, ?_, honce⟩
  · rw [(hanswers [_] _ _ _ _ _ rfl).1, expected, if_neg husable, if_pos rfl]
    have hout : outstanding (events [issued]) exampleState = some ⟨examplePayload, 0⟩ := if_pos rfl
    rw [hout]
    exact if_pos (by norm_num)
  · rw [(hanswers [] _ _ _ _ _ rfl).1, expected, if_neg husable, if_pos rfl]
    have hevents : events [.consumed exampleState 0 .delivered first.1, issued] =
        .take exampleState first.1.isPayload :: events [issued] :=
      List.filterMap_cons_some (event_of_reaches ⟨husable, by simp⟩ _ _)
    have hout : outstanding (events [.consumed exampleState 0 .delivered first.1, issued])
        exampleState = none := by
      rw [hevents]
      exact if_pos rfl
    rw [hout]

end ContextLedger.OAuthStates
