import ContextLedger.Idempotency
import Mathlib.Tactic.Linarith

/-!
At most one success for each key. While the store answers and no reservation expires
under a request that still runs, the entry of a key in the store is the reservation of
the one request that holds it, or the record of the last one that succeeded, for as
long as it lives. So the times during which requests held a key, or its record was
alive, never overlap, and whoever finds the key taken is answered from that entry.
-/
namespace ContextLedger.IdempotentKeys

open Values MemoryStore Idempotency

/-- Since when a request holds its key. -/
def heldSince : Phase → Option ℚ
  | .running reservedAt _ => some reservedAt
  | .ended reservedAt _ _ => some reservedAt
  | _ => none

/-- When a request reserved its key, if it did. -/
def begun : Phase → Option ℚ
  | .running reservedAt _ => some reservedAt
  | .ended reservedAt _ _ => some reservedAt
  | .finished (.recorded reservedAt _ _) => some reservedAt
  | .finished (.recordLost reservedAt _) => some reservedAt
  | .finished (.released reservedAt _ _ _) => some reservedAt
  | .finished (.releaseFailed reservedAt _ _) => some reservedAt
  | _ => none

/-- When a key is free again after a request that reserved it. -/
def freeAt (mw : Middleware) : Phase → Option ℚ
  | .finished (.recorded _ recordedAt _) => some (recordedAt + mw.ttlSeconds)
  | .finished (.recordLost reservedAt _) => some (reservedAt + mw.lockSeconds)
  | .finished (.released _ releasedAt _ _) => some releasedAt
  | .finished (.releaseFailed reservedAt _ _) => some (reservedAt + mw.lockSeconds)
  | _ => none

def sentBy : Phase → List Message
  | .running _ sent => sent
  | .ended _ sent _ => sent
  | .finished (.recorded _ _ sent) => sent
  | _ => []

/-- The endpoint returned, and its response was a 2xx. -/
def Succeeded (call : Call) : Prop :=
  match call.phase with
  | .finished (.recorded _ _ _) => True
  | .finished (.recordLost _ _) => True
  | .finished (.released _ _ sent raised) =>
    raised = false ∧ 200 ≤ (captured sent).status ∧ (captured sent).status < 300
  | .finished (.releaseFailed _ sent raised) =>
    raised = false ∧ 200 ≤ (captured sent).status ∧ (captured sent).status < 300
  | _ => False

def Recorded (call : Call) (key : Keyed) (reservedAt recordedAt : ℚ) (sent : List Message) :
    Prop :=
  call.keyed = some key ∧ call.phase = .finished (.recorded reservedAt recordedAt sent)

/-- A request with this fingerprint holds the key. -/
def Reserved (w : World) (key : Keyed) : Prop :=
  ∃ call ∈ w.calls, call.keyed = some key ∧ (heldSince call.phase).isSome

/-- A response to a request with this fingerprint is recorded for the key. -/
def Alive (mw : Middleware) (w : World) (key : Keyed) : Prop :=
  ∃ call ∈ w.calls, ∃ reservedAt recordedAt sent, Recorded call key reservedAt recordedAt sent ∧
    w.now < recordedAt + mw.ttlSeconds

/-- The store is available, sends do not raise, bodies fit, and time does not pass the
end of a reservation whose request still runs. -/
def Assumed (mw : Middleware) (w : World) : Action → Prop
  | .reserve _ available => available = true
  | .lookup _ available => available = true
  | .emit _ _ sendRaises => sendRaises = false
  | .settle i available => available = true ∧ ∀ call, w.calls[i]? = some call →
      (captured (sentBy call.phase)).size ≤ maxStoredBody
  | .tick now => ∀ call ∈ w.calls, ∀ t, heldSince call.phase = some t → now < t + mw.lockSeconds
  | _ => True

/-- Two requests with one key did not have it at the same time. -/
def Clear (mw : Middleware) (p q : Call) : Prop :=
  ∀ kp kq, p.keyed = some kp → q.keyed = some kq → kp.storeKey = kq.storeKey →
    ∀ s t, begun p.phase = some s → begun q.phase = some t →
      (∃ e, freeAt mw p.phase = some e ∧ e ≤ t) ∨ ∃ e, freeAt mw q.phase = some e ∧ e ≤ s

theorem Clear.symm {mw : Middleware} (p q : Call) (h : Clear mw p q) : Clear mw q p := by
  intro kq kp hq hp hkey t s ht hs
  exact (h kp kq hp hq hkey.symm s t hs ht).symm

/-- What a request that has left the middleware knows. -/
structure OutcomeOk (mw : Middleware) (w : World) (call : Call) : Prop where
  released : ∀ s t sent raised, call.phase = .finished (.released s t sent raised) →
    t ≤ w.now ∧ (raised = false → ¬(200 ≤ (captured sent).status ∧ (captured sent).status < 300))
  recordKept : ∀ s sent, call.phase ≠ .finished (.recordLost s sent)
  releaseDone : ∀ s sent raised, call.phase ≠ .finished (.releaseFailed s sent raised)
  recorded : ∀ key s r sent, Recorded call key s r sent →
    (captured sent).storable = true ∧ r ≤ w.now
  replay : ∀ key t response, call.keyed = some key →
    call.phase = .finished (.answered t (.replay response)) →
    ∃ other ∈ w.calls, ∃ s r sent, Recorded other key s r sent ∧ response = replayed sent ∧
      r ≤ t ∧ t < r + mw.ttlSeconds

structure Guarded (mw : Middleware) (w : World) : Prop where
  keys : ∀ call ∈ w.calls, ∀ key, call.keyed = some key → isKeyOf key.storeKey = true
  form : ∀ call ∈ w.calls, InForm (sentBy call.phase)
  held : ∀ call ∈ w.calls, ∀ key t, call.keyed = some key → heldSince call.phase = some t →
    t ≤ w.now ∧ w.now < t + mw.lockSeconds ∧
      w.store.find key.storeKey = some ⟨pendingText key, t + mw.lockSeconds⟩
  alive : ∀ call ∈ w.calls, ∀ key s r sent, Recorded call key s r sent →
    w.now < r + mw.ttlSeconds →
    w.store.find key.storeKey = some ⟨doneText key sent, r + mw.ttlSeconds⟩
  source : ∀ storeKey entry, isKeyOf storeKey = true →
    w.store.live w.now storeKey = some entry →
    (∃ key t, key.storeKey = storeKey ∧ entry = ⟨pendingText key, t⟩ ∧ Reserved w key) ∨
    ∃ call ∈ w.calls, ∃ key s r sent, key.storeKey = storeKey ∧ Recorded call key s r sent ∧
      entry = ⟨doneText key sent, r + mw.ttlSeconds⟩
  outcomes : ∀ call ∈ w.calls, OutcomeOk mw w call
  apart : Processes.Apart (Clear mw) w.calls

variable {mw : Middleware} {w : World}

theorem OutcomeOk.mono {w' : World} {call : Call} (h : OutcomeOk mw w call) (hnow : w.now ≤ w'.now)
    (hstay : ∀ other ∈ w.calls, ∀ key s r sent, Recorded other key s r sent → other ∈ w'.calls) :
    OutcomeOk mw w' call := by
  refine ⟨?_, h.recordKept, h.releaseDone, ?_, ?_⟩
  · intro s t sent raised hphase
    obtain ⟨hle, hstatus⟩ := h.released s t sent raised hphase
    exact ⟨hle.trans hnow, hstatus⟩
  · intro key s r sent hrecorded
    obtain ⟨hstorable, hle⟩ := h.recorded key s r sent hrecorded
    exact ⟨hstorable, hle.trans hnow⟩
  · intro key t response hkey hphase
    obtain ⟨other, hother, s, r, sent, hrecorded, hrest⟩ := h.replay key t response hkey hphase
    exact ⟨other, hstay other hother key s r sent hrecorded, s, r, sent, hrecorded, hrest⟩

/-- A request that is not finished and has sent no answer knows nothing yet. -/
theorem outcomeOk_of_unfinished {call : Call} (h : ∀ outcome, call.phase ≠ .finished outcome) :
    OutcomeOk mw w call := by
  refine ⟨?_, fun s sent => h _, fun s sent raised => h _, ?_, ?_⟩
  · intro s t sent raised hphase
    exact absurd hphase (h _)
  · rintro key s r sent ⟨-, hphase⟩
    exact absurd hphase (h _)
  · intro key t response _ hphase
    exact absurd hphase (h _)

/-- A request that was answered without running knows what it was replayed. -/
theorem outcomeOk_of_answered {call : Call} {t : ℚ} {answer : Answer}
    (hphase : call.phase = .finished (.answered t answer))
    (hreplay : ∀ key response, call.keyed = some key → answer = .replay response →
      ∃ other ∈ w.calls, ∃ s r sent, Recorded other key s r sent ∧ response = replayed sent ∧
        r ≤ t ∧ t < r + mw.ttlSeconds) : OutcomeOk mw w call := by
  have hsame {outcome : Outcome} (h : call.phase = .finished outcome) :
      outcome = .answered t answer := Phase.finished.inj (h.symm.trans hphase)
  refine ⟨?_, ?_, ?_, ?_, ?_⟩
  · exact fun s t sent raised h => absurd (hsame h) (by simp)
  · exact fun s sent h => absurd (hsame h) (by simp)
  · exact fun s sent raised h => absurd (hsame h) (by simp)
  · exact fun key s r sent h => absurd (hsame h.2) (by simp)
  · intro key t' response hkey h
    obtain ⟨rfl, hanswer⟩ := Outcome.answered.inj (hsame h)
    exact hreplay key response hkey hanswer.symm

/-- The recorded requests are not the one that moves. -/
theorem recorded_stays {i : ℕ} {call call' other : Call} (hi : w.calls[i]? = some call)
    (hunfinished : ∀ outcome, call.phase ≠ .finished outcome) (hother : other ∈ w.calls)
    {key : Keyed} {s r : ℚ} {sent : List Message} (hrecorded : Recorded other key s r sent) :
    other ∈ w.calls.set i call' := by
  refine Processes.mem_set_of_ne hi hother ?_
  rintro rfl
  exact hunfinished _ hrecorded.2

/-- What a key's entry in the store stands for, after one request has moved. -/
theorem reserved_of_moved {i : ℕ} {call : Call} {phase : Phase} {store : Store}
    (hi : w.calls[i]? = some call) (hheld : heldSince phase = heldSince call.phase) {key : Keyed}
    (h : Reserved w key) : Reserved (w.moved i call phase store) key := by
  obtain ⟨other, hother, hkey, hsome⟩ := h
  by_cases heq : other = call
  · subst heq
    exact ⟨{ other with phase }, List.mem_of_getElem? (getElem?_moved hi), hkey,
      by rw [hheld]; exact hsome⟩
  · exact ⟨other, Processes.mem_set_of_ne hi hother heq, hkey, hsome⟩

/-- A request moves without touching the store or its hold on the key. -/
theorem Guarded.quiet (hw : Guarded mw w) {i : ℕ} {call : Call} (hi : w.calls[i]? = some call)
    (hunfinished : ∀ outcome, call.phase ≠ .finished outcome) {phase : Phase}
    (hheld : heldSince phase = heldSince call.phase) (hbegun : begun phase = begun call.phase)
    (hover : freeAt mw phase = none) (hform : InForm (sentBy phase))
    (hok : OutcomeOk mw w { call with phase }) : Guarded mw (w.moved i call phase w.store) := by
  have hmem := List.mem_of_getElem? hi
  have hcall : freeAt mw call.phase = none := by
    cases hphase : call.phase with
    | finished outcome => exact absurd hphase (hunfinished outcome)
    | passing sent => rfl
    | reserving => rfl
    | lookingUp => rfl
    | running reservedAt sent => rfl
    | ended reservedAt sent raised => rfl
  have hstay : ∀ other ∈ w.calls, ∀ key s r sent, Recorded other key s r sent →
      other ∈ w.calls.set i { call with phase } :=
    fun other hother key s r sent hrecorded => recorded_stays hi hunfinished hother hrecorded
  have hnot : ∀ key s r sent, ¬Recorded { call with phase } key s r sent := by
    rintro key s r sent ⟨-, hphase⟩
    change phase = _ at hphase
    rw [hphase] at hover
    exact absurd hover (by simp [freeAt])
  refine ⟨?_, ?_, ?_, ?_, ?_, ?_, ?_⟩
  · intro c hc
    rcases Processes.mem_set_cases hc with rfl | ⟨j, -, hj⟩
    · exact hw.keys call hmem
    · exact hw.keys c (List.mem_of_getElem? hj)
  · intro c hc
    rcases Processes.mem_set_cases hc with rfl | ⟨j, -, hj⟩
    · exact hform
    · exact hw.form c (List.mem_of_getElem? hj)
  · intro c hc key t hkey hsince
    rcases Processes.mem_set_cases hc with rfl | ⟨j, -, hj⟩
    · exact hw.held call hmem key t hkey (hheld ▸ hsince)
    · exact hw.held c (List.mem_of_getElem? hj) key t hkey hsince
  · intro c hc key s r sent hrecorded
    rcases Processes.mem_set_cases hc with rfl | ⟨j, -, hj⟩
    · exact absurd hrecorded (hnot key s r sent)
    · exact hw.alive c (List.mem_of_getElem? hj) key s r sent hrecorded
  · intro storeKey entry hkey hlive
    rcases hw.source storeKey entry hkey hlive with ⟨key, t, hstoreKey, hentry, hreserved⟩ |
      ⟨c, hc, key, s, r, sent, hstoreKey, hrecorded, hentry⟩
    · exact Or.inl ⟨key, t, hstoreKey, hentry, reserved_of_moved hi hheld hreserved⟩
    · exact Or.inr ⟨c, hstay c hc key s r sent hrecorded, key, s, r, sent, hstoreKey, hrecorded,
        hentry⟩
  · intro c hc
    rcases Processes.mem_set_cases hc with rfl | ⟨j, -, hj⟩
    · exact hok.mono le_rfl hstay
    · exact (hw.outcomes c (List.mem_of_getElem? hj)).mono le_rfl hstay
  · refine hw.apart.set Clear.symm ?_
    intro j q hj hij kp kq hkp hkq hkey s t hs ht
    have hclear := hw.apart i j call q hi hj hij kp kq hkp hkq hkey s t (hbegun ▸ hs) ht
    rw [hcall] at hclear
    exact hclear.imp (fun ⟨e, he, _⟩ => absurd he (by simp)) id

/-- What an earlier request had of a key is over when the key is absent from the store. -/
theorem Guarded.freeAt_of_absent (hw : Guarded mw w) {call : Call} (hcall : call ∈ w.calls)
    {key : Keyed} (hkey : call.keyed = some key)
    (hfree : w.store.live w.now key.storeKey = none) {t : ℚ} (hbegun : begun call.phase = some t) :
    ∃ e, freeAt mw call.phase = some e ∧ e ≤ w.now := by
  have hheld : heldSince call.phase = none := by
    cases hsince : heldSince call.phase with
    | none => rfl
    | some t =>
      obtain ⟨-, hlt, hfind⟩ := hw.held call hcall key t hkey hsince
      have hlive := live_eq_some.mpr ⟨hfind, hlt⟩
      exact absurd (hfree.symm.trans hlive) (by simp)
  have hok := hw.outcomes call hcall
  cases hphase : call.phase with
  | passing sent => exact absurd hbegun (by simp [hphase, begun])
  | reserving => exact absurd hbegun (by simp [hphase, begun])
  | lookingUp => exact absurd hbegun (by simp [hphase, begun])
  | running reservedAt sent => exact absurd hheld (by simp [hphase, heldSince])
  | ended reservedAt sent raised => exact absurd hheld (by simp [hphase, heldSince])
  | finished outcome =>
    cases outcome with
    | passed sent => exact absurd hbegun (by simp [hphase, begun])
    | answered answeredAt answer => exact absurd hbegun (by simp [hphase, begun])
    | recorded s r sent =>
      refine ⟨r + mw.ttlSeconds, rfl, ?_⟩
      by_contra hlt
      have hfind := hw.alive call hcall key s r sent ⟨hkey, hphase⟩ (not_le.mp hlt)
      have hlive := live_eq_some.mpr ⟨hfind, not_le.mp hlt⟩
      exact absurd (hfree.symm.trans hlive) (by simp)
    | released s t sent raised => exact ⟨t, rfl, (hok.released s t sent raised hphase).1⟩
    | recordLost s sent => exact absurd hphase (hok.recordKept s sent)
    | releaseFailed s sent raised => exact absurd hphase (hok.releaseDone s sent raised)

/-- A request that holds its key has begun and is not over. -/
theorem span_of_held {phase : Phase} {t : ℚ} (h : heldSince phase = some t) :
    begun phase = some t ∧ freeAt mw phase = none := by
  cases phase with
  | running reservedAt sent => exact ⟨h, rfl⟩
  | ended reservedAt sent raised => exact ⟨h, rfl⟩
  | passing sent => exact absurd h (by simp [heldSince])
  | reserving => exact absurd h (by simp [heldSince])
  | lookingUp => exact absurd h (by simp [heldSince])
  | finished outcome => exact absurd h (by simp [heldSince])

/-- Two requests that hold keys hold different ones. -/
theorem Guarded.other_of_held (hw : Guarded mw w) {i j : ℕ} {p q : Call}
    (hi : w.calls[i]? = some p) (hj : w.calls[j]? = some q) (hij : i ≠ j) {kp kq : Keyed}
    (hkp : p.keyed = some kp) (hkq : q.keyed = some kq) (hp : (heldSince p.phase).isSome)
    (hq : (heldSince q.phase).isSome) : kp.storeKey ≠ kq.storeKey := by
  intro hkey
  obtain ⟨s, hs⟩ := Option.isSome_iff_exists.mp hp
  obtain ⟨t, ht⟩ := Option.isSome_iff_exists.mp hq
  obtain ⟨hs, hoverp⟩ := @span_of_held mw _ _ hs
  obtain ⟨ht, hoverq⟩ := @span_of_held mw _ _ ht
  rcases hw.apart i j p q hi hj hij kp kq hkp hkq hkey s t hs ht with ⟨e, he, -⟩ | ⟨e, he, -⟩
  · exact absurd (hoverp.symm.trans he) (by simp)
  · exact absurd (hoverq.symm.trans he) (by simp)

theorem guarded_reserved (hw : Guarded mw w) {i : ℕ} {call : Call} {key : Keyed}
    (hi : w.calls[i]? = some call) (hkey : call.keyed = some key)
    (hphase : call.phase = .reserving) (hfree : w.store.live w.now key.storeKey = none) :
    Guarded mw (w.moved i call (.running w.now [])
      (w.store.insert key.storeKey ⟨pendingText key, w.now + mw.lockSeconds⟩)) := by
  have hmem := List.mem_of_getElem? hi
  have hunfinished : ∀ outcome, call.phase ≠ .finished outcome := by
    rw [hphase]
    exact fun outcome => by simp
  have hlock : (0 : ℚ) < mw.lockSeconds := by
    exact_mod_cast Nat.lt_of_lt_of_le Nat.zero_lt_one mw.le_lock
  have hstay : ∀ other ∈ w.calls, ∀ key s r sent, Recorded other key s r sent →
      other ∈ w.calls.set i { call with phase := .running w.now [] } :=
    fun other hother key s r sent hrecorded => recorded_stays hi hunfinished hother hrecorded
  have hdead : ∀ entry, w.store.find key.storeKey = some entry → entry.expires ≤ w.now := by
    intro entry hfind
    by_contra hlt
    have hlive := live_eq_some.mpr ⟨hfind, not_le.mp hlt⟩
    exact absurd (hfree.symm.trans hlive) (by simp)
  have hnew : ({ call with phase := .running w.now [] } : Call) ∈
      w.calls.set i { call with phase := .running w.now [] } :=
    List.mem_of_getElem? (@getElem?_moved w i call call _ w.store hi)
  refine ⟨?_, ?_, ?_, ?_, ?_, ?_, ?_⟩
  · intro c hc
    rcases Processes.mem_set_cases hc with rfl | ⟨j, -, hj⟩
    · exact hw.keys call hmem
    · exact hw.keys c (List.mem_of_getElem? hj)
  · intro c hc
    rcases Processes.mem_set_cases hc with rfl | ⟨j, -, hj⟩
    · exact Or.inl rfl
    · exact hw.form c (List.mem_of_getElem? hj)
  · intro c hc key' t hkey' hsince
    rcases Processes.mem_set_cases hc with rfl | ⟨j, -, hj⟩
    · obtain rfl : key = key' := Option.some.inj (hkey.symm.trans hkey')
      obtain rfl : w.now = t := Option.some.inj hsince
      exact ⟨le_rfl, lt_add_of_pos_right _ hlock, find_insert_self _ _ _⟩
    · obtain ⟨hle, hlt, hfind⟩ := hw.held c (List.mem_of_getElem? hj) key' t hkey' hsince
      have hne : key'.storeKey ≠ key.storeKey := by
        intro heq
        exact absurd hlt (not_lt.mpr (hdead _ (heq ▸ hfind)))
      exact ⟨hle, hlt, (find_insert_of_ne _ _ hne).trans hfind⟩
  · intro c hc key' s r sent hrecorded hlt
    rcases Processes.mem_set_cases hc with rfl | ⟨j, -, hj⟩
    · exact absurd hrecorded.2 (by simp)
    · have hfind := hw.alive c (List.mem_of_getElem? hj) key' s r sent hrecorded hlt
      have hne : key'.storeKey ≠ key.storeKey := by
        intro heq
        exact absurd hlt (not_lt.mpr (hdead _ (heq ▸ hfind)))
      exact (find_insert_of_ne _ _ hne).trans hfind
  · intro storeKey entry hstore hlive
    by_cases heq : storeKey = key.storeKey
    · subst heq
      obtain ⟨hfind, -⟩ := live_eq_some.mp hlive
      have hentry := (find_insert_self _ _ _).symm.trans hfind
      exact Or.inl ⟨key, _, rfl, (Option.some.inj hentry).symm, _, hnew, hkey, rfl⟩
    · change (w.store.insert key.storeKey _).live w.now storeKey = some entry at hlive
      rw [live_insert_of_ne _ _ heq] at hlive
      rcases hw.source storeKey entry hstore hlive with
        ⟨key', t, hstoreKey, hentry, c, hc, hckey, hsince⟩ |
        ⟨c, hc, key', s, r, sent, hstoreKey, hrecorded, hentry⟩
      · refine Or.inl ⟨key', t, hstoreKey, hentry, c, ?_, hckey, hsince⟩
        refine Processes.mem_set_of_ne hi hc ?_
        rintro rfl
        exact absurd hsince (by simp [hphase, heldSince])
      · exact Or.inr ⟨c, hstay c hc key' s r sent hrecorded, key', s, r, sent, hstoreKey,
          hrecorded, hentry⟩
  · intro c hc
    rcases Processes.mem_set_cases hc with rfl | ⟨j, -, hj⟩
    · exact outcomeOk_of_unfinished fun outcome => by simp
    · exact (hw.outcomes c (List.mem_of_getElem? hj)).mono le_rfl hstay
  · refine hw.apart.set Clear.symm ?_
    intro j q hj hij kp kq hkp hkq heq s t hs ht
    obtain rfl : key = kp := Option.some.inj (hkey.symm.trans hkp)
    obtain rfl : w.now = s := Option.some.inj hs
    exact Or.inr (hw.freeAt_of_absent (List.mem_of_getElem? hj) hkq (heq ▸ hfree) ht)

/-- How the hold on a key ends: a record in its place, or nothing. -/
inductive Ending (mw : Middleware) (w : World) (key : Keyed) (t : ℚ) : Outcome → Store → Prop
  | recorded (sent : List Message) (hform : InForm sent)
      (hstorable : (captured sent).storable = true) :
      Ending mw w key t (.recorded t w.now sent)
        (w.store.insert key.storeKey ⟨doneText key sent, w.now + mw.ttlSeconds⟩)
  | released (sent : List Message) (raised : Bool)
      (hfailed : raised = false →
        ¬(200 ≤ (captured sent).status ∧ (captured sent).status < 300)) :
      Ending mw w key t (.released t w.now sent raised) (w.store.delete key.storeKey)

theorem Ending.find_of_ne {key : Keyed} {t : ℚ} {outcome : Outcome} {store : Store}
    (h : Ending mw w key t outcome store) {other : String} (hne : other ≠ key.storeKey) :
    store.find other = w.store.find other := by
  cases h with
  | recorded sent hform hstorable => exact find_insert_of_ne _ _ hne
  | released sent raised hfailed => exact find_delete_of_ne _ hne

theorem Ending.begun_eq {key : Keyed} {t : ℚ} {outcome : Outcome} {store : Store}
    (h : Ending mw w key t outcome store) : begun (.finished outcome) = some t := by
  cases h with
  | recorded sent hform hstorable => rfl
  | released sent raised hfailed => rfl

/-- What the request knows of its own end. -/
theorem Ending.outcomeOk {key : Keyed} {t : ℚ} {outcome : Outcome} {store : Store}
    (h : Ending mw w key t outcome store) (call : Call) :
    OutcomeOk mw w { call with phase := .finished outcome } := by
  cases h with
  | recorded sent hform hstorable =>
    refine ⟨fun s t sent raised h => absurd h (by simp), fun s sent h => absurd h (by simp),
      fun s sent raised h => absurd h (by simp), ?_, fun key t response _ h =>
      absurd h (by simp)⟩
    rintro key' s r sent' ⟨-, hphase⟩
    obtain ⟨-, rfl, rfl⟩ : t = s ∧ w.now = r ∧ sent = sent' := by simpa using hphase
    exact ⟨hstorable, le_rfl⟩
  | released sent raised hfailed =>
    refine ⟨?_, fun s sent h => absurd h (by simp), fun s sent raised h => absurd h (by simp),
      fun key s r sent h => absurd h.2 (by simp), fun key t response _ h =>
      absurd h (by simp)⟩
    intro s t' sent' raised' hphase
    obtain ⟨-, rfl, rfl, rfl⟩ : t = s ∧ w.now = t' ∧ sent = sent' ∧ raised = raised' := by
      simpa using hphase
    exact ⟨le_rfl, hfailed⟩

/-- What another request had of a key was over when the key was reserved. -/
theorem Guarded.freeAt_le_of_held (hw : Guarded mw w) {i j : ℕ} {call other : Call}
    (hi : w.calls[i]? = some call) (hj : w.calls[j]? = some other) (hij : i ≠ j)
    {key otherKey : Keyed} (hkey : call.keyed = some key) (hotherKey : other.keyed = some otherKey)
    (heq : key.storeKey = otherKey.storeKey) {t s : ℚ} (hsince : heldSince call.phase = some t)
    (hs : begun other.phase = some s) : ∃ e, freeAt mw other.phase = some e ∧ e ≤ t := by
  obtain ⟨hbegun, hover⟩ := @span_of_held mw _ _ hsince
  have hclear := hw.apart i j call other hi hj hij key otherKey hkey hotherKey heq t s hbegun hs
  rw [hover] at hclear
  exact hclear.resolve_left fun ⟨e, he, _⟩ => absurd he (by simp)

theorem guarded_settled (hw : Guarded mw w) {i : ℕ} {call : Call} {key : Keyed} {t : ℚ}
    (hi : w.calls[i]? = some call) (hkey : call.keyed = some key)
    (hsince : heldSince call.phase = some t) {outcome : Outcome} {store : Store}
    (hending : Ending mw w key t outcome store) :
    Guarded mw (w.moved i call (.finished outcome) store) := by
  have hmem := List.mem_of_getElem? hi
  obtain ⟨hle, -, -⟩ := hw.held call hmem key t hkey hsince
  have hsome : (heldSince call.phase).isSome := by rw [hsince]; rfl
  have hunfinished : ∀ outcome, call.phase ≠ .finished outcome := by
    intro outcome hphase
    exact absurd hsince (by simp [hphase, heldSince])
  have hstay : ∀ other ∈ w.calls, ∀ key s r sent, Recorded other key s r sent →
      other ∈ w.calls.set i { call with phase := .finished outcome } :=
    fun other hother key s r sent hrecorded => recorded_stays hi hunfinished hother hrecorded
  have hnew : ({ call with phase := .finished outcome } : Call) ∈
      w.calls.set i { call with phase := .finished outcome } :=
    List.mem_of_getElem? (@getElem?_moved w i call call _ w.store hi)
  refine ⟨?_, ?_, ?_, ?_, ?_, ?_, ?_⟩
  · intro c hc
    rcases Processes.mem_set_cases hc with rfl | ⟨j, -, hj⟩
    · exact hw.keys call hmem
    · exact hw.keys c (List.mem_of_getElem? hj)
  · intro c hc
    rcases Processes.mem_set_cases hc with rfl | ⟨j, -, hj⟩
    · cases hending with
      | recorded sent hform hstorable => exact hform
      | released sent raised hfailed => exact Or.inl rfl
    · exact hw.form c (List.mem_of_getElem? hj)
  · intro c hc key' t' hkey' hsince'
    rcases Processes.mem_set_cases hc with rfl | ⟨j, hij, hj⟩
    · exact absurd hsince' (by simp [heldSince])
    · obtain ⟨hle', hlt, hfind⟩ := hw.held c (List.mem_of_getElem? hj) key' t' hkey' hsince'
      have hne := hw.other_of_held hj hi (Ne.symm hij) hkey' hkey (by rw [hsince']; rfl) hsome
      exact ⟨hle', hlt, (hending.find_of_ne hne).trans hfind⟩
  · intro c hc key' s r sent hrecorded hlt
    rcases Processes.mem_set_cases hc with rfl | ⟨j, hij, hj⟩
    · obtain ⟨hkey', hphase⟩ := hrecorded
      obtain rfl : key = key' := Option.some.inj (hkey.symm.trans hkey')
      cases hending with
      | recorded sent' hform hstorable =>
        obtain ⟨-, rfl, rfl⟩ : t = s ∧ w.now = r ∧ sent' = sent := by simpa using hphase
        exact find_insert_self _ _ _
      | released sent' raised hfailed => exact absurd hphase (by simp)
    · have hfind := hw.alive c (List.mem_of_getElem? hj) key' s r sent hrecorded hlt
      have hne : key'.storeKey ≠ key.storeKey := by
        intro heq
        have hs : begun c.phase = some s := by
          rw [hrecorded.2]
          rfl
        obtain ⟨e, he, het⟩ :=
          hw.freeAt_le_of_held hi hj hij hkey hrecorded.1 heq.symm hsince hs
        rw [hrecorded.2] at he
        obtain rfl : r + (mw.ttlSeconds : ℚ) = e := Option.some.inj he
        exact absurd hlt (not_lt.mpr (het.trans hle))
      exact (hending.find_of_ne hne).trans hfind
  · intro storeKey entry hstore hlive
    obtain ⟨hfind, hlt⟩ := live_eq_some.mp hlive
    by_cases heq : storeKey = key.storeKey
    · subst heq
      cases hending with
      | recorded sent hform hstorable =>
        have hentry := (find_insert_self _ _ _).symm.trans hfind
        exact Or.inr ⟨_, hnew, key, t, w.now, sent, rfl, ⟨hkey, rfl⟩,
          (Option.some.inj hentry).symm⟩
      | released sent raised hfailed =>
        exact absurd ((find_delete_self _ _).symm.trans hfind) (by simp)
    · change store.find storeKey = some entry at hfind
      rw [hending.find_of_ne heq] at hfind
      rcases hw.source storeKey entry hstore (live_eq_some.mpr ⟨hfind, hlt⟩) with
        ⟨key', t', hstoreKey, hentry, c, hc, hckey, hcsince⟩ |
        ⟨c, hc, key', s, r, sent, hstoreKey, hrecorded, hentry⟩
      · refine Or.inl ⟨key', t', hstoreKey, hentry, c, ?_, hckey, hcsince⟩
        refine Processes.mem_set_of_ne hi hc ?_
        rintro rfl
        obtain rfl : key = key' := Option.some.inj (hkey.symm.trans hckey)
        exact heq hstoreKey.symm
      · exact Or.inr ⟨c, hstay c hc key' s r sent hrecorded, key', s, r, sent, hstoreKey,
          hrecorded, hentry⟩
  · intro c hc
    rcases Processes.mem_set_cases hc with rfl | ⟨j, -, hj⟩
    · exact (hending.outcomeOk call).mono le_rfl hstay
    · exact (hw.outcomes c (List.mem_of_getElem? hj)).mono le_rfl hstay
  · refine hw.apart.set Clear.symm ?_
    intro j q hj hij kp kq hkp hkq heq s t' hs ht
    obtain rfl : key = kp := Option.some.inj (hkey.symm.trans hkp)
    obtain rfl : t = s := Option.some.inj (hending.begun_eq.symm.trans hs)
    exact Or.inr (hw.freeAt_le_of_held hi hj hij hkey hkq heq hsince ht)

/-- The answer to a request that found its key taken. -/
theorem outcomeOk_lookedUp (hw : Guarded mw w) {call : Call} (hcall : call ∈ w.calls) {key : Keyed}
    (hkey : call.keyed = some key) :
    OutcomeOk mw w { call with phase := .finished (.answered w.now
      (answerExisting (w.store.get w.now key.storeKey) key.fingerprint)) } := by
  refine outcomeOk_of_answered rfl ?_
  intro key' response hkey' hanswer
  obtain rfl : key = key' := Option.some.inj (hkey.symm.trans hkey')
  cases hlive : w.store.live w.now key.storeKey with
  | none =>
    rw [Store.get, hlive] at hanswer
    exact absurd hanswer (by simp [answerExisting, answerRecord, Answer.inUse])
  | some entry =>
    rw [Store.get, hlive, Option.map_some] at hanswer
    rcases hw.source _ entry (hw.keys call hcall key hkey) hlive with
      ⟨holder, t, -, rfl, -⟩ | ⟨other, hother, key', s, r, sent, hstoreKey, hrecorded, rfl⟩
    · rw [answerExisting_pending] at hanswer
      split at hanswer
      · exact absurd hanswer (by simp [Answer.inUse])
      · exact absurd hanswer (by simp [Answer.reused])
    · rw [answerExisting_done] at hanswer
      split at hanswer
      · rename_i hfingerprint
        obtain rfl : key' = key := by
          cases key'
          cases key
          simp_all
        refine ⟨other, hother, s, r, sent, hrecorded, (by simpa using hanswer.symm), ?_, ?_⟩
        · exact ((hw.outcomes other hother).recorded key' s r sent hrecorded).2
        · exact (live_eq_some.mp hlive).2
      · exact absurd hanswer (by simp [Answer.reused])

theorem guarded_moved (hw : Guarded mw w) {w' : World} {i : ℕ} {call : Call} {a : Action}
    (hi : w.calls[i]? = some call) (hassumed : Assumed mw w a) (h : Moved mw w i call a w') :
    Guarded mw w' := by
  have hmem := List.mem_of_getElem? hi
  have hunfinished : ∀ {phase : Phase}, call.phase = phase → (∀ outcome, phase ≠ .finished outcome) →
      ∀ outcome, call.phase ≠ .finished outcome :=
    fun hphase h outcome => hphase ▸ h outcome
  have hform := hw.form call hmem
  cases h with
  | reserved key hkey hphase hfree => exact guarded_reserved hw hi hkey hphase hfree
  | found key hkey hphase htaken =>
    refine hw.quiet hi (hunfinished hphase (by simp)) (by rw [hphase]; rfl) (by rw [hphase]; rfl)
      rfl (Or.inl rfl) ?_
    exact outcomeOk_of_unfinished fun outcome => by simp
  | lookedUp key hkey hphase =>
    exact hw.quiet hi (hunfinished hphase (by simp)) (by rw [hphase]; rfl) (by rw [hphase]; rfl)
      rfl (Or.inl rfl) (outcomeOk_lookedUp hw hmem hkey)
  | refused ha hphase =>
    have hphase' : heldSince call.phase = none ∧ begun call.phase = none ∧
        ∀ outcome, call.phase ≠ .finished outcome := by
      rcases hphase with hphase | hphase
      · rw [hphase]
        exact ⟨rfl, rfl, fun outcome => by simp⟩
      · rw [hphase]
        exact ⟨rfl, rfl, fun outcome => by simp⟩
    refine hw.quiet hi hphase'.2.2 hphase'.1.symm hphase'.2.1.symm rfl (Or.inl rfl) ?_
    exact outcomeOk_of_answered rfl fun key response _ h => absurd h (by simp [Answer.unavailable])
  | passing message raises sent hphase =>
    refine hw.quiet hi (hunfinished hphase (by simp)) (by rw [hphase]; rfl) (by rw [hphase]; rfl)
      rfl (Or.inl rfl) ?_
    exact outcomeOk_of_unfinished fun outcome => by simp
  | sent message raises reservedAt sent hphase hmay =>
    rw [hphase] at hform
    refine hw.quiet hi (hunfinished hphase (by simp)) (by rw [hphase]; rfl) (by rw [hphase]; rfl)
      rfl (inForm_append hform hmay) ?_
    exact outcomeOk_of_unfinished fun outcome => by simp
  | passed raises sent hphase =>
    refine hw.quiet hi (hunfinished hphase (by simp)) (by rw [hphase]; rfl) (by rw [hphase]; rfl)
      rfl (Or.inl rfl) ?_
    exact ⟨fun s t sent raised h => absurd h (by simp), fun s sent h => absurd h (by simp),
      fun s sent raised h => absurd h (by simp), fun key s r sent h => absurd h.2 (by simp),
      fun key t response _ h => absurd h (by simp)⟩
  | ended raises reservedAt sent hphase =>
    rw [hphase] at hform
    refine hw.quiet hi (hunfinished hphase (by simp)) (by rw [hphase]; rfl) (by rw [hphase]; rfl)
      rfl hform ?_
    exact outcomeOk_of_unfinished fun outcome => by simp
  | recorded key reservedAt sent hkey hphase hstorable =>
    rw [hphase] at hform
    exact guarded_settled hw hi hkey (by rw [hphase]; rfl) (.recorded sent hform hstorable)
  | released key reservedAt sent raised hkey hphase hfailed =>
    refine guarded_settled hw hi hkey (by rw [hphase]; rfl) (.released sent raised ?_)
    intro hraised hstatus
    have hfits : (captured sent).size ≤ maxStoredBody := by
      have hsize := hassumed.2 call hi
      rw [hphase] at hsize
      exact hsize
    rcases hfailed with hfailed | hfailed
    · exact absurd (hraised.symm.trans hfailed) (by simp)
    · rw [Captured.storable, decide_eq_true hstatus, decide_eq_true hfits] at hfailed
      exact absurd hfailed (by simp)
  | lost outcome reservedAt sent raised hphase houtcome => exact absurd hassumed.1 (by simp)

theorem isKeyOf_storeKey (mw : Middleware) (subject rawKey : String) :
    isKeyOf (storeKey mw subject rawKey) = true := by
  rw [isKeyOf, storeKey, String.toList_append]
  exact List.isPrefixOf_iff_prefix.mpr (List.prefix_append _ _)

/-- A request that has just come holds nothing. -/
theorem arriving_cases (mw : Middleware) (w : World) (request : HttpRequest) :
    (∀ key, (arriving mw w request).keyed = some key → isKeyOf key.storeKey = true) ∧
    heldSince (arriving mw w request).phase = none ∧ begun (arriving mw w request).phase = none ∧
    sentBy (arriving mw w request).phase = [] ∧ OutcomeOk mw w (arriving mw w request) := by
  have hanswered : ∀ t, OutcomeOk mw w ⟨request, none, .finished (.answered t .invalidKey)⟩ := by
    intro t
    exact outcomeOk_of_answered rfl fun key response h _ => absurd h (by simp)
  unfold arriving
  cases hdispatch : dispatch mw w.now request with
  | passThrough =>
    exact ⟨fun key h => absurd h (by simp), rfl, rfl, rfl,
      outcomeOk_of_unfinished fun outcome => by simp⟩
  | invalidKey => exact ⟨fun key h => absurd h (by simp), rfl, rfl, rfl, hanswered w.now⟩
  | keyed key =>
    refine ⟨?_, rfl, rfl, rfl, outcomeOk_of_unfinished fun outcome => by simp⟩
    intro key' hkey'
    obtain rfl : key = key' := Option.some.inj hkey'
    unfold dispatch at hdispatch
    split at hdispatch
    · exact absurd hdispatch (by simp)
    · split at hdispatch
      · exact absurd hdispatch (by simp)
      · split at hdispatch
        · exact absurd hdispatch (by simp)
        · split at hdispatch
          · exact absurd hdispatch (by simp)
          · split at hdispatch
            · exact absurd hdispatch (by simp)
            · obtain rfl := Dispatch.keyed.inj hdispatch
              exact isKeyOf_storeKey mw _ _

theorem guarded_arrived (hw : Guarded mw w) (request : HttpRequest) :
    Guarded mw { w with calls := w.calls ++ [arriving mw w request] } := by
  obtain ⟨hkeys, hheld, hbegun, hsent, hok⟩ := arriving_cases mw w request
  obtain ⟨new, hnew⟩ : ∃ new, new = arriving mw w request := ⟨_, rfl⟩
  rw [← hnew] at hkeys hheld hbegun hsent hok ⊢
  have hnot : ∀ key s r sent, ¬Recorded new key s r sent := by
    rintro key s r sent ⟨-, hphase⟩
    rw [hphase] at hbegun
    exact absurd hbegun (by simp [begun])
  have hstay : ∀ other ∈ w.calls, ∀ key s r sent, Recorded other key s r sent →
      other ∈ w.calls ++ [new] :=
    fun other hother _ _ _ _ _ => List.mem_append_left _ hother
  refine ⟨?_, ?_, ?_, ?_, ?_, ?_, ?_⟩
  · intro c hc
    rcases List.mem_append.mp hc with hc | hc
    · exact hw.keys c hc
    · rw [List.mem_singleton.mp hc]
      exact hkeys
  · intro c hc
    rcases List.mem_append.mp hc with hc | hc
    · exact hw.form c hc
    · rw [List.mem_singleton.mp hc, hsent]
      exact Or.inl rfl
  · intro c hc key t hkey hsince
    rcases List.mem_append.mp hc with hc | hc
    · exact hw.held c hc key t hkey hsince
    · rw [List.mem_singleton.mp hc, hheld] at hsince
      exact absurd hsince (by simp)
  · intro c hc key s r sent hrecorded
    rcases List.mem_append.mp hc with hc | hc
    · exact hw.alive c hc key s r sent hrecorded
    · rw [List.mem_singleton.mp hc] at hrecorded
      exact absurd hrecorded (hnot key s r sent)
  · intro storeKey entry hstore hlive
    rcases hw.source storeKey entry hstore hlive with
      ⟨key, t, hstoreKey, hentry, c, hc, hckey, hcsince⟩ |
      ⟨c, hc, key, s, r, sent, hstoreKey, hrecorded, hentry⟩
    · exact Or.inl ⟨key, t, hstoreKey, hentry, c, List.mem_append_left _ hc, hckey, hcsince⟩
    · exact Or.inr ⟨c, List.mem_append_left _ hc, key, s, r, sent, hstoreKey, hrecorded, hentry⟩
  · intro c hc
    rcases List.mem_append.mp hc with hc | hc
    · exact (hw.outcomes c hc).mono le_rfl hstay
    · rw [List.mem_singleton.mp hc]
      exact hok.mono le_rfl hstay
  · refine hw.apart.append Clear.symm ?_
    intro q _ kp kq _ _ _ s t hs
    exact absurd (hbegun.symm.trans hs) (by simp)

/-- Only entries of this middleware matter to it. -/
theorem guarded_foreign (hw : Guarded mw w) {store : Store}
    (hstore : ∀ key, isKeyOf key = true → store.find key = w.store.find key) :
    Guarded mw { w with store } := by
  refine ⟨hw.keys, hw.form, ?_, ?_, ?_, ?_, hw.apart⟩
  · intro c hc key t hkey hsince
    obtain ⟨hle, hlt, hfind⟩ := hw.held c hc key t hkey hsince
    exact ⟨hle, hlt, (hstore _ (hw.keys c hc key hkey)).trans hfind⟩
  · intro c hc key s r sent hrecorded hlt
    have hfind := hw.alive c hc key s r sent hrecorded hlt
    exact (hstore _ (hw.keys c hc key hrecorded.1)).trans hfind
  · intro storeKey entry hkey hlive
    obtain ⟨hfind, hlt⟩ := live_eq_some.mp hlive
    change store.find storeKey = some entry at hfind
    rw [hstore storeKey hkey] at hfind
    exact hw.source storeKey entry hkey (live_eq_some.mpr ⟨hfind, hlt⟩)
  · intro c hc
    exact (hw.outcomes c hc).mono le_rfl fun other hother _ _ _ _ _ => hother

theorem guarded_ticked (hw : Guarded mw w) {now : ℚ} (hle : w.now ≤ now)
    (hassumed : Assumed mw w (.tick now)) : Guarded mw { w with now } := by
  refine ⟨hw.keys, hw.form, ?_, ?_, ?_, ?_, hw.apart⟩
  · intro c hc key t hkey hsince
    obtain ⟨hbefore, -, hfind⟩ := hw.held c hc key t hkey hsince
    exact ⟨hbefore.trans hle, hassumed c hc t hsince, hfind⟩
  · intro c hc key s r sent hrecorded hlt
    exact hw.alive c hc key s r sent hrecorded (lt_of_le_of_lt hle hlt)
  · intro storeKey entry hkey hlive
    exact hw.source storeKey entry hkey (live_of_le hle hlive)
  · intro c hc
    exact (hw.outcomes c hc).mono hle fun other hother _ _ _ _ _ => hother

theorem guarded_start (h : Start w) : Guarded mw w := by
  refine ⟨?_, ?_, ?_, ?_, ?_, ?_, ?_⟩
  · rw [h.calls]
    exact fun c hc => absurd hc List.not_mem_nil
  · rw [h.calls]
    exact fun c hc => absurd hc List.not_mem_nil
  · rw [h.calls]
    exact fun c hc => absurd hc List.not_mem_nil
  · rw [h.calls]
    exact fun c hc => absurd hc List.not_mem_nil
  · intro storeKey entry hkey hlive
    exact absurd ((h.keys storeKey hkey).symm.trans (live_eq_some.mp hlive).1) (by simp)
  · rw [h.calls]
    exact fun c hc => absurd hc List.not_mem_nil
  · rw [h.calls]
    exact Processes.apart_nil _

theorem guarded_step (hw : Guarded mw w) {w' : World} {a : Action} (hassumed : Assumed mw w a)
    (h : step mw w a = some w') : Guarded mw w' := by
  cases step_cases h with
  | arrived request => exact guarded_arrived hw request
  | foreign key entry hkey =>
    refine guarded_foreign hw ?_
    intro other hother
    have hne : other ≠ key := by
      rintro rfl
      exact absurd (hother.symm.trans hkey) (by simp)
    cases entry with
    | none => exact find_delete_of_ne _ hne
    | some entry => exact find_insert_of_ne _ _ hne
  | ticked now hle => exact guarded_ticked hw hle hassumed
  | moved i call hi hmoved => exact guarded_moved hw hi hassumed hmoved

/-- What idempotency keys give: at most one success while its record lives, replays that
are what was sent for the same request, no execution while the key is taken, and a free
key after a failure. -/
structure Protected (mw : Middleware) (w : World) : Prop where
  atMostOne : ∀ (i j : ℕ) (p q : Call) (kp kq : Keyed), w.calls[i]? = some p →
    w.calls[j]? = some q → i ≠ j → p.keyed = some kp → q.keyed = some kq →
    kp.storeKey = kq.storeKey → Succeeded p → Succeeded q →
    ∃ s r sent s' r' sent', Recorded p kp s r sent ∧ Recorded q kq s' r' sent' ∧
      (r + mw.ttlSeconds ≤ s' ∨ r' + mw.ttlSeconds ≤ s)
  faithful : ∀ call ∈ w.calls, ∀ key t response, call.keyed = some key →
    call.phase = .finished (.answered t (.replay response)) →
    ∃ other ∈ w.calls, ∃ s r sent, Recorded other key s r sent ∧ r ≤ t ∧ t < r + mw.ttlSeconds ∧
      ∃ (status : ℕ) (headers : List (String × String)) (chunks : List Events.Bytes),
        sent = .start status headers :: chunks.map .body ∧ 200 ≤ status ∧ status < 300 ∧
        response = ⟨status, keptHeaders headers ++ [("idempotent-replayed", "true")],
          chunks.flatten⟩
  starts : ∀ (a : Action) (w' : World) (i : ℕ) (call call' : Call) (key : Keyed),
    step mw w a = some w' → w.calls[i]? = some call → w'.calls[i]? = some call' →
    call.keyed = some key → heldSince call.phase = none → (heldSince call'.phase).isSome →
    ∀ fingerprint, ¬Reserved w ⟨key.storeKey, fingerprint⟩ ∧
      ¬Alive mw w ⟨key.storeKey, fingerprint⟩
  looksUp : ∀ (i : ℕ) (call : Call) (key : Keyed) (fingerprint : String),
    w.calls[i]? = some call → call.keyed = some key → call.phase = .reserving →
    (Reserved w ⟨key.storeKey, fingerprint⟩ ∨ Alive mw w ⟨key.storeKey, fingerprint⟩) →
    step mw w (.reserve i true) = some (w.moved i call .lookingUp w.store)
  reused : ∀ (i : ℕ) (call : Call) (key : Keyed) (fingerprint : String),
    w.calls[i]? = some call → call.keyed = some key → call.phase = .lookingUp →
    fingerprint ≠ key.fingerprint →
    (Reserved w ⟨key.storeKey, fingerprint⟩ ∨ Alive mw w ⟨key.storeKey, fingerprint⟩) →
    step mw w (.lookup i true) =
      some (w.moved i call (.finished (.answered w.now .reused)) w.store)
  inUse : ∀ (i : ℕ) (call : Call) (key : Keyed), w.calls[i]? = some call →
    call.keyed = some key → call.phase = .lookingUp → Reserved w key →
    step mw w (.lookup i true) = some (w.moved i call (.finished (.answered w.now .inUse)) w.store)
  freed : ∀ (i : ℕ) (w' : World) (call' : Call) (key : Keyed),
    step mw w (.settle i true) = some w' → w'.calls[i]? = some call' →
    call'.keyed = some key → Assumed mw w (.settle i true) → ¬Succeeded call' →
    w'.store.live w'.now key.storeKey = none ∧ ∀ fingerprint,
      ¬Reserved w' ⟨key.storeKey, fingerprint⟩ ∧ ¬Alive mw w' ⟨key.storeKey, fingerprint⟩

theorem Guarded.find_of_reserved (hw : Guarded mw w) {key : Keyed} (h : Reserved w key) :
    ∃ t, w.store.live w.now key.storeKey = some ⟨pendingText key, t⟩ := by
  obtain ⟨call, hcall, hkey, hsome⟩ := h
  obtain ⟨t, ht⟩ := Option.isSome_iff_exists.mp hsome
  obtain ⟨-, hlt, hfind⟩ := hw.held call hcall key t hkey ht
  exact ⟨t + mw.lockSeconds, live_eq_some.mpr ⟨hfind, hlt⟩⟩

theorem Guarded.find_of_alive (hw : Guarded mw w) {key : Keyed} (h : Alive mw w key) :
    ∃ sent t, w.store.live w.now key.storeKey = some ⟨doneText key sent, t⟩ := by
  obtain ⟨call, hcall, s, r, sent, hrecorded, hlt⟩ := h
  have hfind := hw.alive call hcall key s r sent hrecorded hlt
  exact ⟨sent, r + mw.ttlSeconds, live_eq_some.mpr ⟨hfind, hlt⟩⟩

/-- A key that is absent from the store is neither reserved nor recorded. -/
theorem Guarded.free_of_absent (hw : Guarded mw w) {storeKey : String}
    (h : w.store.live w.now storeKey = none) (fingerprint : String) :
    ¬Reserved w ⟨storeKey, fingerprint⟩ ∧ ¬Alive mw w ⟨storeKey, fingerprint⟩ := by
  refine ⟨fun hreserved => ?_, fun halive => ?_⟩
  · obtain ⟨t, hlive⟩ := hw.find_of_reserved hreserved
    exact absurd (h.symm.trans hlive) (by simp)
  · obtain ⟨sent, t, hlive⟩ := hw.find_of_alive halive
    exact absurd (h.symm.trans hlive) (by simp)

theorem Guarded.recorded_of_succeeded (hw : Guarded mw w) {call : Call} (hcall : call ∈ w.calls)
    (h : Succeeded call) : ∃ s r sent, call.phase = .finished (.recorded s r sent) := by
  have hok := hw.outcomes call hcall
  unfold Succeeded at h
  split at h
  · rename_i s r sent hphase
    exact ⟨s, r, sent, hphase⟩
  · rename_i s sent hphase
    exact absurd hphase (hok.recordKept s sent)
  · rename_i s t sent raised hphase
    exact absurd h.2 ((hok.released s t sent raised hphase).2 h.1)
  · rename_i s sent raised hphase
    exact absurd hphase (hok.releaseDone s sent raised)
  · exact absurd h id

theorem Guarded.atMostOne (hw : Guarded mw w) {i j : ℕ} {p q : Call} {kp kq : Keyed}
    (hi : w.calls[i]? = some p) (hj : w.calls[j]? = some q) (hij : i ≠ j)
    (hkp : p.keyed = some kp) (hkq : q.keyed = some kq) (hkey : kp.storeKey = kq.storeKey)
    (hp : Succeeded p) (hq : Succeeded q) :
    ∃ s r sent s' r' sent', Recorded p kp s r sent ∧ Recorded q kq s' r' sent' ∧
      (r + mw.ttlSeconds ≤ s' ∨ r' + mw.ttlSeconds ≤ s) := by
  obtain ⟨s, r, sent, hphase⟩ := hw.recorded_of_succeeded (List.mem_of_getElem? hi) hp
  obtain ⟨s', r', sent', hphase'⟩ := hw.recorded_of_succeeded (List.mem_of_getElem? hj) hq
  refine ⟨s, r, sent, s', r', sent', ⟨hkp, hphase⟩, ⟨hkq, hphase'⟩, ?_⟩
  have hclear := hw.apart i j p q hi hj hij kp kq hkp hkq hkey s s' (by rw [hphase]; rfl)
    (by rw [hphase']; rfl)
  rw [hphase, hphase'] at hclear
  rcases hclear with ⟨e, he, hle⟩ | ⟨e, he, hle⟩
  · obtain rfl : r + (mw.ttlSeconds : ℚ) = e := Option.some.inj he
    exact Or.inl hle
  · obtain rfl : r' + (mw.ttlSeconds : ℚ) = e := Option.some.inj he
    exact Or.inr hle

/-- Only a request that reserves its key, and finds it absent, starts to run. -/
theorem reserve_of_starts {w' : World} {a : Action} (h : step mw w a = some w') {i : ℕ}
    {call call' : Call} {key : Keyed} (hi : w.calls[i]? = some call)
    (hi' : w'.calls[i]? = some call') (hkey : call.keyed = some key)
    (hbefore : heldSince call.phase = none) (hafter : (heldSince call'.phase).isSome) :
    a = .reserve i true ∧ w.store.live w.now key.storeKey = none := by
  have hsame : call' ≠ call := by
    rintro rfl
    rw [hbefore] at hafter
    exact absurd hafter (by simp)
  have hphase : ∀ {phase : Phase} {store : Store},
      (w.moved i call phase store).calls[i]? = some call' → call'.phase = phase := by
    intro phase store hcalls
    exact (congrArg Call.phase (Option.some.inj ((getElem?_moved hi).symm.trans hcalls))).symm
  cases moved_of_step h hi hi' hsame with
  | reserved key' hkey' hreserving hfree =>
    obtain rfl : key = key' := Option.some.inj (hkey.symm.trans hkey')
    exact ⟨rfl, hfree⟩
  | found key' hkey' hreserving htaken =>
    rw [hphase hi'] at hafter
    exact absurd hafter (by simp [heldSince])
  | lookedUp key' hkey' hlooking =>
    rw [hphase hi'] at hafter
    exact absurd hafter (by simp [heldSince])
  | refused ha hrefused =>
    rw [hphase hi'] at hafter
    exact absurd hafter (by simp [heldSince])
  | passing message raises sent hpassing =>
    rw [hphase hi'] at hafter
    exact absurd hafter (by simp [heldSince])
  | sent message raises reservedAt sent hrunning hmay =>
    exact absurd hbefore (by simp [hrunning, heldSince])
  | passed raises sent hpassing =>
    rw [hphase hi'] at hafter
    exact absurd hafter (by simp [heldSince])
  | ended raises reservedAt sent hrunning => exact absurd hbefore (by simp [hrunning, heldSince])
  | recorded key' reservedAt sent hkey' hended hstorable =>
    exact absurd hbefore (by simp [hended, heldSince])
  | released key' reservedAt sent raised hkey' hended hfailed =>
    exact absurd hbefore (by simp [hended, heldSince])
  | lost outcome reservedAt sent raised hended houtcome =>
    exact absurd hbefore (by simp [hended, heldSince])

theorem absent_of_starts {w' : World} {a : Action} (h : step mw w a = some w') {i : ℕ}
    {call call' : Call} {key : Keyed} (hi : w.calls[i]? = some call)
    (hi' : w'.calls[i]? = some call') (hkey : call.keyed = some key)
    (hbefore : heldSince call.phase = none) (hafter : (heldSince call'.phase).isSome) :
    w.store.live w.now key.storeKey = none :=
  (reserve_of_starts h hi hi' hkey hbefore hafter).2

theorem step_reserve_taken {i : ℕ} {call : Call} {key : Keyed} (hi : w.calls[i]? = some call)
    (hkey : call.keyed = some key) (hphase : call.phase = .reserving)
    (htaken : w.store.live w.now key.storeKey ≠ none) :
    step mw w (.reserve i true) = some (w.moved i call .lookingUp w.store) := by
  obtain ⟨request, keyed, phase⟩ := call
  obtain rfl : keyed = some key := hkey
  obtain rfl : phase = .reserving := hphase
  simp only [step, Action.call, hi, Option.bind_some, stepCall, set_of_present htaken]
  rfl

theorem step_lookup {i : ℕ} {call : Call} {key : Keyed} (hi : w.calls[i]? = some call)
    (hkey : call.keyed = some key) (hphase : call.phase = .lookingUp) :
    step mw w (.lookup i true) = some (w.moved i call (.finished (.answered w.now
      (answerExisting (w.store.get w.now key.storeKey) key.fingerprint))) w.store) := by
  obtain ⟨request, keyed, phase⟩ := call
  obtain rfl : keyed = some key := hkey
  obtain rfl : phase = .lookingUp := hphase
  simp only [step, Action.call, hi, Option.bind_some, stepCall]
  rfl

theorem Guarded.answer_reused (hw : Guarded mw w) {key : Keyed} {fingerprint : String}
    (hne : fingerprint ≠ key.fingerprint)
    (h : Reserved w ⟨key.storeKey, fingerprint⟩ ∨ Alive mw w ⟨key.storeKey, fingerprint⟩) :
    answerExisting (w.store.get w.now key.storeKey) key.fingerprint = .reused := by
  rcases h with h | h
  · obtain ⟨t, hlive⟩ := hw.find_of_reserved h
    rw [Store.get, hlive, Option.map_some, answerExisting_pending, if_neg hne]
  · obtain ⟨sent, t, hlive⟩ := hw.find_of_alive h
    rw [Store.get, hlive, Option.map_some, answerExisting_done, if_neg hne]

theorem Guarded.freed (hw : Guarded mw w) {i : ℕ} {w' : World} {call' : Call} {key : Keyed}
    (h : step mw w (.settle i true) = some w') (hi' : w'.calls[i]? = some call')
    (hkey : call'.keyed = some key) (hassumed : Assumed mw w (.settle i true))
    (hfailed : ¬Succeeded call') :
    w'.store.live w'.now key.storeKey = none ∧ ∀ fingerprint,
      ¬Reserved w' ⟨key.storeKey, fingerprint⟩ ∧ ¬Alive mw w' ⟨key.storeKey, fingerprint⟩ := by
  have hw' := guarded_step hw hassumed h
  have hlive : w'.store.live w'.now key.storeKey = none := by
    cases step_cases h with
    | moved j call hj hmoved =>
      cases hmoved with
      | refused ha hphase => exact absurd ha (by simp)
      | recorded key' reservedAt sent hkey' hphase hstorable =>
        obtain rfl := Option.some.inj ((getElem?_moved hj).symm.trans hi')
        exact absurd trivial hfailed
      | released key' reservedAt sent raised hkey' hphase hfailed' =>
        obtain rfl := Option.some.inj ((getElem?_moved hj).symm.trans hi')
        obtain rfl : key' = key := Option.some.inj (hkey'.symm.trans hkey)
        show Option.filter _ ((w.store.delete key'.storeKey).find key'.storeKey) = none
        rw [find_delete_self]
        rfl
  exact ⟨hlive, hw'.free_of_absent hlive⟩

theorem Guarded.protected (hw : Guarded mw w) : Protected mw w := by
  refine ⟨?_, ?_, ?_, ?_, ?_, ?_, ?_⟩
  · intro i j p q kp kq hi hj hij hkp hkq hkey hp hq
    exact hw.atMostOne hi hj hij hkp hkq hkey hp hq
  · intro call hcall key t response hkey hphase
    obtain ⟨other, hother, s, r, sent, hrecorded, rfl, hrt, htr⟩ :=
      (hw.outcomes call hcall).replay key t response hkey hphase
    have hform := hw.form other hother
    rw [hrecorded.2] at hform
    have hstorable := ((hw.outcomes other hother).recorded key s r sent hrecorded).1
    obtain ⟨status, headers, chunks, hsent, hlow, hhigh, hreplayed⟩ :=
      sent_of_storable hform hstorable
    exact ⟨other, hother, s, r, sent, hrecorded, hrt, htr, status, headers, chunks, hsent, hlow,
      hhigh, hreplayed⟩
  · intro a w' i call call' key h hi hi' hkey hbefore hafter
    exact hw.free_of_absent (absent_of_starts h hi hi' hkey hbefore hafter)
  · intro i call key fingerprint hi hkey hphase htaken
    refine step_reserve_taken hi hkey hphase ?_
    intro habsent
    obtain ⟨hreserved, halive⟩ := hw.free_of_absent habsent fingerprint
    exact htaken.elim hreserved halive
  · intro i call key fingerprint hi hkey hphase hne htaken
    rw [step_lookup hi hkey hphase, hw.answer_reused hne htaken]
  · intro i call key hi hkey hphase hreserved
    obtain ⟨t, hlive⟩ := hw.find_of_reserved hreserved
    rw [step_lookup hi hkey hphase, Store.get, hlive, Option.map_some, answerExisting_pending,
      if_pos rfl]
  · intro i w' call' key h hi' hkey hassumed hfailed
    exact hw.freed h hi' hkey hassumed hfailed

/-- In every run in which the store answers, sends do not raise, bodies fit and no
reservation expires under a running request, keys protect in every state reached. -/
theorem keys_protect (mw : Middleware) (w₀ w : World) (trace : List Action) (h₀ : Start w₀)
    (hrun : (system mw).run w₀ trace = some w)
    (hmeets : (system mw).RunMeets (Assumed mw) w₀ trace) : Protected mw w := by
  have hw : Guarded mw w := (system mw).run_preserves_of_meets _ (Guarded mw)
    (fun _ _ _ hs hassumed hstep => guarded_step hs hassumed hstep) hrun hmeets
    (guarded_start h₀)
  exact hw.protected

/-- An agent posts a decision with a key; the digests are those of its two texts. -/
def exampleRequest : HttpRequest :=
  ⟨"POST", "/v1/organizations/1/decisions", [],
    [("authorization", "Bearer t"), ("idempotency-key", "k")], Events.encode "\x7b\x7d"⟩

def exampleDigests : List (Events.Bytes × String) :=
  [(Events.encode "POST\x00/v1/organizations/1/decisions\x00\x00\x7b\x7d",
      "2d16f2c8eb4436d05807992ea23101e6f1878477ca00cc02cee0bea0e3e30654"),
   (Events.encode "agent:00000000-0000-0000-0000-000000000006\x00k",
      "2ae0c79eb96d5289690b8e301b3cb673b3dd9ff7c777322471c47e7f7f0b4331")]

def exampleMiddleware : Middleware :=
  ⟨fun _ token => if token = "t" then some ⟨5, some 1, none, none, some 6⟩ else none,
    fun bytes => (exampleDigests.lookup bytes).getD "", false, 86400, 60, by decide, by decide⟩

def exampleStart : World := ⟨MemoryStore.empty, 0, []⟩

/-- A second request comes while the first runs, and looks up when it is recorded. -/
def exampleTrace : List Action :=
  [.arrive exampleRequest, .reserve 0 true, .arrive exampleRequest, .reserve 1 true, .tick 59,
   .emit 0 (.start 201 [("Content-Type", "application/json")]) false,
   .emit 0 (.body (Events.encode "[]")) false, .finishApp 0 false, .settle 0 true, .tick 100,
   .lookup 1 true]

def exampleReplay (call : Call) : Bool :=
  match call.phase with
  | .finished (.answered _ (.replay response)) =>
    decide (response = ⟨201, [("content-type", "application/json"), ("idempotent-replayed", "true")],
      Events.encode "[]"⟩)
  | _ => false

theorem exampleTrace_replays :
    ((system exampleMiddleware).run exampleStart exampleTrace).any
      (fun w => (w.calls[1]?).any exampleReplay) = true := by
  decide +kernel

instance (mw : Middleware) (w : World) : DecidablePred (Assumed mw w) := fun a =>
  match a with
  | .reserve _ available => inferInstanceAs (Decidable (available = true))
  | .lookup _ available => inferInstanceAs (Decidable (available = true))
  | .emit _ _ sendRaises => inferInstanceAs (Decidable (sendRaises = false))
  | .settle i available => decidable_of_iff (available = true ∧
      (w.calls[i]?).all fun call => decide ((captured (sentBy call.phase)).size ≤ maxStoredBody))
      (by simp [Assumed, Option.all_eq_true])
  | .tick now => decidable_of_iff
      (∀ call ∈ w.calls, (heldSince call.phase).all fun t => decide (now < t + mw.lockSeconds))
      (by simp [Assumed, Option.all_eq_true])
  | .arrive _ => isTrue trivial
  | .finishApp _ _ => isTrue trivial
  | .foreign _ _ => isTrue trivial

theorem exampleTrace_meets : (system exampleMiddleware).RunMeets (Assumed exampleMiddleware)
    exampleStart exampleTrace := by
  decide +kernel

theorem keys_protect_example : ∃ w,
    (system exampleMiddleware).run exampleStart exampleTrace = some w ∧
    (w.calls[1]?).any exampleReplay = true ∧ Protected exampleMiddleware w := by
  obtain ⟨w, hrun, hreplay⟩ := (Option.any_eq_true _ _).mp exampleTrace_replays
  exact ⟨w, hrun, hreplay, keys_protect exampleMiddleware exampleStart w exampleTrace
    ⟨rfl, fun key _ => rfl⟩ hrun exampleTrace_meets⟩

end ContextLedger.IdempotentKeys
