import ContextLedger.IdempotentKeys

/-!
What a dropped connection does to a key. A send that raises and a task that is cancelled
look alike to the middleware: an exception leaves the endpoint, and the key is released,
whatever the endpoint has done and sent by then. A task that is cancelled in its last
store operation leaves the reservation behind, as one that finds the store away does, and
that expires long before a record would have.
-/
namespace ContextLedger.DroppedConnections

open Values MemoryStore Idempotency IdempotentKeys

/-- What the endpoint of a request that reserved its key has sent. -/
def produced : Phase → List Message
  | .running _ sent => sent
  | .ended _ sent _ => sent
  | .finished (.recorded _ _ sent) => sent
  | .finished (.recordLost _ sent) => sent
  | .finished (.released _ _ sent _) => sent
  | .finished (.releaseFailed _ sent _) => sent
  | _ => []

/-- A 2xx with its whole body; `complete` tells whether a body has all its parts. -/
def Whole (complete : List Message → Bool) (sent : List Message) : Prop :=
  200 ≤ (captured sent).status ∧ (captured sent).status < 300 ∧ complete sent = true

instance (complete : List Message → Bool) : DecidablePred (Whole complete) :=
  fun _ => inferInstanceAs (Decidable (_ ∧ _ ∧ _))

/-- When the record of a request is over, or would be if it had been filed. -/
def expiry (mw : Middleware) : Phase → Option ℚ
  | .finished (.recorded _ recordedAt _) => some (recordedAt + mw.ttlSeconds)
  | .finished (.recordLost reservedAt _) => some (reservedAt + mw.ttlSeconds)
  | .finished (.released _ releasedAt _ _) => some (releasedAt + mw.ttlSeconds)
  | .finished (.releaseFailed reservedAt _ _) => some (reservedAt + mw.ttlSeconds)
  | _ => none

/-- In this step no request starts to run whose key belongs, within the time of a record, to a
request that the endpoint has answered with a whole 2xx. -/
def NotRepeated (mw : Middleware) (complete : List Message → Bool) (w w' : World) : Prop :=
  ∀ (i j : ℕ) (call retry retry' : Call) (key : Keyed), w.calls[i]? = some call →
    w.calls[j]? = some retry → w'.calls[j]? = some retry' → call.keyed = some key →
    retry.keyed = some key → Whole complete (produced call.phase) →
    (∀ e, expiry mw call.phase = some e → w.now < e) →
    heldSince retry.phase = none → heldSince retry'.phase = none

/-- No exception leaves the endpoint behind a whole 2xx, and its body can be stored; the task is
not cut off in filing it; and no request asks for a key whose reservation expired under a request
that still runs. -/
def Unbroken (mw : Middleware) (complete : List Message → Bool) (w : World) : Action → Prop
  | .finishApp i raises => ∀ call ∈ w.calls[i]?, Whole complete (produced call.phase) →
      raises = false ∧ (captured (produced call.phase)).size ≤ maxStoredBody
  | .settle i applied => ∀ call ∈ w.calls[i]?, Whole complete (produced call.phase) →
      applied = true
  | .reserve j _ => ∀ retry ∈ w.calls[j]?, ∀ key ∈ retry.keyed, ∀ call ∈ w.calls,
      ∀ key' ∈ call.keyed, key'.storeKey = key.storeKey → ∀ t ∈ heldSince call.phase,
        w.now < t + mw.lockSeconds
  | _ => True

/-- How far a request with a whole 2xx can be. -/
def Through : Phase → Prop
  | .running _ _ => True
  | .ended _ sent raised => raised = false ∧ (captured sent).size ≤ maxStoredBody
  | .finished (.recorded _ _ _) => True
  | _ => False

/-- Two requests that hold keys hold different ones. -/
def HoldApart (p q : Call) : Prop :=
  ∀ kp kq, p.keyed = some kp → q.keyed = some kq → (heldSince p.phase).isSome = true →
    (heldSince q.phase).isSome = true → kp.storeKey ≠ kq.storeKey

theorem HoldApart.symm (p q : Call) (h : HoldApart p q) : HoldApart q p :=
  fun kq kp hq hp hheldq hheldp => (h kp kq hp hq hheldp hheldq).symm

structure Kept (mw : Middleware) (complete : List Message → Bool) (w : World) : Prop where
  keys : ∀ call ∈ w.calls, ∀ key, call.keyed = some key → isKeyOf key.storeKey = true
  held : ∀ call ∈ w.calls, ∀ key t, call.keyed = some key → heldSince call.phase = some t →
    w.store.find key.storeKey = some ⟨pendingText key, t + mw.lockSeconds⟩
  alive : ∀ call ∈ w.calls, ∀ key s r sent, Recorded call key s r sent →
    w.now < r + mw.ttlSeconds →
    w.store.find key.storeKey = some ⟨doneText key sent, r + mw.ttlSeconds⟩
  apart : Processes.Apart HoldApart w.calls
  through : ∀ call ∈ w.calls, Whole complete (produced call.phase) → Through call.phase

variable {mw : Middleware} {complete : List Message → Bool} {w : World}

/-- A reservation is not a record. -/
theorem pendingText_ne_doneText (key key' : Keyed) (sent : List Message) :
    pendingText key ≠ doneText key' sent := by
  intro h
  have hpending := answerExisting_pending key key.fingerprint
  have hdone := answerExisting_done key' sent key.fingerprint
  rw [← h, hpending, if_pos rfl] at hdone
  split at hdone
  · exact absurd hdone (by simp [Answer.inUse])
  · exact absurd hdone (by simp [Answer.inUse, Answer.reused])

theorem Kept.not_alive_of_held (hw : Kept mw complete w) {call : Call} (hcall : call ∈ w.calls)
    {key : Keyed} (hkey : call.keyed = some key) (hheld : (heldSince call.phase).isSome = true)
    {c : Call} (hc : c ∈ w.calls) {key' : Keyed} {s r : ℚ} {sent : List Message}
    (hrecorded : Recorded c key' s r sent) (hlt : w.now < r + mw.ttlSeconds) :
    key'.storeKey ≠ key.storeKey := by
  intro hsame
  obtain ⟨t, ht⟩ := Option.isSome_iff_exists.mp hheld
  have hpending := hw.held call hcall key t hkey ht
  have hdone := hw.alive c hc key' s r sent hrecorded hlt
  rw [hsame, hpending] at hdone
  exact pendingText_ne_doneText key key' sent (Entry.mk.inj (Option.some.inj hdone)).1

/-- A request moves, and the store changes at most at keys that no other request holds and
no living record is under. -/
theorem Kept.moved (hw : Kept mw complete w) {i : ℕ} {call : Call} (hi : w.calls[i]? = some call)
    {phase : Phase} {store : Store}
    (hothers : ∀ j q, w.calls[j]? = some q → i ≠ j → ∀ key t, q.keyed = some key →
      heldSince q.phase = some t → store.find key.storeKey = w.store.find key.storeKey)
    (hrecords : ∀ c ∈ w.calls, ∀ key s r sent, Recorded c key s r sent →
      w.now < r + mw.ttlSeconds → store.find key.storeKey = w.store.find key.storeKey)
    (hself : ∀ key t, call.keyed = some key → heldSince phase = some t →
      store.find key.storeKey = some ⟨pendingText key, t + mw.lockSeconds⟩)
    (hnew : ∀ key s r sent, call.keyed = some key → phase = .finished (.recorded s r sent) →
      store.find key.storeKey = some ⟨doneText key sent, r + mw.ttlSeconds⟩)
    (hapart : ∀ j q, w.calls[j]? = some q → i ≠ j → HoldApart { call with phase } q)
    (hthrough : Whole complete (produced phase) → Through phase) :
    Kept mw complete (w.moved i call phase store) := by
  refine ⟨?_, ?_, ?_, hw.apart.set HoldApart.symm hapart, ?_⟩
  · intro c hc
    rcases Processes.mem_set_cases hc with rfl | ⟨j, -, hj⟩
    · exact hw.keys call (List.mem_of_getElem? hi)
    · exact hw.keys c (List.mem_of_getElem? hj)
  · intro c hc key t hkey hheld
    rcases Processes.mem_set_cases hc with rfl | ⟨j, hij, hj⟩
    · exact hself key t hkey hheld
    · exact (hothers j c hj hij key t hkey hheld).trans
        (hw.held c (List.mem_of_getElem? hj) key t hkey hheld)
  · intro c hc key s r sent hrecorded hlt
    rcases Processes.mem_set_cases hc with rfl | ⟨j, -, hj⟩
    · exact hnew key s r sent hrecorded.1 hrecorded.2
    · have hmem := List.mem_of_getElem? hj
      exact (hrecords c hmem key s r sent hrecorded hlt).trans
        (hw.alive c hmem key s r sent hrecorded hlt)
  · intro c hc hwhole
    rcases Processes.mem_set_cases hc with rfl | ⟨j, -, hj⟩
    · exact hthrough hwhole
    · exact hw.through c (List.mem_of_getElem? hj) hwhole

/-- A request moves without touching the store, and holds its key as before or no more. -/
theorem Kept.quiet (hw : Kept mw complete w) {i : ℕ} {call : Call}
    (hi : w.calls[i]? = some call) {phase : Phase}
    (hheld : heldSince phase = heldSince call.phase ∨ heldSince phase = none)
    (hnew : ∀ s r sent, phase ≠ .finished (.recorded s r sent))
    (hthrough : Whole complete (produced phase) → Through phase) :
    Kept mw complete (w.moved i call phase w.store) := by
  refine hw.moved hi (fun _ _ _ _ _ _ _ _ => rfl) (fun _ _ _ _ _ _ _ _ => rfl) ?_ ?_ ?_ hthrough
  · intro key t hkey ht
    rcases hheld with hsame | hnone
    · exact hw.held call (List.mem_of_getElem? hi) key t hkey (hsame ▸ ht)
    · exact absurd (hnone.symm.trans ht) (by simp)
  · exact fun key s r sent _ hphase => absurd hphase (hnew s r sent)
  · intro j q hj hij kp kq hkp hkq hp hq
    rcases hheld with hsame | hnone
    · exact hw.apart i j call q hi hj hij kp kq hkp hkq (hsame ▸ hp) hq
    · change (heldSince phase).isSome = true at hp
      rw [hnone] at hp
      exact absurd hp (by simp)

/-- A request that held its key gives it up, and the store changes at that key. -/
theorem Kept.givesUp (hw : Kept mw complete w) {i : ℕ} {call : Call} {key : Keyed}
    (hi : w.calls[i]? = some call) (hkey : call.keyed = some key)
    (hheld : (heldSince call.phase).isSome = true) {phase : Phase} {store : Store}
    (hstore : ∀ other, other ≠ key.storeKey → store.find other = w.store.find other)
    (hnone : heldSince phase = none)
    (hnew : ∀ s r sent, phase = .finished (.recorded s r sent) →
      store.find key.storeKey = some ⟨doneText key sent, r + mw.ttlSeconds⟩)
    (hthrough : Whole complete (produced phase) → Through phase) :
    Kept mw complete (w.moved i call phase store) := by
  refine hw.moved hi ?_ ?_ ?_ ?_ ?_ hthrough
  · intro j q hj hij key' t hkey' ht
    refine hstore _ ?_
    exact (hw.apart i j call q hi hj hij key key' hkey hkey' hheld (by rw [ht]; rfl)).symm
  · intro c hc key' s r sent hrecorded hlt
    exact hstore _ (hw.not_alive_of_held (List.mem_of_getElem? hi) hkey hheld hc hrecorded hlt)
  · exact fun key' t _ ht => absurd (hnone.symm.trans ht) (by simp)
  · intro key' s r sent hkey' hphase
    obtain rfl : key = key' := Option.some.inj (hkey.symm.trans hkey')
    exact hnew s r sent hphase
  · intro j q _ _ kp kq _ _ hp
    change (heldSince phase).isSome = true at hp
    rw [hnone] at hp
    exact absurd hp (by simp)

/-- A key that is absent from the store belongs to no living record, and to no request whose
reservation has not expired. -/
theorem Kept.not_held_of_absent (hw : Kept mw complete w) {storeKey : String}
    (h : w.store.live w.now storeKey = none) {c : Call} (hc : c ∈ w.calls) {key : Keyed} {t : ℚ}
    (hkey : c.keyed = some key) (ht : heldSince c.phase = some t)
    (hlt : w.now < t + mw.lockSeconds) : key.storeKey ≠ storeKey := by
  rintro rfl
  have hlive := live_eq_some.mpr ⟨hw.held c hc key t hkey ht, hlt⟩
  exact absurd (h.symm.trans hlive) (by simp)

theorem Kept.not_alive_of_absent (hw : Kept mw complete w) {storeKey : String}
    (h : w.store.live w.now storeKey = none) {c : Call} (hc : c ∈ w.calls) {key : Keyed} {s r : ℚ}
    {sent : List Message} (hrecorded : Recorded c key s r sent)
    (hlt : w.now < r + mw.ttlSeconds) : key.storeKey ≠ storeKey := by
  rintro rfl
  have hlive := live_eq_some.mpr ⟨hw.alive c hc key s r sent hrecorded hlt, hlt⟩
  exact absurd (h.symm.trans hlive) (by simp)

theorem kept_reserved (hw : Kept mw complete w) {i : ℕ} {call : Call} {key : Keyed}
    (hi : w.calls[i]? = some call) (hkey : call.keyed = some key)
    (hfree : w.store.live w.now key.storeKey = none)
    (hunbroken : Unbroken mw complete w (.reserve i true)) :
    Kept mw complete (w.moved i call (.running w.now [])
      (w.store.insert key.storeKey ⟨pendingText key, w.now + mw.lockSeconds⟩)) := by
  have hother : ∀ c ∈ w.calls, ∀ key' t, c.keyed = some key' → heldSince c.phase = some t →
      key'.storeKey ≠ key.storeKey := by
    intro c hc key' t hkey' ht hsame
    have hlt := hunbroken call hi key hkey c hc key' hkey' hsame t ht
    exact hw.not_held_of_absent hfree hc hkey' ht hlt hsame
  refine hw.moved hi ?_ ?_ ?_ ?_ ?_ fun _ => trivial
  · intro j q hj _ key' t hkey' ht
    exact find_insert_of_ne _ _ (hother q (List.mem_of_getElem? hj) key' t hkey' ht)
  · intro c hc key' s r sent hrecorded hlt
    exact find_insert_of_ne _ _ (hw.not_alive_of_absent hfree hc hrecorded hlt)
  · intro key' t hkey' ht
    obtain rfl : key = key' := Option.some.inj (hkey.symm.trans hkey')
    obtain rfl : w.now = t := Option.some.inj ht
    exact find_insert_self _ _ _
  · exact fun _ _ _ _ _ h => absurd h (by simp)
  · intro j q hj _ kp kq hkp hkq _ hq hsame
    obtain rfl : key = kp := Option.some.inj (hkey.symm.trans hkp)
    obtain ⟨t, ht⟩ := Option.isSome_iff_exists.mp hq
    exact hother q (List.mem_of_getElem? hj) kq t hkq ht hsame.symm

theorem kept_moved (hw : Kept mw complete w) {w' : World} {i : ℕ} {call : Call} {a : Action}
    (hi : w.calls[i]? = some call) (hunbroken : Unbroken mw complete w a)
    (h : Moved mw w i call a w') : Kept mw complete w' := by
  have hmem := List.mem_of_getElem? hi
  have hnot : ¬Whole complete [] := by
    rintro ⟨-, hlt, -⟩
    exact absurd hlt (by decide)
  cases h with
  | reserved key hkey hphase hfree => exact kept_reserved hw hi hkey hfree hunbroken
  | found key hkey hphase htaken =>
    exact hw.quiet hi (Or.inr rfl) (fun s r sent => by simp) fun hwhole => absurd hwhole hnot
  | lookedUp key hkey hphase =>
    exact hw.quiet hi (Or.inr rfl) (fun s r sent => by simp) fun hwhole => absurd hwhole hnot
  | refused ha hphase =>
    exact hw.quiet hi (Or.inr rfl) (fun s r sent => by simp) fun hwhole => absurd hwhole hnot
  | passing message raises sent hphase =>
    exact hw.quiet hi (Or.inr rfl) (fun s r sent => by simp) fun hwhole => absurd hwhole hnot
  | sent message raises reservedAt sent hphase hmay =>
    exact hw.quiet hi (Or.inl (by rw [hphase]; rfl)) (fun s r sent => by simp) fun _ => trivial
  | passed raises sent hphase =>
    exact hw.quiet hi (Or.inr rfl) (fun s r sent => by simp) fun hwhole => absurd hwhole hnot
  | ended raises reservedAt sent hphase =>
    refine hw.quiet hi (Or.inl (by rw [hphase]; rfl)) (fun s r sent => by simp) fun hwhole => ?_
    have hends := hunbroken call hi
    rw [hphase] at hends
    exact hends hwhole
  | recorded key reservedAt sent hkey hphase hstorable =>
    refine hw.givesUp hi hkey (by rw [hphase]; rfl) (fun other hne => find_insert_of_ne _ _ hne)
      rfl ?_ fun _ => trivial
    intro s r sent' hphase'
    obtain ⟨-, rfl, rfl⟩ : reservedAt = s ∧ w.now = r ∧ sent = sent' := by simpa using hphase'
    exact find_insert_self _ _ _
  | released key reservedAt sent raised hkey hphase hfailed =>
    refine hw.givesUp hi hkey (by rw [hphase]; rfl) (fun other hne => find_delete_of_ne _ hne)
      rfl (fun s r sent' h => absurd h (by simp)) fun hwhole => ?_
    have hthrough := hw.through call hmem
    rw [hphase] at hthrough
    obtain ⟨hraised, hsize⟩ := hthrough hwhole
    rcases hfailed with hfailed | hfailed
    · exact absurd (hraised.symm.trans hfailed) (by simp)
    · rw [Captured.storable, decide_eq_true ⟨hwhole.1, hwhole.2.1⟩, decide_eq_true hsize] at hfailed
      exact absurd hfailed (by simp)
  | lost outcome reservedAt sent raised hphase houtcome =>
    have hcut : ¬Whole complete sent := by
      intro hwhole
      have happlied := hunbroken call hi
      rw [hphase] at happlied
      exact absurd (happlied hwhole) (by simp)
    rcases houtcome with rfl | rfl
    · exact hw.quiet hi (Or.inr rfl) (fun s r sent => by simp) fun hwhole => absurd hwhole hcut
    · exact hw.quiet hi (Or.inr rfl) (fun s r sent => by simp) fun hwhole => absurd hwhole hcut

theorem produced_arriving (mw : Middleware) (w : World) (request : HttpRequest) :
    produced (arriving mw w request).phase = [] := by
  unfold arriving
  cases dispatch mw w.now request with
  | passThrough => rfl
  | invalidKey => rfl
  | keyed key => rfl

theorem kept_arrived (hw : Kept mw complete w) (request : HttpRequest) :
    Kept mw complete { w with calls := w.calls ++ [arriving mw w request] } := by
  obtain ⟨hkeys, hheld, hbegun, -, -⟩ := arriving_cases mw w request
  refine ⟨?_, ?_, ?_, ?_, ?_⟩
  · intro c hc
    rcases List.mem_append.mp hc with hc | hc
    · exact hw.keys c hc
    · rw [List.mem_singleton.mp hc]
      exact hkeys
  · intro c hc key t hkey ht
    rcases List.mem_append.mp hc with hc | hc
    · exact hw.held c hc key t hkey ht
    · rw [List.mem_singleton.mp hc, hheld] at ht
      exact absurd ht (by simp)
  · intro c hc key s r sent hrecorded
    rcases List.mem_append.mp hc with hc | hc
    · exact hw.alive c hc key s r sent hrecorded
    · rw [List.mem_singleton.mp hc] at hrecorded
      rw [hrecorded.2] at hbegun
      exact absurd hbegun (by simp [begun])
  · refine hw.apart.append HoldApart.symm ?_
    intro q _ kp kq _ _ hp
    rw [hheld] at hp
    exact absurd hp (by simp)
  · intro c hc hwhole
    rcases List.mem_append.mp hc with hc | hc
    · exact hw.through c hc hwhole
    · rw [List.mem_singleton.mp hc, produced_arriving] at hwhole
      exact absurd hwhole.2.1 (by decide)

theorem kept_step (hw : Kept mw complete w) {w' : World} {a : Action}
    (hunbroken : Unbroken mw complete w a) (h : step mw w a = some w') : Kept mw complete w' := by
  cases step_cases h with
  | arrived request => exact kept_arrived hw request
  | foreign key entry hkey =>
    have hfind : ∀ call ∈ w.calls, ∀ key', call.keyed = some key' →
        (entry.elim (w.store.delete key) (w.store.insert key)).find key'.storeKey =
          w.store.find key'.storeKey := by
      intro call hcall key' hkey'
      have hne : key'.storeKey ≠ key := by
        rintro rfl
        exact absurd ((hw.keys call hcall key' hkey').symm.trans hkey) (by simp)
      cases entry with
      | none => exact find_delete_of_ne _ hne
      | some entry => exact find_insert_of_ne _ _ hne
    refine ⟨hw.keys, ?_, ?_, hw.apart, hw.through⟩
    · intro c hc key' t hkey' ht
      exact (hfind c hc key' hkey').trans (hw.held c hc key' t hkey' ht)
    · intro c hc key' s r sent hrecorded hlt
      exact (hfind c hc key' hrecorded.1).trans (hw.alive c hc key' s r sent hrecorded hlt)
  | ticked now hle =>
    refine ⟨hw.keys, hw.held, ?_, hw.apart, hw.through⟩
    intro c hc key s r sent hrecorded hlt
    exact hw.alive c hc key s r sent hrecorded (lt_of_le_of_lt hle hlt)
  | moved i call hi hmoved => exact kept_moved hw hi hunbroken hmoved

theorem kept_start (h : Start w) : Kept mw complete w := by
  have hnone : ∀ call ∈ w.calls, False := by
    rw [h.calls]
    exact fun call hcall => absurd hcall List.not_mem_nil
  refine ⟨fun c hc => (hnone c hc).elim, fun c hc => (hnone c hc).elim,
    fun c hc => (hnone c hc).elim, ?_, fun c hc => (hnone c hc).elim⟩
  rw [h.calls]
  exact Processes.apart_nil _

/-- A request that is through holds its key or has its record in the store. -/
theorem notRepeated_of_kept (hw : Kept mw complete w) {w' : World} {a : Action}
    (hunbroken : Unbroken mw complete w a) (h : step mw w a = some w') :
    NotRepeated mw complete w w' := by
  intro i j call retry retry' key hi hj hj' hkey hkey' hwhole hexpiry hbefore
  cases hafter : heldSince retry'.phase with
  | none => rfl
  | some t =>
    obtain ⟨rfl, habsent⟩ := reserve_of_starts h hj hj' hkey' hbefore (by rw [hafter]; rfl)
    have hmem := List.mem_of_getElem? hi
    have hthrough := hw.through call hmem hwhole
    cases hphase : call.phase with
    | running reservedAt sent =>
      have hheld : heldSince call.phase = some reservedAt := by rw [hphase]; rfl
      have hlt := hunbroken retry hj key hkey' call hmem key hkey rfl reservedAt hheld
      exact absurd rfl (hw.not_held_of_absent habsent hmem hkey hheld hlt)
    | ended reservedAt sent raised =>
      have hheld : heldSince call.phase = some reservedAt := by rw [hphase]; rfl
      have hlt := hunbroken retry hj key hkey' call hmem key hkey rfl reservedAt hheld
      exact absurd rfl (hw.not_held_of_absent habsent hmem hkey hheld hlt)
    | finished outcome =>
      rw [hphase] at hthrough
      cases outcome with
      | recorded s r sent =>
        have hlt := hexpiry (r + mw.ttlSeconds) (by rw [hphase]; rfl)
        exact absurd rfl (hw.not_alive_of_absent habsent hmem ⟨hkey, hphase⟩ hlt)
      | passed sent => exact hthrough.elim
      | answered answeredAt answer => exact hthrough.elim
      | recordLost s sent => exact hthrough.elim
      | released s t sent raised => exact hthrough.elim
      | releaseFailed s sent raised => exact hthrough.elim
    | passing sent =>
      rw [hphase] at hthrough
      exact hthrough.elim
    | reserving =>
      rw [hphase] at hthrough
      exact hthrough.elim
    | lookingUp =>
      rw [hphase] at hthrough
      exact hthrough.elim

section Drop

variable {i j : ℕ} {call retry : Call} {key : Keyed} {reservedAt : ℚ} {sent : List Message}

/-- What the store has for the key, seen at a time after the reservation expired and before a
record does, once the request has settled. -/
theorem live_settled (hfind : w.store.find key.storeKey =
      some ⟨pendingText key, reservedAt + mw.lockSeconds⟩) (hwhole : Whole complete sent)
    (raises applied : Bool) {t : ℚ} (hlock : reservedAt + mw.lockSeconds ≤ t)
    (httl : t < w.now + mw.ttlSeconds) :
    ((settled mw w key reservedAt sent raises applied).1.live t key.storeKey ≠ none) ↔
      raises = false ∧ (captured sent).size ≤ maxStoredBody ∧ applied = true := by
  have hexpired : w.store.live t key.storeKey = none := by
    rw [Store.live, hfind]
    simpa using hlock
  have hstorable : (captured sent).storable = decide ((captured sent).size ≤ maxStoredBody) := by
    rw [Captured.storable, decide_eq_true ⟨hwhole.1, hwhole.2.1⟩, Bool.true_and]
  unfold settled
  rw [hstorable]
  by_cases hfits : raises = false ∧ (captured sent).size ≤ maxStoredBody
  · rw [if_pos (by simp [hfits.1, hfits.2])]
    cases applied with
    | true =>
      rw [if_pos rfl, set_always, live_insert_self _ _ _ httl]
      simp [hfits.1, hfits.2]
    | false =>
      rw [if_neg (by simp), hexpired]
      simp
  · rw [if_neg (by simpa using hfits)]
    have hnot : ¬(raises = false ∧ (captured sent).size ≤ maxStoredBody ∧ applied = true) :=
      fun h => hfits ⟨h.1, h.2.1⟩
    cases applied with
    | true =>
      rw [if_pos rfl, Store.live, find_delete_self]
      simpa using hnot
    | false =>
      rw [if_neg (by simp), hexpired]
      simp

theorem step_finishApp (hi : w.calls[i]? = some call) (hphase : call.phase = .running reservedAt sent)
    (raises : Bool) : step mw w (.finishApp i raises) =
      some (w.moved i call (.ended reservedAt sent raises) w.store) := by
  simp only [step, Action.call, hi, Option.bind_some, stepCall, hphase]
  rfl

theorem step_settle (hi : w.calls[i]? = some call) (hkey : call.keyed = some key) {raised : Bool}
    (hphase : call.phase = .ended reservedAt sent raised) (applied : Bool) :
    step mw w (.settle i applied) = some (w.moved i call
      (.finished (settled mw w key reservedAt sent raised applied).2)
      (settled mw w key reservedAt sent raised applied).1) := by
  obtain ⟨request, keyed, phase⟩ := call
  obtain rfl : keyed = some key := hkey
  obtain rfl : phase = .ended reservedAt sent raised := hphase
  simp only [step, Action.call, hi, Option.bind_some, stepCall]
  rfl

/-- A request that asks for its key runs unless the key is in the store. -/
theorem step_reserve (hi : w.calls[i]? = some call) (hkey : call.keyed = some key)
    (hphase : call.phase = .reserving) : ∃ phase store,
      step mw w (.reserve i true) = some (w.moved i call phase store) ∧
        (heldSince phase = none ↔ w.store.live w.now key.storeKey ≠ none) := by
  by_cases hfree : w.store.live w.now key.storeKey = none
  · refine ⟨.running w.now [],
      w.store.insert key.storeKey ⟨pendingText key, w.now + mw.lockSeconds⟩, ?_, ?_⟩
    · obtain ⟨request, keyed, phase⟩ := call
      obtain rfl : keyed = some key := hkey
      obtain rfl : phase = .reserving := hphase
      simp only [step, Action.call, hi, Option.bind_some, stepCall, if_true, set_of_absent hfree]
      rfl
    · simp [heldSince, hfree]
  · refine ⟨.lookingUp, w.store, step_reserve_taken hi hkey hphase hfree, ?_⟩
    simp [heldSince, hfree]

/-- A request whose endpoint has answered ends and settles, its reservation expires, and one
that waits asks for the key. -/
def drop (i j : ℕ) (raises applied : Bool) (t : ℚ) : List Action :=
  [.finishApp i raises, .settle i applied, .tick t, .reserve j true]

theorem run_drop (hi : w.calls[i]? = some call) (hj : w.calls[j]? = some retry)
    (hkey : call.keyed = some key) (hkey' : retry.keyed = some key)
    (hphase : call.phase = .running reservedAt sent) (hphase' : retry.phase = .reserving)
    (raises applied : Bool) {t : ℚ} (hle : w.now ≤ t) :
    ∃ w' retry', (system mw).run w (drop i j raises applied t) = some w' ∧
      w'.calls[j]? = some retry' ∧ (heldSince retry'.phase = none ↔
        (settled mw w key reservedAt sent raises applied).1.live t key.storeKey ≠ none) := by
  have hij : i ≠ j := by
    rintro rfl
    obtain rfl : call = retry := Option.some.inj (hi.symm.trans hj)
    exact absurd (hphase.symm.trans hphase') (by simp)
  obtain ⟨ended, hended⟩ : ∃ v, v = w.moved i call (.ended reservedAt sent raises) w.store :=
    ⟨_, rfl⟩
  have hi₁ : ended.calls[i]? = some { call with phase := .ended reservedAt sent raises } := by
    rw [hended]
    exact getElem?_moved hi
  have hsettled : settled mw ended key reservedAt sent raises applied =
      settled mw w key reservedAt sent raises applied := by
    rw [hended]
    rfl
  obtain ⟨done, hdone⟩ : ∃ v, step mw ended (.settle i applied) = some v ∧
      v.now = w.now ∧ v.calls[j]? = some retry ∧
        v.store = (settled mw w key reservedAt sent raises applied).1 := by
    refine ⟨_, step_settle hi₁ hkey rfl applied, ?_, ?_, ?_⟩
    · rw [hended]
      rfl
    · rw [hended]
      exact (List.getElem?_set_ne hij).trans ((List.getElem?_set_ne hij).trans hj)
    · rw [hsettled]
      rfl
  obtain ⟨hsettle, hnow, hj₂, hstore⟩ := hdone
  have htick : step mw done (.tick t) = some { done with now := t } := by
    simp only [step, Action.call, stepOther, hnow, if_pos hle]
  obtain ⟨phase, store, hreserve, hheld⟩ : ∃ phase store,
      step mw { done with now := t } (.reserve j true) =
        some (World.moved { done with now := t } j retry phase store) ∧
      (heldSince phase = none ↔ done.store.live t key.storeKey ≠ none) :=
    step_reserve hj₂ hkey' hphase'
  refine ⟨World.moved { done with now := t } j retry phase store, { retry with phase }, ?_,
    getElem?_moved hj₂, ?_⟩
  · rw [drop, Transition.System.run_cons_eq_some]
    refine ⟨ended, by rw [hended]; exact step_finishApp hi hphase raises, ?_⟩
    rw [Transition.System.run_cons_eq_some]
    refine ⟨done, hsettle, ?_⟩
    rw [Transition.System.run_cons_eq_some]
    refine ⟨_, htick, ?_⟩
    rw [Transition.System.run_cons_eq_some]
    exact ⟨_, hreserve, rfl⟩
  · rw [← hstore]
    exact hheld

end Drop

/-- In every run whose steps are all unbroken no request that the endpoint has answered with a
whole 2xx is repeated. Wherever such a run has come to, a request whose endpoint has answered so
blocks the key past its reservation exactly when no exception leaves the endpoint, the body can be
stored, and the task is not cut off in filing it. -/
theorem dropped_connections (mw : Middleware) (complete : List Message → Bool) (w₀ w : World)
    (trace : List Action) (h₀ : Start w₀) (hrun : (system mw).run w₀ trace = some w)
    (hmeets : (system mw).RunMeets (Unbroken mw complete) w₀ trace) :
    (∀ a w', Unbroken mw complete w a → step mw w a = some w' → NotRepeated mw complete w w') ∧
    ∀ (i j : ℕ) (call retry : Call) (key : Keyed) (reservedAt : ℚ) (sent : List Message)
      (raises applied : Bool) (t : ℚ), w.calls[i]? = some call → w.calls[j]? = some retry →
      call.keyed = some key → retry.keyed = some key → call.phase = .running reservedAt sent →
      retry.phase = .reserving → Whole complete sent → w.now ≤ t →
      reservedAt + mw.lockSeconds ≤ t → t < w.now + mw.ttlSeconds →
      ∃ w' retry', (system mw).run w (drop i j raises applied t) = some w' ∧
        w'.calls[j]? = some retry' ∧ (heldSince retry'.phase = none ↔
          raises = false ∧ (captured sent).size ≤ maxStoredBody ∧ applied = true) := by
  have hw : Kept mw complete w := (system mw).run_preserves_of_meets _ (Kept mw complete)
    (fun _ _ _ hs hunbroken hstep => kept_step hs hunbroken hstep) hrun hmeets (kept_start h₀)
  refine ⟨fun a w' hunbroken h => notRepeated_of_kept hw hunbroken h, ?_⟩
  intro i j call retry key reservedAt sent raises applied t hi hj hkey hkey' hphase hphase' hwhole
    hle hlock httl
  have hfind := hw.held call (List.mem_of_getElem? hi) key reservedAt hkey (by rw [hphase]; rfl)
  obtain ⟨w', retry', hdrop, hj', hheld⟩ :=
    run_drop hi hj hkey hkey' hphase hphase' raises applied hle
  exact ⟨w', retry', hdrop, hj', hheld.trans (live_settled hfind hwhole raises applied hlock httl)⟩

/-- The start and at least one part of the body. -/
def exampleComplete (sent : List Message) : Bool := decide (2 ≤ sent.length)

/-- The client is gone when the body is sent; the exception leaves the endpoint or does not. A
second request with the key waits. -/
def exampleDropped (raises : Bool) : List Action :=
  [.arrive exampleRequest, .reserve 0 true, .emit 0 (.start 201 []) false,
   .emit 0 (.body (Events.encode "[]")) true, .finishApp 0 raises, .settle 0 true,
   .arrive exampleRequest]

instance (mw : Middleware) (complete : List Message → Bool) (w : World) :
    DecidablePred (Unbroken mw complete w) := fun a =>
  match a with
  | .finishApp i raises => inferInstanceAs (Decidable (∀ call ∈ w.calls[i]?,
      Whole complete (produced call.phase) →
        raises = false ∧ (captured (produced call.phase)).size ≤ maxStoredBody))
  | .settle i applied => inferInstanceAs (Decidable (∀ call ∈ w.calls[i]?,
      Whole complete (produced call.phase) → applied = true))
  | .reserve j _ => inferInstanceAs (Decidable (∀ retry ∈ w.calls[j]?, ∀ key ∈ retry.keyed,
      ∀ call ∈ w.calls, ∀ key' ∈ call.keyed, key'.storeKey = key.storeKey →
        ∀ t ∈ heldSince call.phase, w.now < t + mw.lockSeconds))
  | .arrive _ => isTrue trivial
  | .lookup _ _ => isTrue trivial
  | .emit _ _ _ => isTrue trivial
  | .foreign _ _ => isTrue trivial
  | .tick _ => isTrue trivial

/-- The second request asks for its key, and starts to run or does not. -/
def asks (raises starts : Bool) : Bool :=
  ((system exampleMiddleware).run exampleStart (exampleDropped raises)).any fun w =>
    decide (Unbroken exampleMiddleware exampleComplete w (.reserve 1 true)) &&
      ((w.calls[0]?).any fun call => (w.calls[1]?).any fun retry =>
        call.keyed.isSome && decide (retry.keyed = call.keyed ∧
          Whole exampleComplete (produced call.phase)) &&
          ((expiry exampleMiddleware call.phase).all (fun e => decide (w.now < e)) &&
            ((heldSince retry.phase).isNone &&
              (step exampleMiddleware w (.reserve 1 true)).any fun w' =>
                (w'.calls[1]?).any fun p => (heldSince p.phase).isSome == starts)))

theorem asks_starts : asks true true = true := by
  decide +kernel

theorem asks_waits : asks false false = true := by
  decide +kernel

theorem exampleDropped_unbroken : (system exampleMiddleware).RunMeets
    (Unbroken exampleMiddleware exampleComplete) exampleStart (exampleDropped false) := by
  decide +kernel

theorem dropped_connections_example : ∃ w w',
    (system exampleMiddleware).run exampleStart (exampleDropped false) = some w ∧
    step exampleMiddleware w (.reserve 1 true) = some w' ∧
    NotRepeated exampleMiddleware exampleComplete w w' := by
  obtain ⟨w, hrun, hcheck⟩ := (Option.any_eq_true _ _).mp asks_waits
  simp only [Bool.and_eq_true, decide_eq_true_eq, Option.any_eq_true] at hcheck
  obtain ⟨hunbroken, call, -, retry, -, -, -, -, w', hstep, -⟩ := hcheck
  exact ⟨w, w', hrun, hstep, (dropped_connections exampleMiddleware exampleComplete exampleStart w
    (exampleDropped false) ⟨rfl, fun key _ => rfl⟩ hrun exampleDropped_unbroken).1 _ w' hunbroken
    hstep⟩

/-- Whether the store does what it is asked. -/
def answers : Action → Bool
  | .reserve _ available => available
  | .lookup _ available => available
  | .settle _ available => available
  | _ => true

/-- The send of the body raised behind a 201, the key was released, and the retry runs. -/
theorem connection_dropped : ¬∀ (mw : Middleware) (complete : List Message → Bool) (w₀ w w' : World)
    (trace : List Action) (a : Action), Start w₀ → (system mw).run w₀ trace = some w →
    step mw w a = some w' → (trace ++ [a]).all answers = true → NotRepeated mw complete w w' := by
  intro hall
  obtain ⟨w, hrun, hcheck⟩ := (Option.any_eq_true _ _).mp asks_starts
  simp only [Bool.and_eq_true, decide_eq_true_eq, Option.any_eq_true, Option.all_eq_true,
    beq_iff_eq, Option.isNone_iff_eq_none] at hcheck
  obtain ⟨-, call, hi, retry, hj, ⟨hsome, hkeyed, hwhole⟩, hexpiry, hbefore, w', hstep, p, hp,
    hafter⟩ := hcheck
  obtain ⟨key, hkey⟩ := Option.isSome_iff_exists.mp hsome
  have hnone := hall exampleMiddleware exampleComplete exampleStart w w' (exampleDropped true) _
    ⟨rfl, fun key _ => rfl⟩ hrun hstep rfl 0 1 call retry p key hi hj hp hkey (hkeyed.trans hkey)
    hwhole hexpiry hbefore
  rw [hnone] at hafter
  exact absurd hafter (by simp)

end ContextLedger.DroppedConnections
