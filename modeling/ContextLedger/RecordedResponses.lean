import ContextLedger.IdempotentKeys

/-!
How long a recorded response lasts. A reservation does not say whose it is, so a request
that outlived its reservation still releases the key, or records under it, when it is
done, even if another request has recorded its response there in the meantime. As long
as no request settles a key under which a record is alive, records last for their time.
-/
namespace ContextLedger.RecordedResponses

open Values MemoryStore Idempotency IdempotentKeys

/-- While a record is alive, no request with its key starts to run, and what a request
is answered from the store is that record. -/
def RecordLasts (mw : Middleware) (w : World) : Prop :=
  ∀ call ∈ w.calls, ∀ key s r sent, Recorded call key s r sent → w.now < r + mw.ttlSeconds →
    ∀ (a : Action) (w' : World), step mw w a = some w' →
    ∀ (i : ℕ) (p p' : Call) (key' : Keyed), w.calls[i]? = some p → w'.calls[i]? = some p' →
      p.keyed = some key' → key'.storeKey = key.storeKey →
      (heldSince p.phase = none → heldSince p'.phase = none) ∧
      ∀ t response, p.phase = .lookingUp → p'.phase = .finished (.answered t (.replay response)) →
        response = replayed sent

/-- No request settles a key under which a record is alive. -/
def Spared (mw : Middleware) (w : World) : Action → Prop
  | .settle i available => available = true → ∀ call, w.calls[i]? = some call →
      ∀ key, call.keyed = some key → ∀ fingerprint, ¬Alive mw w ⟨key.storeKey, fingerprint⟩
  | _ => True

structure Lasting (mw : Middleware) (w : World) : Prop where
  keys : ∀ call ∈ w.calls, ∀ key, call.keyed = some key → isKeyOf key.storeKey = true
  alive : ∀ call ∈ w.calls, ∀ key s r sent, Recorded call key s r sent →
    w.now < r + mw.ttlSeconds →
    w.store.find key.storeKey = some ⟨doneText key sent, r + mw.ttlSeconds⟩

variable {mw : Middleware} {w : World}

/-- A request moves, and the store changes at most at a key without a living record. -/
theorem Lasting.moved (hw : Lasting mw w) {i : ℕ} {call : Call} (hi : w.calls[i]? = some call)
    {phase : Phase} {store : Store}
    (hstore : ∀ c ∈ w.calls, ∀ key s r sent, Recorded c key s r sent → w.now < r + mw.ttlSeconds →
      store.find key.storeKey = w.store.find key.storeKey)
    (hnew : ∀ key s r sent, call.keyed = some key → phase = .finished (.recorded s r sent) →
      store.find key.storeKey = some ⟨doneText key sent, r + mw.ttlSeconds⟩) :
    Lasting mw (w.moved i call phase store) := by
  refine ⟨?_, ?_⟩
  · intro c hc
    rcases Processes.mem_set_cases hc with rfl | ⟨j, -, hj⟩
    · exact hw.keys call (List.mem_of_getElem? hi)
    · exact hw.keys c (List.mem_of_getElem? hj)
  · intro c hc key s r sent hrecorded hlt
    rcases Processes.mem_set_cases hc with rfl | ⟨j, -, hj⟩
    · exact hnew key s r sent hrecorded.1 hrecorded.2
    · have hmem := List.mem_of_getElem? hj
      exact (hstore c hmem key s r sent hrecorded hlt).trans
        (hw.alive c hmem key s r sent hrecorded hlt)

/-- Records under other keys do not change. -/
theorem find_of_spared {key : Keyed} (hspared : ∀ fingerprint, ¬Alive mw w ⟨key.storeKey, fingerprint⟩)
    {store : Store} (hstore : ∀ other, other ≠ key.storeKey → store.find other = w.store.find other) :
    ∀ c ∈ w.calls, ∀ key' s r sent, Recorded c key' s r sent → w.now < r + mw.ttlSeconds →
      store.find key'.storeKey = w.store.find key'.storeKey := by
  intro c hc key' s r sent hrecorded hlt
  refine hstore _ ?_
  intro heq
  exact hspared key'.fingerprint ⟨c, hc, s, r, sent, heq ▸ hrecorded, hlt⟩

/-- A key that is absent from the store has no living record. -/
theorem Lasting.not_alive_of_absent (hw : Lasting mw w) {storeKey : String}
    (h : w.store.live w.now storeKey = none) (fingerprint : String) :
    ¬Alive mw w ⟨storeKey, fingerprint⟩ := by
  rintro ⟨c, hc, s, r, sent, hrecorded, hlt⟩
  have hlive := live_eq_some.mpr ⟨hw.alive c hc _ s r sent hrecorded hlt, hlt⟩
  exact absurd (h.symm.trans hlive) (by simp)

theorem lasting_moved (hw : Lasting mw w) {w' : World} {i : ℕ} {call : Call} {a : Action}
    (hi : w.calls[i]? = some call) (hspared : Spared mw w a) (h : Moved mw w i call a w') :
    Lasting mw w' := by
  have hsame : ∀ c ∈ w.calls, ∀ key s r sent, Recorded c key s r sent →
      w.now < r + mw.ttlSeconds → w.store.find key.storeKey = w.store.find key.storeKey :=
    fun _ _ _ _ _ _ _ _ => rfl
  cases h with
  | reserved key hkey hphase hfree =>
    refine hw.moved hi (find_of_spared (hw.not_alive_of_absent hfree) ?_) ?_
    · exact fun other hne => find_insert_of_ne _ _ hne
    · exact fun _ _ _ _ _ h => absurd h (by simp)
  | found key hkey hphase htaken => exact hw.moved hi hsame fun _ _ _ _ _ h => absurd h (by simp)
  | lookedUp key hkey hphase => exact hw.moved hi hsame fun _ _ _ _ _ h => absurd h (by simp)
  | refused ha hphase => exact hw.moved hi hsame fun _ _ _ _ _ h => absurd h (by simp)
  | passing message raises sent hphase =>
    exact hw.moved hi hsame fun _ _ _ _ _ h => absurd h (by simp)
  | sent message raises reservedAt sent hphase hmay =>
    exact hw.moved hi hsame fun _ _ _ _ _ h => absurd h (by simp)
  | passed raises sent hphase => exact hw.moved hi hsame fun _ _ _ _ _ h => absurd h (by simp)
  | ended raises reservedAt sent hphase =>
    exact hw.moved hi hsame fun _ _ _ _ _ h => absurd h (by simp)
  | recorded key reservedAt sent hkey hphase hstorable =>
    refine hw.moved hi (find_of_spared (hspared rfl call hi key hkey) ?_) ?_
    · exact fun other hne => find_insert_of_ne _ _ hne
    · intro key' s r sent' hkey' hphase'
      obtain rfl : key = key' := Option.some.inj (hkey.symm.trans hkey')
      obtain ⟨-, rfl, rfl⟩ : reservedAt = s ∧ w.now = r ∧ sent = sent' := by simpa using hphase'
      exact find_insert_self _ _ _
  | released key reservedAt sent raised hkey hphase hfailed =>
    refine hw.moved hi (find_of_spared (hspared rfl call hi key hkey) ?_) ?_
    · exact fun other hne => find_delete_of_ne _ hne
    · exact fun _ _ _ _ _ h => absurd h (by simp)
  | lost outcome reservedAt sent raised hphase houtcome =>
    refine hw.moved hi hsame ?_
    intro key s r sent' _ houtcome'
    obtain rfl := Phase.finished.inj houtcome'
    exact absurd houtcome (by simp)

theorem lasting_step (hw : Lasting mw w) {w' : World} {a : Action} (hspared : Spared mw w a)
    (h : step mw w a = some w') : Lasting mw w' := by
  cases step_cases h with
  | arrived request =>
    obtain ⟨hkeys, -, hbegun, -, -⟩ := arriving_cases mw w request
    refine ⟨?_, ?_⟩
    · intro c hc
      rcases List.mem_append.mp hc with hc | hc
      · exact hw.keys c hc
      · rw [List.mem_singleton.mp hc]
        exact hkeys
    · intro c hc key s r sent hrecorded
      rcases List.mem_append.mp hc with hc | hc
      · exact hw.alive c hc key s r sent hrecorded
      · rw [List.mem_singleton.mp hc] at hrecorded
        rw [hrecorded.2] at hbegun
        exact absurd hbegun (by simp [begun])
  | foreign key entry hkey =>
    refine ⟨hw.keys, ?_⟩
    intro c hc key' s r sent hrecorded hlt
    have hfind := hw.alive c hc key' s r sent hrecorded hlt
    have hne : key'.storeKey ≠ key := by
      rintro rfl
      exact absurd ((hw.keys c hc key' hrecorded.1).symm.trans hkey) (by simp)
    cases entry with
    | none => exact (find_delete_of_ne _ hne).trans hfind
    | some entry => exact (find_insert_of_ne _ _ hne).trans hfind
  | ticked now hle =>
    refine ⟨hw.keys, ?_⟩
    intro c hc key s r sent hrecorded hlt
    exact hw.alive c hc key s r sent hrecorded (lt_of_le_of_lt hle hlt)
  | moved i call hi hmoved => exact lasting_moved hw hi hspared hmoved

/-- A replay is read from the store in the step that gives it. -/
theorem answer_of_step {w' : World} {a : Action} (h : step mw w a = some w') {i : ℕ} {p p' : Call}
    {key : Keyed} (hi : w.calls[i]? = some p) (hi' : w'.calls[i]? = some p')
    (hkey : p.keyed = some key) (hphase : p.phase = .lookingUp) {t : ℚ} {response : Response}
    (hphase' : p'.phase = .finished (.answered t (.replay response))) :
    answerExisting (w.store.get w.now key.storeKey) key.fingerprint = .replay response := by
  have hne : p' ≠ p := by
    rintro rfl
    exact absurd (hphase.symm.trans hphase') (by simp)
  have hmovedTo : ∀ {phase : Phase} {store : Store},
      (w.moved i p phase store).calls[i]? = some p' → p'.phase = phase := by
    intro phase store hcalls
    exact (congrArg Call.phase (Option.some.inj ((getElem?_moved hi).symm.trans hcalls))).symm
  cases moved_of_step h hi hi' hne with
  | lookedUp key' hkey' hlooking =>
    obtain rfl : key = key' := Option.some.inj (hkey.symm.trans hkey')
    have hanswer := (hmovedTo hi').symm.trans hphase'
    exact (Outcome.answered.inj (Phase.finished.inj hanswer)).2
  | refused ha hrefused =>
    exact absurd ((hmovedTo hi').symm.trans hphase') (by simp [Answer.unavailable])
  | reserved key' hkey' hreserving hfree => exact absurd (hphase.symm.trans hreserving) (by simp)
  | found key' hkey' hreserving htaken => exact absurd (hphase.symm.trans hreserving) (by simp)
  | passing message raises sent hpassing => exact absurd (hphase.symm.trans hpassing) (by simp)
  | sent message raises reservedAt sent hrunning hmay =>
    exact absurd (hphase.symm.trans hrunning) (by simp)
  | passed raises sent hpassing => exact absurd (hphase.symm.trans hpassing) (by simp)
  | ended raises reservedAt sent hrunning => exact absurd (hphase.symm.trans hrunning) (by simp)
  | recorded key' reservedAt sent hkey' hended hstorable =>
    exact absurd (hphase.symm.trans hended) (by simp)
  | released key' reservedAt sent raised hkey' hended hfailed =>
    exact absurd (hphase.symm.trans hended) (by simp)
  | lost outcome reservedAt sent raised hended houtcome =>
    exact absurd (hphase.symm.trans hended) (by simp)

theorem Lasting.recordLasts (hw : Lasting mw w) : RecordLasts mw w := by
  intro call hcall key s r sent hrecorded hlt a w' h i p p' key' hi hi' hkey' hstoreKey
  have hlive := live_eq_some.mpr ⟨hw.alive call hcall key s r sent hrecorded hlt, hlt⟩
  refine ⟨?_, ?_⟩
  · intro hbefore
    cases hafter : heldSince p'.phase with
    | none => rfl
    | some t =>
      have habsent := absent_of_starts h hi hi' hkey' hbefore (by rw [hafter]; rfl)
      rw [hstoreKey] at habsent
      exact absurd (habsent.symm.trans hlive) (by simp)
  · intro t response hphase hphase'
    have hanswer := answer_of_step h hi hi' hkey' hphase hphase'
    rw [hstoreKey, Store.get, hlive, Option.map_some, answerExisting_done] at hanswer
    split at hanswer
    · exact (Answer.replay.inj hanswer).symm
    · exact absurd hanswer (by simp [Answer.reused])

/-- In every run in which no request settles a key under which a record is alive, records
last for their time. -/
theorem records_last (mw : Middleware) (w₀ w : World) (trace : List Action) (h₀ : Start w₀)
    (hrun : (system mw).run w₀ trace = some w)
    (hmeets : (system mw).RunMeets (Spared mw) w₀ trace) : RecordLasts mw w := by
  have hstart : Lasting mw w₀ := by
    refine ⟨?_, ?_⟩
    · rw [h₀.calls]
      exact fun c hc => absurd hc List.not_mem_nil
    · rw [h₀.calls]
      exact fun c hc => absurd hc List.not_mem_nil
  have hw : Lasting mw w := (system mw).run_preserves_of_meets _ (Lasting mw)
    (fun _ _ _ hs hspared hstep => lasting_step hs hspared hstep) hrun hmeets hstart
  exact hw.recordLasts

/-- The first request outlives its reservation, and releases the key after the second one
has recorded its response. -/
def exampleOutlived : List Action :=
  [.arrive exampleRequest, .reserve 0 true, .tick 61, .arrive exampleRequest, .reserve 1 true,
   .emit 1 (.start 201 []) false, .finishApp 1 false, .settle 1 true,
   .emit 0 (.start 500 []) false, .finishApp 0 false, .settle 0 true, .arrive exampleRequest]

/-- A request that succeeds, and one that comes when it is recorded. -/
def exampleLasting : List Action :=
  [.arrive exampleRequest, .reserve 0 true, .emit 0 (.start 201 []) false, .finishApp 0 false,
   .settle 0 true, .arrive exampleRequest]

def isRecorded (call : Call) : Bool :=
  match call.phase with
  | .finished (.recorded _ recordedAt _) => recordedAt == 61
  | _ => false

theorem exampleOutlived_starts :
    ((system exampleMiddleware).run exampleStart exampleOutlived).any (fun w =>
      decide (w.now = 61) && ((w.calls[1]?).any isRecorded && ((w.calls[2]?).any (fun p =>
        (heldSince p.phase).isNone && decide (p.keyed.isSome ∧
          (w.calls[1]?).map Call.keyed = some p.keyed)) &&
      (step exampleMiddleware w (.reserve 2 true)).any fun w' =>
        (w'.calls[2]?).any fun p => (heldSince p.phase).isSome))) = true := by
  decide +kernel

/-- The first request outlived its reservation and released the key with the record of the
second one in it: the third one runs. -/
theorem record_lost : ¬∀ (mw : Middleware) (w₀ w : World) (trace : List Action), Start w₀ →
    (system mw).run w₀ trace = some w → RecordLasts mw w := by
  intro hall
  obtain ⟨w, hrun, hcheck⟩ := (Option.any_eq_true _ _).mp exampleOutlived_starts
  simp only [Bool.and_eq_true, decide_eq_true_eq, Option.any_eq_true] at hcheck
  obtain ⟨hnow, ⟨call, hcall, hrecorded⟩, ⟨p, hp, hheld, hsome, hkeyed⟩, w', hstep, p', hp', hheld'⟩ :=
    hcheck
  obtain ⟨key, hkey⟩ := Option.isSome_iff_exists.mp hsome
  rw [hcall, hkey, Option.map_some] at hkeyed
  have hlasts := hall exampleMiddleware exampleStart w exampleOutlived ⟨rfl, fun key _ => rfl⟩ hrun
  unfold isRecorded at hrecorded
  split at hrecorded
  · rename_i s r sent hphase
    rw [beq_iff_eq] at hrecorded
    have halive : w.now < r + exampleMiddleware.ttlSeconds := by
      rw [hnow, hrecorded]
      show (61 : ℚ) < 61 + (86400 : ℕ)
      norm_num
    have hnone := (hlasts call (List.mem_of_getElem? hcall) key s r sent
      ⟨Option.some.inj hkeyed, hphase⟩ halive _ w' hstep 2 p p' key hp hp' hkey rfl).1
      (Option.isNone_iff_eq_none.mp hheld)
    rw [hnone] at hheld'
    exact absurd hheld' (by simp)
  · exact absurd hrecorded (by simp)

/-- Whether a record is alive under a key. -/
def aliveAt (mw : Middleware) (w : World) (storeKey : String) : Bool :=
  w.calls.any fun call => call.keyed.any (fun key => decide (key.storeKey = storeKey)) &&
    match call.phase with
    | .finished (.recorded _ recordedAt _) => decide (w.now < recordedAt + mw.ttlSeconds)
    | _ => false

theorem aliveAt_of_alive {storeKey fingerprint : String}
    (h : Alive mw w ⟨storeKey, fingerprint⟩) : aliveAt mw w storeKey = true := by
  obtain ⟨call, hcall, s, r, sent, ⟨hkey, hphase⟩, hlt⟩ := h
  refine List.any_eq_true.mpr ⟨call, hcall, ?_⟩
  rw [hkey, hphase]
  simp [hlt]

def sparedCheck (mw : Middleware) (w : World) : Action → Bool
  | .settle i _ => ((w.calls[i]?).bind Call.keyed).all fun key => !aliveAt mw w key.storeKey
  | _ => true

theorem spared_of_check {a : Action} (h : sparedCheck mw w a = true) : Spared mw w a := by
  cases a with
  | settle i available =>
    intro _ call hi key hkey fingerprint halive
    rw [sparedCheck, hi, Option.bind_some, hkey, Option.all_some, aliveAt_of_alive halive] at h
    exact absurd h (by simp)
  | _ => trivial

theorem exampleLasting_spared : (system exampleMiddleware).RunMeets
    (fun w a => sparedCheck exampleMiddleware w a = true) exampleStart exampleLasting := by
  decide +kernel

theorem exampleLasting_recorded :
    ((system exampleMiddleware).run exampleStart exampleLasting).any (fun w =>
      (w.calls[0]?).any fun call => match call.phase with
        | .finished (.recorded _ _ _) => true
        | _ => false) = true := by
  decide +kernel

theorem records_last_example : ∃ w,
    (system exampleMiddleware).run exampleStart exampleLasting = some w ∧
    (∃ call ∈ w.calls, ∃ s r sent, call.phase = .finished (.recorded s r sent)) ∧
    RecordLasts exampleMiddleware w := by
  obtain ⟨w, hrun, hcheck⟩ := (Option.any_eq_true _ _).mp exampleLasting_recorded
  obtain ⟨call, hcall, hrecorded⟩ := (Option.any_eq_true _ _).mp hcheck
  refine ⟨w, hrun, ⟨call, List.mem_of_getElem? hcall, ?_⟩, ?_⟩
  · split at hrecorded
    · rename_i s r sent hphase
      exact ⟨s, r, sent, hphase⟩
    · exact absurd hrecorded (by simp)
  · exact records_last exampleMiddleware exampleStart w exampleLasting ⟨rfl, fun key _ => rfl⟩ hrun
      (Transition.System.RunMeets.mono _ (fun _ _ => spared_of_check) exampleLasting_spared)

end ContextLedger.RecordedResponses
