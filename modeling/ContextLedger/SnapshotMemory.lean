import ContextLedger.McpSessions

/-!
Which snapshot a decision without one is recorded against. After a capture has
stored its snapshot and while no other capture starts, what the session remembers
should be that snapshot or one of a capture that ran at the same time. A search
that loaded the object earlier puts the old snapshot back when it stores its
query; runs in which no search does so keep the snapshot.
-/
namespace ContextLedger.SnapshotMemory

open Values Transition Processes McpSessions

def Captures (c : Call) (snapshotId : Uuid) : Prop :=
  ∃ factVersionIds, c.request = .captureDecisionContext snapshotId factVersionIds

def IsCapture (c : Call) : Prop := ∃ snapshotId, Captures c snapshotId

/-- The other capture began before this one ended, at step `ended`, and had not ended before
this one began. -/
def Overlaps (c : Call) (ended : ℕ) (other : Call) : Prop :=
  other.began ≤ ended ∧ ∀ e, other.phase = .saved e → c.began ≤ e

/-- A decision that reads the session after a capture has ended, with no other capture begun
in between, takes its snapshot or that of a capture which overlapped it. -/
def SnapshotKept (w : World) : Prop :=
  ∀ c ∈ w.calls, ∀ ended, IsCapture c → c.phase = .saved ended →
    ∀ d ∈ w.calls, ∀ read answer, d.phase = .answered read answer → ended < read →
      (∀ k ∈ w.calls, IsCapture k → k.began ≤ ended ∨ read ≤ k.began) →
        ∃ other ∈ w.calls, ∃ snapshotId, Captures other snapshotId ∧ answer = .ok snapshotId ∧
          Overlaps c ended other

/-- What the runs without stale searches keep. -/
structure Kept (w : World) : Prop where
  began : ∀ c ∈ w.calls, c.began < w.steps
  saved : ∀ c ∈ w.calls, ∀ ended, c.phase = .saved ended → c.began ≤ ended ∧ ended < w.steps
  recording : ∀ c ∈ w.calls, c.request = .recordDecision → ∀ data, c.phase ≠ .loaded data
  answered : ∀ c ∈ w.calls, ∀ read answer, c.phase = .answered read answer → read < w.steps
  current : ∀ c ∈ w.calls, ∀ ended, IsCapture c → c.phase = .saved ended →
    (∀ k ∈ w.calls, IsCapture k → k.began ≤ ended) →
      ∃ other ∈ w.calls, ∃ snapshotId, Captures other snapshotId ∧
        w.remembered = some snapshotId ∧ Overlaps c ended other
  answers : SnapshotKept w

theorem step_cases {w w' : World} {a : Action} (h : step w a = some w') :
    (∃ request, a = .start request ∧ w' = { w with
      calls := w.calls ++ [⟨request, w.steps, .begun⟩], steps := w.steps + 1 }) ∨
    (∃ i call available phase, a = .load i available ∧ w.calls[i]? = some call ∧
      loadPhase w call available = some phase ∧ w' = w.withPhase i call phase) ∨
    (∃ i call data available clock, a = .save i available clock ∧ w.calls[i]? = some call ∧
      call.phase = .loaded data ∧
      ((available = true ∧ w' = { w.withPhase i call (.saved w.steps) with
          entry := some (saveEntry w (call.request.change data) clock) }) ∨
        (available = false ∧ w' = w.withPhase i call .skipped))) ∨
    ∃ now, a = .tick now ∧ w' = { w with now, steps := w.steps + 1 } := by
  cases a with
  | start request => exact Or.inl ⟨request, rfl, (Option.some.inj h).symm⟩
  | load i available =>
    refine Or.inr (Or.inl ?_)
    obtain ⟨call, hi, hmap⟩ := Option.bind_eq_some_iff.mp h
    obtain ⟨phase, hphase, heq⟩ := Option.map_eq_some_iff.mp hmap
    exact ⟨i, call, available, phase, rfl, hi, hphase, heq.symm⟩
  | save i available clock =>
    refine Or.inr (Or.inr (Or.inl ?_))
    obtain ⟨call, hi, hsaved⟩ := Option.bind_eq_some_iff.mp h
    cases hphase : call.phase with
    | loaded data =>
      simp only [hphase] at hsaved
      refine ⟨i, call, data, available, clock, rfl, hi, hphase, ?_⟩
      cases available with
      | true => exact Or.inl ⟨rfl, (Option.some.inj hsaved).symm⟩
      | false => exact Or.inr ⟨rfl, (Option.some.inj hsaved).symm⟩
    | _ => simp [hphase] at hsaved
  | tick now =>
    refine Or.inr (Or.inr (Or.inr ?_))
    simp only [step] at h
    by_cases hnow : w.now ≤ now
    · rw [if_pos hnow] at h
      exact ⟨now, rfl, (Option.some.inj h).symm⟩
    · rw [if_neg hnow] at h
      exact absurd h (by simp)

section Calls

variable {w : World} {i : ℕ} {call : Call} {phase : Phase}

/-- A call after the step is the one that moved or was there before. -/
theorem mem_withPhase {c : Call} (h : c ∈ (w.withPhase i call phase).calls) :
    c = { call with phase } ∨ c ∈ w.calls := by
  rcases mem_set_cases h with heq | ⟨j, -, hj⟩
  · exact Or.inl heq
  · exact Or.inr (List.mem_of_getElem? hj)

/-- A call from before the step is still there, or is the one that moved. -/
theorem withPhase_of_mem (phase : Phase) (hi : w.calls[i]? = some call) {c : Call}
    (hc : c ∈ w.calls) :
    ∃ c' ∈ (w.withPhase i call phase).calls, c'.request = c.request ∧ c'.began = c.began ∧
      (c'.phase = c.phase ∨ c'.phase = phase) := by
  by_cases hne : c = call
  · subst hne
    refine ⟨{ c with phase }, List.mem_iff_getElem?.mpr ⟨i, ?_⟩, rfl, rfl, Or.inr rfl⟩
    obtain ⟨hlt, -⟩ := List.getElem?_eq_some_iff.mp hi
    exact List.getElem?_set_self hlt
  · exact ⟨c, mem_set_of_ne hi hc hne, rfl, rfl, Or.inl rfl⟩

theorem captures_congr {c c' : Call} (h : c'.request = c.request) {snapshotId : Uuid} :
    Captures c' snapshotId ↔ Captures c snapshotId := by
  unfold Captures
  rw [h]

/-- What holds of the start of every capture afterwards held before. -/
theorem captures_before (hi : w.calls[i]? = some call) {P : ℕ → Prop}
    (h : ∀ k ∈ (w.withPhase i call phase).calls, IsCapture k → P k.began) :
    ∀ k ∈ w.calls, IsCapture k → P k.began := by
  rintro k hk ⟨snapshotId, hcaptures⟩
  obtain ⟨k', hk', hrequest, hbegan, -⟩ := withPhase_of_mem phase hi hk
  rw [← hbegan]
  exact h k' hk' ⟨snapshotId, (captures_congr hrequest).mpr hcaptures⟩

/-- A capture that overlapped another one still does after a move of some call. -/
theorem overlaps_after (hw : Kept w) (hi : w.calls[i]? = some call)
    (hphase : ∀ e, phase = .saved e → e = w.steps) {c : Call} (hc : c ∈ w.calls) {ended : ℕ}
    {P : Uuid → Prop} (h : ∃ other ∈ w.calls, ∃ snapshotId, Captures other snapshotId ∧
      P snapshotId ∧ Overlaps c ended other) :
    ∃ other ∈ (w.withPhase i call phase).calls, ∃ snapshotId, Captures other snapshotId ∧
      P snapshotId ∧ Overlaps c ended other := by
  obtain ⟨other, hother, snapshotId, hcaptures, hp, hbefore, hend⟩ := h
  obtain ⟨other', hmem, hrequest, hbegan, hcases⟩ := withPhase_of_mem phase hi hother
  refine ⟨other', hmem, snapshotId, (captures_congr hrequest).mpr hcaptures, hp,
    hbegan ▸ hbefore, fun e he => ?_⟩
  rcases hcases with hsame | hnew
  · exact hend e (hsame ▸ he)
  · rw [hphase e (hnew ▸ he)]
    exact le_of_lt (hw.began c hc)

/-- A move to a phase other than the end of a store, with the snapshot left in place. -/
theorem kept_withPhase (hw : Kept w) (hi : w.calls[i]? = some call)
    (hsaved : ∀ e, phase ≠ .saved e)
    (hrecording : call.request = .recordDecision → ∀ data, phase ≠ .loaded data)
    (hanswered : ∀ read answer, phase = .answered read answer → read = w.steps ∧
      ∀ snapshotId, w.remembered = some snapshotId → answer = .ok snapshotId) :
    Kept (w.withPhase i call phase) := by
  have hmem := List.mem_of_getElem? hi
  have hold : ∀ c ∈ (w.withPhase i call phase).calls, ∀ ended, c.phase = .saved ended →
      c ∈ w.calls := by
    intro c hc ended hended
    rcases mem_withPhase hc with rfl | hc
    · exact absurd hended (hsaved ended)
    · exact hc
  have hnone : ∀ e, phase = .saved e → e = w.steps := fun e he => absurd he (hsaved e)
  refine ⟨fun c hc => ?_, fun c hc ended hended => ?_, fun c hc => ?_,
    fun c hc read answer hread => ?_, fun c hc ended hcapture hended hbegan => ?_,
    fun c hc ended hcapture hended d hd read answer hread hlater hbegan => ?_⟩
  · rcases mem_withPhase hc with rfl | hc
    · exact Nat.lt_succ_of_lt (hw.began call hmem)
    · exact Nat.lt_succ_of_lt (hw.began c hc)
  · obtain ⟨hle, hlt⟩ := hw.saved c (hold c hc ended hended) ended hended
    exact ⟨hle, Nat.lt_succ_of_lt hlt⟩
  · rcases mem_withPhase hc with rfl | hc
    · exact hrecording
    · exact hw.recording c hc
  · rcases mem_withPhase hc with rfl | hc
    · rw [(hanswered read answer hread).1]
      exact Nat.lt_succ_self _
    · exact Nat.lt_succ_of_lt (hw.answered c hc read answer hread)
  · have hc' := hold c hc ended hended
    exact overlaps_after hw hi hnone hc'
      (hw.current c hc' ended hcapture hended (captures_before (P := (· ≤ ended)) hi hbegan))
  · have hc' := hold c hc ended hended
    have hbefore := captures_before (P := fun began => began ≤ ended ∨ read ≤ began) hi hbegan
    rcases mem_withPhase hd with rfl | hd
    · obtain ⟨rfl, htakes⟩ := hanswered read answer hread
      obtain ⟨other, hother, snapshotId, hcaptures, hremembered, hoverlaps⟩ :=
        hw.current c hc' ended hcapture hended fun k hk hkcapture =>
          (hbefore k hk hkcapture).resolve_right (not_le.mpr (hw.began k hk))
      exact overlaps_after hw hi hnone hc'
        ⟨other, hother, snapshotId, hcaptures, htakes snapshotId hremembered, hoverlaps⟩
    · exact overlaps_after hw hi hnone hc'
        (hw.answers c hc' ended hcapture hended d hd read answer hread hlater hbefore)

/-- A store whose object has the stored snapshot, or the one of the capture itself. -/
theorem kept_save (hw : Kept w) (hi : w.calls[i]? = some call) (entry : Entry)
    (hnot : call.request ≠ .recordDecision)
    (hsnapshot : ∀ snapshotId, Captures call snapshotId →
      entry.data.lastSnapshotId = some snapshotId)
    (hsearch : ¬ IsCapture call → entry.data.lastSnapshotId = w.remembered) :
    Kept { w.withPhase i call (.saved w.steps) with entry := some entry } := by
  have hmem := List.mem_of_getElem? hi
  have hphase : ∀ e, Phase.saved w.steps = .saved e → e = w.steps := fun e he =>
    (Phase.saved.inj he).symm
  have hlast : ({ w.withPhase i call (.saved w.steps) with
      entry := some entry } : World).remembered = entry.data.lastSnapshotId := rfl
  have hself : ({ call with phase := .saved w.steps } : Call) ∈
      (w.withPhase i call (.saved w.steps)).calls := by
    obtain ⟨hlt, -⟩ := List.getElem?_eq_some_iff.mp hi
    exact List.mem_iff_getElem?.mpr ⟨i, List.getElem?_set_self hlt⟩
  refine ⟨fun c hc => ?_, fun c hc ended hended => ?_, fun c hc => ?_,
    fun c hc read answer hread => ?_, fun c hc ended hcapture hended hbegan => ?_,
    fun c hc ended hcapture hended d hd read answer hread hlater hbegan => ?_⟩
  · rcases mem_withPhase hc with rfl | hc
    · exact Nat.lt_succ_of_lt (hw.began call hmem)
    · exact Nat.lt_succ_of_lt (hw.began c hc)
  · rcases mem_withPhase hc with rfl | hc
    · rw [hphase ended hended]
      exact ⟨le_of_lt (hw.began call hmem), Nat.lt_succ_self _⟩
    · obtain ⟨hle, hlt⟩ := hw.saved c hc ended hended
      exact ⟨hle, Nat.lt_succ_of_lt hlt⟩
  · rcases mem_withPhase hc with rfl | hc
    · exact fun hrecord => absurd hrecord hnot
    · exact hw.recording c hc
  · rcases mem_withPhase hc with rfl | hc
    · exact absurd hread (by simp)
    · exact Nat.lt_succ_of_lt (hw.answered c hc read answer hread)
  · rw [hlast]
    have hlt : c.began ≤ w.steps := by
      rcases mem_withPhase hc with rfl | hc
      · exact le_of_lt (hw.began call hmem)
      · exact le_of_lt (hw.began c hc)
    by_cases hcall : IsCapture call
    · obtain ⟨snapshotId, hcaptures⟩ := hcall
      refine ⟨{ call with phase := .saved w.steps }, hself, snapshotId, hcaptures,
        hsnapshot snapshotId hcaptures, ?_, fun e he => ?_⟩
      · exact hbegan { call with phase := .saved w.steps } hself ⟨snapshotId, hcaptures⟩
      · rw [hphase e he]
        exact hlt
    · rcases mem_withPhase hc with rfl | hc
      · exact absurd hcapture hcall
      · rw [hsearch hcall]
        exact overlaps_after hw hi hphase hc
          (hw.current c hc ended hcapture hended (captures_before (P := (· ≤ ended)) hi hbegan))
  · rcases mem_withPhase hd with rfl | hd
    · exact absurd hread (by simp)
    · have hread' := hw.answered d hd read answer hread
      rcases mem_withPhase hc with rfl | hc
      · rw [hphase ended hended] at hlater
        exact absurd (hlater.trans hread') (lt_irrefl _)
      · exact overlaps_after hw hi hphase hc
          (hw.answers c hc ended hcapture hended d hd read answer hread hlater
            (captures_before (P := fun began => began ≤ ended ∨ read ≤ began) hi hbegan))

end Calls

theorem kept_start {w : World} (h : Start w) : Kept w where
  began := by simp [h.calls]
  saved := by simp [h.calls]
  recording := by simp [h.calls]
  answered := by simp [h.calls]
  current := by simp [h.calls]
  answers := by simp [SnapshotKept, h.calls]

theorem kept_begin {w : World} (hw : Kept w) (request : Request) :
    Kept { w with calls := w.calls ++ [⟨request, w.steps, .begun⟩], steps := w.steps + 1 } := by
  have hcases : ∀ c ∈ w.calls ++ [⟨request, w.steps, .begun⟩], c ∈ w.calls ∨
      c = ⟨request, w.steps, .begun⟩ := by
    intro c hc
    exact (List.mem_append.mp hc).imp_right List.mem_singleton.mp
  have hold : ∀ c ∈ w.calls ++ [⟨request, w.steps, .begun⟩], c.phase ≠ .begun → c ∈ w.calls := by
    intro c hc hphase
    exact (hcases c hc).resolve_right fun heq => hphase (heq ▸ rfl)
  refine ⟨fun c hc => ?_, fun c hc ended hended => ?_, fun c hc hrecord data hdata => ?_,
    fun c hc read answer hread => ?_, fun c hc ended hcapture hended hbegan => ?_,
    fun c hc ended hcapture hended d hd read answer hread hlater hbegan => ?_⟩
  · rcases hcases c hc with hc | rfl
    · exact Nat.lt_succ_of_lt (hw.began c hc)
    · exact Nat.lt_succ_self _
  · obtain ⟨hle, hlt⟩ := hw.saved c (hold c hc (by simp [hended])) ended hended
    exact ⟨hle, Nat.lt_succ_of_lt hlt⟩
  · exact hw.recording c (hold c hc (by simp [hdata])) hrecord data hdata
  · exact Nat.lt_succ_of_lt (hw.answered c (hold c hc (by simp [hread])) read answer hread)
  · obtain ⟨other, hother, hrest⟩ := hw.current c (hold c hc (by simp [hended])) ended hcapture
      hended fun k hk => hbegan k (List.mem_append_left _ hk)
    exact ⟨other, List.mem_append_left _ hother, hrest⟩
  · obtain ⟨other, hother, hrest⟩ := hw.answers c (hold c hc (by simp [hended])) ended hcapture
      hended d (hold d hd (by simp [hread])) read answer hread hlater
      fun k hk => hbegan k (List.mem_append_left _ hk)
    exact ⟨other, List.mem_append_left _ hother, hrest⟩

theorem kept_tick {w : World} (hw : Kept w) (now : ℚ) :
    Kept { w with now, steps := w.steps + 1 } where
  began c hc := Nat.lt_succ_of_lt (hw.began c hc)
  saved c hc ended hended :=
    ⟨(hw.saved c hc ended hended).1, Nat.lt_succ_of_lt (hw.saved c hc ended hended).2⟩
  recording := hw.recording
  answered c hc read answer hread := Nat.lt_succ_of_lt (hw.answered c hc read answer hread)
  current := hw.current
  answers := hw.answers

/-- A fresh entry is read as it is stored. -/
theorem load_lastSnapshotId {w : World}
    (h : (w.entry.all fun e => decide (w.now < e.expires)) = true) :
    w.load.lastSnapshotId = w.remembered := by
  unfold World.load World.remembered
  cases hentry : w.entry with
  | none => rfl
  | some e =>
    rw [hentry] at h
    have hlive : (some e).filter (fun e => decide (w.now < e.expires)) = some e := by
      simpa [Option.filter] using h
    rw [hlive]
    rfl

theorem kept_load {w : World} (hw : Kept w) {i : ℕ} {call : Call} (hi : w.calls[i]? = some call)
    (hfresh : (w.entry.all fun e => decide (w.now < e.expires)) = true) {phase : Phase}
    (hphase : loadPhase w call true = some phase) : Kept (w.withPhase i call phase) := by
  have hquiet : phase = .loaded w.load → call.request ≠ .recordDecision →
      Kept (w.withPhase i call phase) := by
    rintro rfl hnot
    exact kept_withPhase hw hi (by simp) (fun hrecord => absurd hrecord hnot) (by simp)
  cases hbegun : call.phase with
  | begun =>
    cases hrequest : call.request with
    | recordDecision =>
      simp only [loadPhase, hbegun, hrequest, if_true, Option.some.injEq] at hphase
      subst hphase
      refine kept_withPhase hw hi (by simp) (by simp) fun read answer hread => ?_
      obtain ⟨rfl, rfl⟩ := Phase.answered.inj hread
      refine ⟨rfl, fun snapshotId hremembered => ?_⟩
      simp [lastSnapshot, load_lastSnapshotId hfresh, hremembered]
    | searchFacts query =>
      simp only [loadPhase, hbegun, hrequest, if_true, Option.some.injEq] at hphase
      exact hquiet hphase.symm (by simp [hrequest])
    | captureDecisionContext snapshotId ids =>
      simp only [loadPhase, hbegun, hrequest, if_true, Option.some.injEq] at hphase
      exact hquiet hphase.symm (by simp [hrequest])
  | _ => simp [loadPhase, hbegun] at hphase

/-- A step on an available store that puts no old snapshot back keeps the promise. -/
theorem kept_step {w w' : World} {a : Action} (hw : Kept w) (hup : storeUp w a = true)
    (hfresh : notStale w a = true) (h : step w a = some w') : Kept w' := by
  rcases step_cases h with ⟨request, rfl, rfl⟩ | ⟨i, call, available, phase, rfl, hi, hphase, rfl⟩ |
    ⟨i, call, data, available, clock, rfl, hi, hdata, hsaved⟩ | ⟨now, rfl, rfl⟩
  · exact kept_begin hw request
  · obtain ⟨rfl, hlive⟩ := (Bool.and_eq_true _ _).mp hup
    exact kept_load hw hi hlive hphase
  · obtain rfl : available = true := hup
    rcases hsaved with ⟨-, rfl⟩ | ⟨hfalse, -⟩
    · have hnot : call.request ≠ .recordDecision := fun hrecord =>
        hw.recording call (List.mem_of_getElem? hi) hrecord data hdata
      refine kept_save hw hi _ hnot ?_ fun hsearch => ?_
      · rintro snapshotId ⟨ids, hrequest⟩
        rw [hrequest]
        rfl
      · cases hrequest : call.request with
        | searchFacts query =>
          simp only [notStale, hi, Option.all_some, hrequest, hdata, beq_iff_eq] at hfresh
          exact hfresh
        | captureDecisionContext snapshotId ids =>
          exact absurd ⟨snapshotId, ids, hrequest⟩ hsearch
        | recordDecision => exact absurd hrequest hnot
    · exact absurd hfalse (by simp)
  · exact kept_tick hw now

/-- In every run on an available store without expiry in which no search puts an old snapshot
back, a decision takes the snapshot of the last capture or of one that overlapped it. -/
theorem snapshot_kept_of_notStale {w w' : World} {trace : List Action} (hstart : Start w)
    (hrun : system.run w trace = some w')
    (hup : system.RunMeets (fun w a => storeUp w a = true) w trace)
    (hfresh : system.RunMeets (fun w a => notStale w a = true) w trace) : SnapshotKept w' :=
  (system.run_preserves_of_meets (fun w a => storeUp w a = true ∧ notStale w a = true) Kept
    (fun _ _ _ hw hmeets hstep => kept_step hw hmeets.1 hmeets.2 hstep) hrun
    (System.RunMeets.and system hup hfresh) (kept_start hstart)).answers

def exampleSession : World := ⟨none, 3600, 0, 0, []⟩

theorem exampleSession_start : Start exampleSession := ⟨rfl⟩

/-- A capture, then a second one beside a search, then a decision; `order` are the steps of
the second capture and the search. -/
def exampleCalls (order : List Action) : List Action :=
  [.start (.captureDecisionContext 7 []), .load 0 true, .save 0 true 1,
   .start (.searchFacts "credit limit"), .start (.captureDecisionContext 8 [])] ++ order ++
    [.start .recordDecision, .load 3 true]

def exampleApart : List Action :=
  exampleCalls [.load 2 true, .save 2 true 2, .load 1 true, .save 1 true 3]

def exampleBetween : List Action :=
  exampleCalls [.load 1 true, .load 2 true, .save 2 true 2, .save 1 true 3]

theorem exampleApart_calls : (system.run exampleSession exampleApart).map World.calls =
    some [⟨.captureDecisionContext 7 [], 0, .saved 2⟩, ⟨.searchFacts "credit limit", 3, .saved 8⟩,
      ⟨.captureDecisionContext 8 [], 4, .saved 6⟩, ⟨.recordDecision, 9, .answered 10 (.ok 8)⟩] := by
  decide +kernel

theorem exampleApart_meets : system.RunMeets (fun w a => storeUp w a = true) exampleSession
      exampleApart ∧
    system.RunMeets (fun w a => notStale w a = true) exampleSession exampleApart := by
  decide +kernel

theorem snapshot_kept_of_notStale_example :
    ∃ w, system.run exampleSession exampleApart = some w ∧ SnapshotKept w ∧
      ⟨.recordDecision, 9, .answered 10 (.ok 8)⟩ ∈ w.calls := by
  obtain ⟨w, hrun, hcalls⟩ := Option.map_eq_some_iff.mp exampleApart_calls
  refine ⟨w, hrun, snapshot_kept_of_notStale exampleSession_start hrun exampleApart_meets.1
    exampleApart_meets.2, ?_⟩
  simp [hcalls]

theorem exampleBetween_calls : (system.run exampleSession exampleBetween).map World.calls =
    some [⟨.captureDecisionContext 7 [], 0, .saved 2⟩, ⟨.searchFacts "credit limit", 3, .saved 8⟩,
      ⟨.captureDecisionContext 8 [], 4, .saved 7⟩, ⟨.recordDecision, 9, .answered 10 (.ok 7)⟩] := by
  decide +kernel

theorem exampleBetween_meets : system.RunMeets (fun w a => storeUp w a = true) exampleSession
    exampleBetween := by
  decide +kernel

/-- The search of the example stores the first snapshot again after the second was captured. -/
theorem snapshot_lost :
    ¬ ∀ (w w' : World) (trace : List Action), Start w → system.run w trace = some w' →
      system.RunMeets (fun w a => storeUp w a = true) w trace → SnapshotKept w' := by
  intro h
  obtain ⟨w, hrun, hcalls⟩ := Option.map_eq_some_iff.mp exampleBetween_calls
  have hkept := h exampleSession w exampleBetween exampleSession_start hrun exampleBetween_meets
  unfold SnapshotKept at hkept
  rw [hcalls] at hkept
  obtain ⟨other, hother, snapshotId, ⟨ids, hcaptures⟩, htakes, hoverlaps⟩ :=
    hkept ⟨.captureDecisionContext 8 [], 4, .saved 7⟩ (by simp) 7 ⟨8, [], rfl⟩ rfl
      ⟨.recordDecision, 9, .answered 10 (.ok 7)⟩ (by simp) 10 (.ok 7) rfl (by decide) (by
        rintro k hk ⟨_, _, hrequest⟩
        simp only [List.mem_cons, List.not_mem_nil, or_false] at hk
        rcases hk with rfl | rfl | rfl | rfl
        · exact Or.inl (by decide)
        · exact Or.inl (by decide)
        · exact Or.inl (by decide)
        · exact absurd hrequest (by simp))
  obtain rfl : (7 : Uuid) = snapshotId := Except.ok.inj htakes
  simp only [List.mem_cons, List.not_mem_nil, or_false] at hother
  rcases hother with rfl | rfl | rfl | rfl
  · exact absurd (hoverlaps.2 2 rfl) (by decide)
  · exact absurd hcaptures (by simp)
  · exact absurd (Request.captureDecisionContext.inj hcaptures).1 (by decide)
  · exact absurd hcaptures (by simp)

end ContextLedger.SnapshotMemory
