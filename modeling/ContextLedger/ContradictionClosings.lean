import ContextLedger.ContradictionViews

/-!
What closing a contradiction comes to. It is closed by one call, which returns the row as
it left it, and a call that holds the lock of an open row can always finish: both versions
of the row are there to be shown.
-/
namespace ContextLedger.ContradictionClosings

open Values Schema Facts ContradictionRows ContradictionWorld ContradictionSteps
open ContradictionClaims (Extends.refl)
open ContradictionOrder ContradictionPairs ContradictionViews

variable {rt : Runtime}

/-- What is left to do for a call that holds the lock of its row. -/
def remaining (now : Instant) : ClosePhase → List CloseMove
  | .locked _ => [.write now, .seeLeft, .seeRight]
  | .written _ => [.seeLeft, .seeRight]
  | .halfSeen _ _ _ => [.seeRight]
  | _ => []

def finishing (i : ℕ) (now : Instant) (phase : ClosePhase) : List Action :=
  (remaining now phase).map (.moveClose i) ++ [.commitClose i]

/-- The call has closed its row and returned it. -/
def Finished (rt : Runtime) (w : World) (i : ℕ) (request : Resolution) (trace : List Action)
    (id : Uuid) : Prop :=
  ∃ w' row shown, (system rt).run w trace = some w' ∧
    w'.closers[i]? = some ⟨request, .committed row shown⟩ ∧ row ∈ w'.rows ∧ row.id = id

/-- What holds of the calls and the rows in every state. -/
structure ClosedOnce (rt : Runtime) (w : World) : Prop where
  unique : (w.rows.map ContradictionRow.id).Nodup
  once : ∀ (i j : ℕ) (request request' : Resolution) (row row' : ContradictionRow)
    (shown shown' : ContradictionView), w.closers[i]? = some ⟨request, .committed row shown⟩ →
      w.closers[j]? = some ⟨request', .committed row' shown'⟩ → row.id = row'.id → i = j
  named : ∀ row ∈ w.rows, row.status ≠ .open → ∃ (i : ℕ) (request : Resolution)
    (shown : ContradictionView), w.closers[i]? = some ⟨request, .committed row shown⟩
  committed : ∀ request row shown, (⟨request, .committed row shown⟩ : Closer) ∈ w.closers →
    row ∈ w.rows ∧ ClosedBy request row ∧ Shows row shown
  refused : ∀ request message,
    (⟨request, .failed (.domain (.conflict message))⟩ : Closer) ∈ w.closers →
      ∃ row ∈ w.rows, Meant request row ∧ row.status ≠ .open ∧
        message = "contradiction is already " ++ row.status.text
  progress : ∀ (i : ℕ) (request : Resolution) (phase : ClosePhase) (id : Uuid) (now : Instant),
    w.closers[i]? = some ⟨request, phase⟩ → Closer.locks ⟨request, phase⟩ = some id →
      (∀ row ∈ w.rows, row.id = id → row.status = .open) →
        request.note.any Jsonb.hasNul = false →
          Finished rt w i request (finishing i now phase) id

theorem exists_side_of_disputed {w : World} (hw : (system rt).Reachable w)
    {row : ContradictionRow} (hrow : row ∈ w.rows) :
    (∃ s e, side w.base.db row.organizationId row.leftVersionId = some (s, e)) ∧
      ∃ s e, side w.base.db row.organizationId row.rightVersionId = some (s, e) := by
  obtain ⟨l, r, h⟩ := contradictions_disputed hw row hrow
  obtain ⟨hl, hlorg, hlid⟩ := h.left
  obtain ⟨hr, hrorg, hrid⟩ := h.right
  obtain ⟨left, e, hleft, -⟩ := exists_side_later hw (Extends.refl _) hl
    (List.mem_singleton_self l.privacyScope) h.entity.1
  obtain ⟨right, e', hright, -⟩ := exists_side_later hw (Extends.refl _) hr
    (List.mem_singleton_self r.privacyScope) h.entity.2
  rw [hlorg, hlid] at hleft
  rw [hrorg, hrid] at hright
  exact ⟨⟨left, e, hleft⟩, right, e', hright⟩

/-- The row that a call has rewritten names the versions of the row that is there. -/
theorem exists_side_of_rewritten {w : World} (hw : (system rt).Reachable w)
    {request : Resolution} {row : ContradictionRow} (h : Rewritten w.rows request row) :
    (∃ s e, side w.base.db row.organizationId row.leftVersionId = some (s, e)) ∧
      ∃ s e, side w.base.db row.organizationId row.rightVersionId = some (s, e) := by
  obtain ⟨-, old, hold, now, -, -, rfl⟩ := h
  exact (exists_side_of_disputed hw hold :)

/-- One move of a call that can finish afterwards. -/
theorem Finished.before {w : World} {i : ℕ} {m : CloseMove} {request : Resolution}
    {phase : ClosePhase} (phase' : ClosePhase) {trace : List Action} {id : Uuid}
    (hcloser : w.closers[i]? = some ⟨request, phase⟩)
    (hfree : w.lockFree i ⟨request, phase⟩ m = true)
    (hmove : stepClose w.base.db w.rows ⟨request, phase⟩ m = some phase')
    (hw : (system rt).Reachable w)
    (hnext : ∀ w', (system rt).Reachable w' → w'.closers[i]? = some ⟨request, phase'⟩ →
      Finished rt w' i request trace id) :
    Finished rt w i request (.moveClose i m :: trace) id := by
  obtain ⟨hi, -⟩ := List.getElem?_eq_some_iff.mp hcloser
  have hstep : (system rt).step w (.moveClose i m) =
      some { w with closers := w.closers.set i ⟨request, phase'⟩ } := by
    simp only [system, step, hcloser, hfree, hmove, if_true, Option.map_some]
  have hone : (system rt).run w [.moveClose i m] =
      some { w with closers := w.closers.set i ⟨request, phase'⟩ } :=
    ((system rt).run_cons_eq_some).mpr ⟨_, hstep, rfl⟩
  obtain ⟨w', row, shown, hrun, hdone⟩ := hnext _ (hw.extend _ hone) (List.getElem?_set_self hi)
  exact ⟨w', row, shown, ((system rt).run_cons_eq_some).mpr ⟨_, hstep, hrun⟩, hdone⟩

theorem finished_seen {w : World} (hw : (system rt).Reachable w) {i : ℕ} {request : Resolution}
    {row : ContradictionRow} {shown : ContradictionView}
    (hcloser : w.closers[i]? = some ⟨request, .seen row shown⟩) :
    Finished rt w i request [.commitClose i] row.id := by
  obtain ⟨hi, -⟩ := List.getElem?_eq_some_iff.mp hcloser
  obtain ⟨-, old, hold, -, hid, -, -⟩ := seen_old (lawful_reachable hw) hcloser
  have hstep : (system rt).step w (.commitClose i) = some { w with
      rows := w.rows.map (replaced row)
      closers := w.closers.set i ⟨request, .committed row shown⟩ } := by
    simp only [system, step, hcloser]
    rfl
  exact ⟨_, row, shown, ((system rt).run_cons_eq_some).mpr ⟨_, hstep, rfl⟩,
    List.getElem?_set_self hi, List.mem_map.mpr ⟨old, hold, if_pos hid⟩, rfl⟩

theorem finished_halfSeen {w : World} (hw : (system rt).Reachable w) {i : ℕ}
    {request : Resolution} {row : ContradictionRow} {left : ContradictionSide} {entity : Entity}
    (hcloser : w.closers[i]? = some ⟨request, .halfSeen row left entity⟩) :
    Finished rt w i request [.moveClose i .seeRight, .commitClose i] row.id := by
  have hrewritten : Rewritten w.rows request row :=
    (lawful_reachable hw).closers _ (List.mem_of_getElem? hcloser)
  obtain ⟨-, right, other, hright⟩ := exists_side_of_rewritten hw hrewritten
  refine Finished.before (.seen row (row.shown entity left right)) hcloser rfl ?_ hw
    fun w' hw' hcloser' => finished_seen hw' hcloser'
  simp only [stepClose, hright]

theorem finished_written {w : World} (hw : (system rt).Reachable w) {i : ℕ}
    {request : Resolution} {row : ContradictionRow}
    (hcloser : w.closers[i]? = some ⟨request, .written row⟩) :
    Finished rt w i request [.moveClose i .seeLeft, .moveClose i .seeRight, .commitClose i]
      row.id := by
  have hrewritten : Rewritten w.rows request row :=
    (lawful_reachable hw).closers _ (List.mem_of_getElem? hcloser)
  obtain ⟨⟨left, entity, hleft⟩, -⟩ := exists_side_of_rewritten hw hrewritten
  refine Finished.before (.halfSeen row left entity) hcloser rfl ?_ hw
    fun w' hw' hcloser' => finished_halfSeen hw' hcloser'
  simp only [stepClose, hleft]

/-- Whoever holds the lock of an open row can close it. -/
theorem finished {w : World} (hw : (system rt).Reachable w) {i : ℕ} {request : Resolution}
    {phase : ClosePhase} {id : Uuid} (now : Instant)
    (hcloser : w.closers[i]? = some ⟨request, phase⟩)
    (hlocks : Closer.locks ⟨request, phase⟩ = some id)
    (hopen : ∀ row ∈ w.rows, row.id = id → row.status = .open)
    (hnote : request.note.any Jsonb.hasNul = false) :
    Finished rt w i request (finishing i now phase) id := by
  cases phase with
  | locked row =>
    obtain rfl := Option.some.inj hlocks
    obtain ⟨-, hrow, -⟩ := (lawful_reachable hw).closers _ (List.mem_of_getElem? hcloser)
    show Finished rt w i request _ (request.close row now).id
    refine Finished.before (.written (request.close row now)) hcloser rfl ?_ hw
      fun w' hw' hcloser' => finished_written hw' hcloser'
    simp [stepClose, hopen row hrow rfl, hnote]
  | written row =>
    obtain rfl := Option.some.inj hlocks
    exact finished_written hw hcloser
  | halfSeen row left entity =>
    obtain rfl := Option.some.inj hlocks
    exact finished_halfSeen hw hcloser
  | seen row shown =>
    obtain rfl := Option.some.inj hlocks
    exact finished_seen hw hcloser
  | begun => exact absurd hlocks (by simp [Closer.locks])
  | permitted visible => exact absurd hlocks (by simp [Closer.locks])
  | committed row shown => exact absurd hlocks (by simp [Closer.locks])
  | failed failure => exact absurd hlocks (by simp [Closer.locks])
  | aborted => exact absurd hlocks (by simp [Closer.locks])

/-- In every run a contradiction is closed at most once, by the call that it then names, and
it stays as that call left it; a call that came too late has been told what it found. -/
theorem contradictions_closed_once {w w' : World} {trace : List Action}
    (hw : (system rt).Reachable w) (hrun : (system rt).run w trace = some w') :
    ClosedOnce rt w' ∧ ∀ row ∈ w.rows, Later w' row := by
  have hw' := hw.extend _ hrun
  have hlawful := lawful_reachable hw'
  refine ⟨⟨nodup_rows hlawful, ?_, ?_, ?_, ?_, ?_⟩,
    fun row hrow => later_run (lawful_reachable hw) hrun hrow⟩
  · intro i j request request' row row' shown shown' hi hj hid
    by_contra hij
    exact hlawful.closes i j _ _ hi hj hij row row' shown shown' rfl rfl hid
  · intro row hrow hclosed
    obtain ⟨request, shown, hrequest⟩ := hlawful.closed row hrow hclosed
    obtain ⟨i, hi⟩ := List.mem_iff_getElem?.mp hrequest
    exact ⟨i, request, shown, hi⟩
  · exact fun request row shown hcloser => hlawful.closers _ hcloser
  · exact fun request message hcloser => hlawful.closers _ hcloser message rfl
  · exact fun i request phase id now hcloser hlocks hopen hnote =>
      finished hw' now hcloser hlocks hopen hnote

/-- Two people close what the sources disagree about; the second waits for the first. -/
def exampleClosing : List Action :=
  [.beginClose ⟨exampleContext, 40, .resolved, some "billing is right",
    fun _ h => Option.some.inj h ▸ by decide⟩,
   .beginClose ⟨exampleContext, 40, .dismissed, none, by simp⟩,
   .moveClose 0 .permit, .moveClose 1 .permit, .moveClose 0 .lock, .moveClose 0 (.write 50),
   .moveClose 0 .seeLeft, .moveClose 0 .seeRight, .commitClose 0, .moveClose 1 .lock,
   .moveClose 1 (.write 51)]

/-- The first call has closed the row and returned it, and the second is told so. -/
def exampleEnd (w : World) : Bool :=
  decide ((w.rows.map fun row => (row.id, row.status)) = [(40, .resolved)]) &&
    (w.closers[0]?.any fun closer => match closer.phase with
      | .committed _ shown => shown.id == 40 && shown.status == .resolved
      | _ => false) &&
    (w.closers[1]?.any fun closer => match closer.phase with
      | .failed (.domain (.conflict message)) => message == "contradiction is already resolved"
      | _ => false)

theorem exampleClosing_runs :
    ((system exampleRuntime).run exampleDisputed exampleClosing).any exampleEnd = true := by
  decide +kernel

theorem contradictions_closed_once_example :
    ∃ w, exampleEnd w = true ∧ ClosedOnce exampleRuntime w ∧
      ∀ row ∈ exampleDisputed.rows, Later w row := by
  obtain ⟨w, hrun, hend⟩ := (Option.any_eq_true _ _).mp exampleClosing_runs
  exact ⟨w, hend, contradictions_closed_once exampleDisputed_reachable hrun⟩

end ContextLedger.ContradictionClosings
