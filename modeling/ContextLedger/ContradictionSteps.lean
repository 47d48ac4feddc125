import ContextLedger.ContradictionWorld

/-!
What each step of the calls that close and review contradictions can do.
-/
namespace ContextLedger.ContradictionSteps

open Values Authorization Schema Facts TemporalEngine ContradictionRows ContradictionWorld
open Concurrent (Event)

/-- A move of a call that closes a contradiction. -/
inductive Closing (db : Database) (rows : List ContradictionRow) (closer : Closer) :
    CloseMove → ClosePhase → Prop
  | permitted (role : MembershipRole) (hphase : closer.phase = .begun)
      (hrole : requirePermission db closer.request.ctx .writeFacts = .ok role) :
      Closing db rows closer .permit (.permitted (visibleTo role closer.request.ctx))
  | denied (failure : Failure) (hphase : closer.phase = .begun)
      (hrole : requirePermission db closer.request.ctx .writeFacts = .error failure) :
      Closing db rows closer .permit (.failed failure)
  | locked (visible : List PrivacyScope) (row : ContradictionRow)
      (hphase : closer.phase = .permitted visible)
      (hrow : selectRow rows closer.request.ctx.organizationId closer.request.contradictionId
        visible = some row) :
      Closing db rows closer .lock (.locked row)
  | unknown (visible : List PrivacyScope) (hphase : closer.phase = .permitted visible) :
      Closing db rows closer .lock (.failed (.domain (.notFound "contradiction not found")))
  | refused (row : ContradictionRow) (now : Instant) (hphase : closer.phase = .locked row)
      (hstatus : row.status ≠ .open) :
      Closing db rows closer (.write now) (.failed (alreadyClosed row.status))
  | unstorable (row : ContradictionRow) (now : Instant) (hphase : closer.phase = .locked row) :
      Closing db rows closer (.write now) (.failed .unstorableText)
  | written (row : ContradictionRow) (now : Instant) (hphase : closer.phase = .locked row)
      (hstatus : row.status = .open) :
      Closing db rows closer (.write now) (.written (closer.request.close row now))
  | halfSeen (row : ContradictionRow) (left : ContradictionSide) (entity : Entity)
      (hphase : closer.phase = .written row)
      (hside : side db row.organizationId row.leftVersionId = some (left, entity)) :
      Closing db rows closer .seeLeft (.halfSeen row left entity)
  | seen (row : ContradictionRow) (left right : ContradictionSide) (entity other : Entity)
      (hphase : closer.phase = .halfSeen row left entity)
      (hside : side db row.organizationId row.rightVersionId = some (right, other)) :
      Closing db rows closer .seeRight (.seen row (row.shown entity left right))
  | unseen {m : CloseMove} (hopen : ∀ row shown, closer.phase ≠ .committed row shown) :
      Closing db rows closer m (.failed .notOneRow)
  | aborted (hopen : ∀ row shown, closer.phase ≠ .committed row shown) :
      Closing db rows closer .abort .aborted

theorem stepClose_cases {db : Database} {rows : List ContradictionRow} {closer : Closer}
    {m : CloseMove} {phase : ClosePhase} (h : stepClose db rows closer m = some phase) :
    Closing db rows closer m phase := by
  cases m with
  | permit =>
    simp only [stepClose] at h
    split at h
    · rename_i hphase
      split at h
      · rename_i role hrole
        obtain rfl := Option.some.inj h
        exact .permitted role hphase hrole
      · rename_i failure hrole
        obtain rfl := Option.some.inj h
        exact .denied failure hphase hrole
    · exact absurd h (by simp)
  | lock =>
    simp only [stepClose] at h
    split at h
    · rename_i visible hphase
      split at h
      · rename_i row hrow
        obtain rfl := Option.some.inj h
        exact .locked visible row hphase hrow
      · obtain rfl := Option.some.inj h
        exact .unknown visible hphase
    · exact absurd h (by simp)
  | write now =>
    simp only [stepClose] at h
    split at h
    · rename_i row hphase
      split_ifs at h with hstatus hnote
      · obtain rfl := Option.some.inj h
        exact .refused row now hphase hstatus
      · obtain rfl := Option.some.inj h
        exact .unstorable row now hphase
      · obtain rfl := Option.some.inj h
        exact .written row now hphase (not_not.mp hstatus)
    · exact absurd h (by simp)
  | seeLeft =>
    simp only [stepClose] at h
    split at h
    · rename_i row hphase
      split at h
      · rename_i left entity hside
        obtain rfl := Option.some.inj h
        exact .halfSeen row left entity hphase hside
      · obtain rfl := Option.some.inj h
        exact .unseen (by simp [hphase])
    · exact absurd h (by simp)
  | seeRight =>
    simp only [stepClose] at h
    split at h
    · rename_i row left entity hphase
      split at h
      · rename_i right other hside
        obtain rfl := Option.some.inj h
        exact .seen row left right entity other hphase hside
      · obtain rfl := Option.some.inj h
        exact .unseen (by simp [hphase])
    · exact absurd h (by simp)
  | abort =>
    simp only [stepClose] at h
    split at h
    · exact absurd h (by simp)
    · exact absurd h (by simp)
    · exact absurd h (by simp)
    · rename_i hcommitted _ _
      obtain rfl := Option.some.inj h
      exact .aborted hcommitted

/-- A move of a review. -/
inductive Reviewing (rt : Runtime) (db : Database) (rows : List ContradictionRow)
    (review : Review) : ReviewMove → ReviewPhase → Prop
  | reading (role : MembershipRole) (hphase : review.phase = .begun)
      (hrole : requirePermission db review.ctx .readFacts = .ok role) :
      Reviewing rt db rows review .read (.reading role)
  | allowed (role : MembershipRole) (hphase : review.phase = .reading role) :
      Reviewing rt db rows review .allow (.allowed role)
  | nothing (role : MembershipRole) (clock : Instant) (result : ReviewResult)
      (hphase : review.phase = .allowed role) :
      Reviewing rt db rows review (.supply clock) (.nothing result)
  | supplied (role : MembershipRole) (clock : Instant) (facts : List ResolvedFact)
      (hphase : review.phase = .allowed role)
      (hfacts : factsAt rt db review.ctx review.entityType review.externalId none none clock =
        .ok facts)
      (hmany : 2 ≤ (reviewed (visibleTo role review.ctx) facts).length) :
      Reviewing rt db rows review (.supply clock)
        (.supplied (visibleTo role review.ctx) (reviewed (visibleTo role review.ctx) facts))
  | answered (visible : List PrivacyScope) (facts : List ResolvedFact) (content model : String)
      (findings : List Finding) (hphase : review.phase = .supplied visible facts)
      (hparse : parseFindings rt content = some findings) :
      Reviewing rt db rows review (.answer (.message content model))
        (.answered visible facts model findings)
  | started (visible : List PrivacyScope) (facts : List ResolvedFact) (model : String)
      (findings : List Finding) (now : Instant)
      (hphase : review.phase = .answered visible facts model findings) :
      Reviewing rt db rows review (.begin now)
        (.storing ⟨visible, facts, model, findings, now, accepted facts findings, [], [], 0⟩)
  | known (work : Storing) (found : Accepted) (todo : List Accepted)
      (hphase : review.phase = .storing work) (htodo : work.todo = found :: todo)
      (hknown : ∃ row ∈ rows ++ work.rows, row.pair = found.pair review.ctx.organizationId) :
      Reviewing rt db rows review .select
        (.storing { work with todo, known := work.known + 1 })
  | missed (work : Storing) (found : Accepted) (todo : List Accepted)
      (hphase : review.phase = .storing work) (htodo : work.todo = found :: todo)
      (hmissed : ∀ row ∈ rows ++ work.rows, row.pair ≠ found.pair review.ctx.organizationId) :
      Reviewing rt db rows review .select (.missed { work with todo } found)
  | stored (work : Storing) (found : Accepted) (id : Uuid) (shown : ContradictionView)
      (hphase : review.phase = .missed work found)
      (hfree : ∀ row ∈ rows, row.pair ≠ (semanticRow review.ctx found id work.now).pair)
      (hshown : view db db (semanticRow review.ctx found id work.now) = some shown) :
      Reviewing rt db rows review (.insert id) (.storing { work with
        rows := work.rows ++ [semanticRow review.ctx found id work.now]
        created := work.created ++ [shown] })
  | failed {m : ReviewMove} (failure : ReviewFailure) (hopen : review.phase.isOpen = true) :
      Reviewing rt db rows review m (.failed failure)
  | aborted (hopen : review.phase.isOpen = true) : Reviewing rt db rows review .abort .aborted

theorem any_pair_iff {rows : List ContradictionRow} {pair : Uuid × Uuid × Uuid} :
    (rows.any fun row => row.pair == pair) = true ↔ ∃ row ∈ rows, row.pair = pair := by
  rw [List.any_eq_true]
  simp only [beq_iff_eq]

theorem not_any_pair_iff {rows : List ContradictionRow} {pair : Uuid × Uuid × Uuid} :
    ¬(rows.any fun row => row.pair == pair) = true ↔ ∀ row ∈ rows, row.pair ≠ pair := by
  rw [any_pair_iff]
  exact ⟨fun h row hrow hpair => h ⟨row, hrow, hpair⟩,
    fun h ⟨row, hrow, hpair⟩ => h row hrow hpair⟩

theorem stepReview_cases {rt : Runtime} {db : Database} {rows : List ContradictionRow}
    {review : Review} {m : ReviewMove} {phase : ReviewPhase}
    (h : stepReview rt db rows review m = some phase) : Reviewing rt db rows review m phase := by
  cases m with
  | read =>
    simp only [stepReview] at h
    split at h
    · rename_i hphase
      split at h
      · rename_i role hrole
        obtain rfl := Option.some.inj h
        exact .reading role hphase hrole
      · obtain rfl := Option.some.inj h
        exact .failed _ (by rw [hphase]; rfl)
    · exact absurd h (by simp)
  | allow =>
    simp only [stepReview] at h
    split at h
    · rename_i role hphase
      split at h
      · obtain rfl := Option.some.inj h
        exact .allowed role hphase
      · obtain rfl := Option.some.inj h
        exact .failed _ (by rw [hphase]; rfl)
    · exact absurd h (by simp)
  | supply clock =>
    simp only [stepReview] at h
    split at h
    · rename_i role hphase
      split at h
      · rename_i facts hfacts
        obtain rfl := Option.some.inj h
        unfold supply
        split_ifs with hfew
        · exact .nothing role clock _ hphase
        · exact .supplied role clock facts hphase hfacts (Nat.le_of_not_lt hfew)
      · obtain rfl := Option.some.inj h
        exact .failed _ (by rw [hphase]; rfl)
    · exact absurd h (by simp)
  | answer reply =>
    simp only [stepReview] at h
    split at h
    · rename_i visible facts hphase
      obtain rfl := Option.some.inj h
      have hopen : review.phase.isOpen = true := by rw [hphase]; rfl
      cases reply with
      | error cause => exact .failed _ hopen
      | message content model =>
        simp only [answer]
        split
        · rename_i findings hparse
          exact .answered visible facts content model findings hphase hparse
        · exact .failed _ hopen
    · exact absurd h (by simp)
  | begin now =>
    simp only [stepReview] at h
    split at h
    · rename_i visible facts model findings hphase
      split at h
      · obtain rfl := Option.some.inj h
        exact .started visible facts model findings now hphase
      · obtain rfl := Option.some.inj h
        exact .failed _ (by rw [hphase]; rfl)
    · exact absurd h (by simp)
  | select =>
    simp only [stepReview] at h
    split at h
    · rename_i work hphase
      split at h
      · exact absurd h (by simp)
      · rename_i found todo htodo
        split_ifs at h with hknown
        · obtain rfl := Option.some.inj h
          exact .known work found todo hphase htodo (any_pair_iff.mp hknown)
        · obtain rfl := Option.some.inj h
          exact .missed work found todo hphase htodo (not_any_pair_iff.mp hknown)
    · exact absurd h (by simp)
  | insert id =>
    simp only [stepReview] at h
    split at h
    · rename_i work found hphase
      have hopen : review.phase.isOpen = true := by rw [hphase]; rfl
      split_ifs at h with htaken hnul
      · obtain rfl := Option.some.inj h
        exact .failed _ hopen
      · obtain rfl := Option.some.inj h
        exact .failed _ hopen
      · split at h
        · rename_i shown hshown
          obtain rfl := Option.some.inj h
          exact .stored work found id shown hphase (not_any_pair_iff.mp htaken) hshown
        · obtain rfl := Option.some.inj h
          exact .failed _ hopen
    · exact absurd h (by simp)
  | abort =>
    simp only [stepReview] at h
    split_ifs at h with hopen
    obtain rfl := Option.some.inj h
    exact .aborted hopen

/-- What a step can do. -/
inductive Stepped (rt : Runtime) (w : World) : Action → World → Prop
  | recorders (e : Event) (rowId : Uuid) (base : Concurrent.World)
      (hfresh : ∀ row ∈ w.rows ++ w.uncommitted, row.id ≠ rowId)
      (hstep : Concurrent.step rt w.base e = some base) :
      Stepped rt w (.base e rowId) { w with base, rows := w.rows ++ newRows w.base e rowId }
  | others (users : List User) (memberships : List OrganizationMembership) :
      Stepped rt w (.others users memberships)
        { w with base := { w.base with db := { w.base.db with users, memberships } } }
  | closeBegun (request : Resolution) :
      Stepped rt w (.beginClose request) { w with closers := w.closers ++ [beginClose request] }
  | closeMoved (i : ℕ) (m : CloseMove) (closer : Closer) (phase : ClosePhase)
      (hcloser : w.closers[i]? = some closer) (hfree : w.lockFree i closer m = true)
      (hmoved : Closing w.base.db w.rows closer m phase) :
      Stepped rt w (.moveClose i m) { w with closers := w.closers.set i { closer with phase } }
  | closeCommitted (i : ℕ) (request : Resolution) (row : ContradictionRow)
      (shown : ContradictionView) (hcloser : w.closers[i]? = some ⟨request, .seen row shown⟩) :
      Stepped rt w (.commitClose i) { w with
        rows := w.rows.map fun old => if old.id = row.id then row else old
        closers := w.closers.set i ⟨request, .committed row shown⟩ }
  | reviewBegun (ctx : TenantContext) (entityType externalId : String) :
      Stepped rt w (.beginReview ctx entityType externalId)
        { w with reviews := w.reviews ++ [⟨ctx, entityType, externalId, .begun⟩] }
  | reviewMoved (i : ℕ) (m : ReviewMove) (review : Review) (phase : ReviewPhase)
      (hreview : w.reviews[i]? = some review) (hready : w.insertReady i review m = true)
      (hmoved : Reviewing rt w.base.db w.rows review m phase) :
      Stepped rt w (.moveReview i m) { w with reviews := w.reviews.set i { review with phase } }
  | reviewCommitted (i : ℕ) (review : Review) (work : Storing)
      (hreview : w.reviews[i]? = some review) (hphase : review.phase = .storing work)
      (htodo : work.todo = []) :
      Stepped rt w (.commitReview i) { w with
        rows := w.rows ++ work.rows
        reviews := w.reviews.set i { review with phase := .done work (work.result review) } }

theorem step_cases {rt : Runtime} {w w' : World} {a : Action} (h : step rt w a = some w') :
    Stepped rt w a w' := by
  cases a with
  | base e rowId =>
    simp only [step] at h
    split_ifs at h with hfresh
    obtain ⟨base, hstep, rfl⟩ := Option.map_eq_some_iff.mp h
    refine .recorders e rowId base (fun row hrow => ?_) hstep
    simpa using List.all_eq_true.mp hfresh row hrow
  | others users memberships =>
    obtain rfl := Option.some.inj h
    exact .others users memberships
  | beginClose request =>
    obtain rfl := Option.some.inj h
    exact .closeBegun request
  | moveClose i m =>
    simp only [step] at h
    split at h
    · exact absurd h (by simp)
    · rename_i closer hcloser
      split_ifs at h with hfree
      obtain ⟨phase, hmoved, rfl⟩ := Option.map_eq_some_iff.mp h
      exact .closeMoved i m closer phase hcloser hfree (stepClose_cases hmoved)
  | commitClose i =>
    simp only [step] at h
    split at h
    · rename_i request row shown hcloser
      obtain rfl := Option.some.inj h
      exact .closeCommitted i request row shown hcloser
    · exact absurd h (by simp)
  | beginReview ctx entityType externalId =>
    obtain rfl := Option.some.inj h
    exact .reviewBegun ctx entityType externalId
  | moveReview i m =>
    simp only [step] at h
    split at h
    · exact absurd h (by simp)
    · rename_i review hreview
      split_ifs at h with hready
      obtain ⟨phase, hmoved, rfl⟩ := Option.map_eq_some_iff.mp h
      exact .reviewMoved i m review phase hreview hready (stepReview_cases hmoved)
  | commitReview i =>
    simp only [step] at h
    split at h
    · exact absurd h (by simp)
    · rename_i review hreview
      split at h
      · rename_i work hphase
        split_ifs at h with htodo
        obtain rfl := Option.some.inj h
        exact .reviewCommitted i review work hreview hphase htodo
      · exact absurd h (by simp)

end ContextLedger.ContradictionSteps
