import ContextLedger.AdminPresence
import ContextLedger.ContradictionSteps

/-!
Contradictions are closed once. A call that closes one holds the lock of its row from the
select to its commit, so that no other call commits in between: whoever selects the row
afterwards finds it closed and is told so.
-/
namespace ContextLedger.ContradictionOrder

open Values Authorization Schema Facts ContradictionRows ContradictionWorld ContradictionSteps
open AdminPresence (requirePermission_eq_ok)

def World.pool (w : World) : List ContradictionRow := w.rows ++ w.uncommitted

/-- The row is one that the request may close. -/
structure Meant (request : Resolution) (row : ContradictionRow) : Prop where
  id : row.id = request.contradictionId
  organizationId : row.organizationId = request.ctx.organizationId
  visible : ∃ role, hasPermission role .writeFacts = true ∧
    row.privacyScope ∈ visibleTo role request.ctx

/-- The row is an open one that the request has closed. -/
structure ClosedBy (request : Resolution) (row : ContradictionRow) : Prop where
  status : request.status ≠ .open
  closed : ∃ old now, old.status = .open ∧ Meant request old ∧ row = request.close old now

theorem ClosedBy.row_status {request : Resolution} {row : ContradictionRow}
    (h : ClosedBy request row) : row.status = request.status := by
  obtain ⟨old, now, -, -, rfl⟩ := h.closed
  rfl

theorem ClosedBy.not_open {request : Resolution} {row : ContradictionRow}
    (h : ClosedBy request row) : row.status ≠ .open := by
  rw [h.row_status]
  exact h.status

/-- The row is what the request makes of an open one. -/
def Rewritten (rows : List ContradictionRow) (request : Resolution) (row : ContradictionRow) :
    Prop :=
  request.status ≠ .open ∧ ∃ old ∈ rows, ∃ now,
    old.status = .open ∧ Meant request old ∧ row = request.close old now

/-- What is returned shows the row. -/
def Shows (row : ContradictionRow) (shown : ContradictionView) : Prop :=
  ∃ entity left right, shown = row.shown entity left right

/-- What a call knows of the committed rows. -/
def Informed (rows : List ContradictionRow) : Closer → Prop
  | ⟨request, .begun⟩ => request.status ≠ .open
  | ⟨request, .permitted visible⟩ => request.status ≠ .open ∧
      ∃ role, hasPermission role .writeFacts = true ∧ visible = visibleTo role request.ctx
  | ⟨request, .locked row⟩ => request.status ≠ .open ∧ row ∈ rows ∧ Meant request row
  | ⟨request, .written row⟩ => Rewritten rows request row
  | ⟨request, .halfSeen row _ _⟩ => Rewritten rows request row
  | ⟨request, .seen row shown⟩ => Rewritten rows request row ∧ Shows row shown
  | ⟨request, .committed row shown⟩ => row ∈ rows ∧ ClosedBy request row ∧ Shows row shown
  | ⟨request, .failed failure⟩ => ∀ message, failure = .domain (.conflict message) →
      ∃ row ∈ rows, Meant request row ∧ row.status ≠ .open ∧
        message = "contradiction is already " ++ row.status.text
  | ⟨_, .aborted⟩ => True

/-- Two calls do not hold the lock of one row. -/
def LocksApart (a b : Closer) : Prop := ∀ id, a.locks = some id → b.locks ≠ some id

/-- Two calls have not closed one row. -/
def ClosesApart (a b : Closer) : Prop := ∀ row row' shown shown',
  a.phase = .committed row shown → b.phase = .committed row' shown' → row.id ≠ row'.id

structure Lawful (w : World) : Prop where
  unique : ((World.pool w).map ContradictionRow.id).Nodup
  closers : ∀ closer ∈ w.closers, Informed w.rows closer
  locks : Processes.Apart LocksApart w.closers
  closes : Processes.Apart ClosesApart w.closers
  pending : ∀ row ∈ w.uncommitted, row.status = .open
  closed : ∀ row ∈ w.rows, row.status ≠ .open →
    ∃ request shown, (⟨request, .committed row shown⟩ : Closer) ∈ w.closers

theorem LocksApart.symm (a b : Closer) (h : LocksApart a b) : LocksApart b a :=
  fun id hb ha => h id ha hb

theorem ClosesApart.symm (a b : Closer) (h : ClosesApart a b) : ClosesApart b a :=
  fun row row' shown shown' hb ha hid => h row' row shown' shown ha hb hid.symm

/-- What a committed close leaves of a row. -/
def replaced (row old : ContradictionRow) : ContradictionRow := if old.id = row.id then row else old

theorem map_replaced {β : Type} (key : ContradictionRow → β) {row : ContradictionRow}
    {rows : List ContradictionRow} (h : ∀ old ∈ rows, old.id = row.id → key old = key row) :
    (rows.map (replaced row)).map key = rows.map key := by
  rw [List.map_map]
  refine List.map_congr_left fun old hold => ?_
  by_cases hid : old.id = row.id
  · rw [Function.comp_apply, replaced, if_pos hid, h old hold hid]
  · rw [Function.comp_apply, replaced, if_neg hid]

theorem mem_replaced_of_ne {row other : ContradictionRow} {rows : List ContradictionRow}
    (hother : other ∈ rows) (hne : other.id ≠ row.id) : other ∈ rows.map (replaced row) :=
  List.mem_map.mpr ⟨other, hother, if_neg hne⟩

/-- What a move of a review does to the rows that it has inserted. -/
theorem inserted_cases {rt : Runtime} {db : Database} {rows : List ContradictionRow}
    {review : Review} {m : ReviewMove} {phase : ReviewPhase}
    (h : Reviewing rt db rows review m phase) :
    Review.inserted { review with phase } = review.inserted ∨
      Review.inserted { review with phase } = [] ∨
        ∃ work found id shown, m = .insert id ∧ review.phase = .missed work found ∧
          (∀ row ∈ rows, row.pair ≠ (semanticRow review.ctx found id work.now).pair) ∧
          view db db (semanticRow review.ctx found id work.now) = some shown ∧
          Review.inserted { review with phase } =
            review.inserted ++ [semanticRow review.ctx found id work.now] := by
  obtain ⟨ctx, entityType, externalId, old⟩ := review
  cases h with
  | reading => exact Or.inr (Or.inl rfl)
  | allowed => exact Or.inr (Or.inl rfl)
  | nothing => exact Or.inr (Or.inl rfl)
  | supplied => exact Or.inr (Or.inl rfl)
  | answered => exact Or.inr (Or.inl rfl)
  | started => exact Or.inr (Or.inl rfl)
  | known work found todo hphase =>
    obtain rfl := hphase
    exact Or.inl rfl
  | missed work found todo hphase =>
    obtain rfl := hphase
    exact Or.inl rfl
  | stored work found id shown hphase hfree hshown =>
    obtain rfl := hphase
    exact Or.inr (Or.inr ⟨work, found, id, shown, rfl, rfl, hfree, hshown, rfl⟩)
  | failed => exact Or.inr (Or.inl rfl)
  | aborted => exact Or.inr (Or.inl rfl)

/-- A key that the inserted row does not share stays unique. -/
theorem nodup_reviewMoved {β : Type} (key : ContradictionRow → β) {rt : Runtime} {w : World}
    {i : ℕ} {review : Review} {m : ReviewMove} {phase : ReviewPhase}
    (hreview : w.reviews[i]? = some review) (hmoved : Reviewing rt w.base.db w.rows review m phase)
    (h : ((World.pool w).map key).Nodup)
    (hnew : ∀ work found id, m = .insert id → review.phase = .missed work found →
      (∀ row ∈ w.rows, row.pair ≠ (semanticRow review.ctx found id work.now).pair) →
        ∀ old ∈ World.pool w, key old ≠ key (semanticRow review.ctx found id work.now)) :
    ((World.pool { w with reviews := w.reviews.set i { review with phase } }).map key).Nodup := by
  obtain ⟨rest, hbefore, hafter⟩ := Processes.perm_flatMap_set Review.inserted hreview
  have hafter := hafter { review with phase }
  have hpool : (World.pool w).Perm (w.rows ++ (review.inserted ++ rest)) := hbefore.append_left _
  have hpool' : (World.pool { w with reviews := w.reviews.set i { review with phase } }).Perm
      (w.rows ++ (Review.inserted { review with phase } ++ rest)) := hafter.append_left _
  rw [(hpool'.map key).nodup_iff]
  have hold := (hpool.map key).nodup_iff.mp h
  rcases inserted_cases hmoved with hsame | hnone |
    ⟨work, found, id, -, hm, hphase, hfree, -, hadded⟩
  · rw [hsame]
    exact hold
  · rw [hnone]
    exact hold.sublist (((List.sublist_append_right _ rest).append_left w.rows).map key)
  · rw [hadded]
    have hperm : (w.rows ++ (review.inserted ++ [semanticRow review.ctx found id work.now] ++
        rest)).Perm (semanticRow review.ctx found id work.now ::
          (w.rows ++ (review.inserted ++ rest))) := by
      rw [List.append_assoc, List.singleton_append, ← List.append_assoc, ← List.append_assoc]
      exact List.perm_middle
    rw [(hperm.map key).nodup_iff, List.map_cons, List.nodup_cons]
    refine ⟨fun hmem => ?_, hold⟩
    obtain ⟨old, hmem, hkey⟩ := List.mem_map.mp hmem
    exact hnew work found id hm hphase hfree old (hpool.mem_iff.mpr hmem) hkey

/-- The rows that a review commits were inserted before. -/
theorem perm_reviewCommitted {w : World} {i : ℕ} {review : Review} {work : Storing}
    (phase : ReviewPhase) (hreview : w.reviews[i]? = some review)
    (hphase : review.phase = .storing work) (hdone : Review.inserted { review with phase } = []) :
    (w.rows ++ work.rows ++
      (w.reviews.set i { review with phase }).flatMap Review.inserted).Perm (World.pool w) := by
  obtain ⟨rest, hbefore, hafter⟩ := Processes.perm_flatMap_set Review.inserted hreview
  have hinserted : review.inserted = work.rows := by rw [Review.inserted, hphase]
  have hrest := hafter { review with phase }
  rw [hdone, List.nil_append] at hrest
  rw [hinserted] at hbefore
  rw [List.append_assoc]
  exact ((hrest.append_left work.rows).trans hbefore.symm).append_left w.rows

theorem mem_uncommitted {w : World} {i : ℕ} {review : Review} {row : ContradictionRow}
    (hreview : w.reviews[i]? = some review) (hrow : row ∈ review.inserted) : row ∈ w.uncommitted :=
  List.mem_flatMap.mpr ⟨review, List.mem_of_getElem? hreview, hrow⟩

theorem permissionDenied_of_error {db : Database} {ctx : TenantContext} {permission : Permission}
    {failure : Failure} (h : requirePermission db ctx permission = .error failure) :
    ∃ message, failure = .domain (.permissionDenied message) := by
  unfold requirePermission at h
  simp only at h
  split at h
  · split_ifs at h
    · exact ⟨_, (Except.error.inj h).symm⟩
    · exact ⟨_, (Except.error.inj h).symm⟩
    · exact ⟨_, (Except.error.inj h).symm⟩
  · exact ⟨_, (Except.error.inj h).symm⟩

theorem selectRow_eq_some {rows : List ContradictionRow} {org id : Uuid}
    {visible : List PrivacyScope} {row : ContradictionRow}
    (h : selectRow rows org id visible = some row) :
    row ∈ rows ∧ row.organizationId = org ∧ row.id = id ∧ row.privacyScope ∈ visible := by
  have hkey := List.find?_some h
  rw [Bool.and_eq_true, Bool.and_eq_true, beq_iff_eq, beq_iff_eq, List.contains_iff_mem] at hkey
  exact ⟨List.mem_of_find?_eq_some h, hkey.1.1, hkey.1.2, hkey.2⟩

variable {db : Database} {rows : List ContradictionRow} {closer : Closer} {m : CloseMove}
  {phase : ClosePhase}

theorem informed_begin (request : Resolution) : Informed rows (beginClose request) := by
  unfold beginClose
  split_ifs with hopen
  · intro message hfailure
    cases hfailure
  · exact hopen

/-- One move of a call. -/
theorem Informed.moved (h : Informed rows closer) (hmoved : Closing db rows closer m phase) :
    Informed rows { closer with phase } := by
  obtain ⟨request, old⟩ := closer
  cases hmoved with
  | permitted role hphase hrole =>
    obtain rfl := hphase
    obtain ⟨user, membership, -, -, -, hpermission, -, rfl⟩ := requirePermission_eq_ok.mp hrole
    exact ⟨h, membership.role, hpermission, rfl⟩
  | denied failure hphase hrole =>
    obtain ⟨denial, rfl⟩ := permissionDenied_of_error hrole
    intro message hfailure
    cases hfailure
  | locked visible row hphase hrow =>
    obtain rfl := hphase
    obtain ⟨hstatus, role, hpermission, rfl⟩ := h
    obtain ⟨hmem, horg, hid, hscope⟩ := selectRow_eq_some hrow
    exact ⟨hstatus, hmem, hid, horg, role, hpermission, hscope⟩
  | unknown visible hphase =>
    intro message hfailure
    cases hfailure
  | refused row now hphase hstatus =>
    obtain rfl := hphase
    intro message hfailure
    cases hfailure
    exact ⟨row, h.2.1, h.2.2, hstatus, rfl⟩
  | unstorable row now hphase =>
    intro message hfailure
    cases hfailure
  | written row now hphase hstatus =>
    obtain rfl := hphase
    exact ⟨h.1, row, h.2.1, now, hstatus, h.2.2, rfl⟩
  | halfSeen row left entity hphase =>
    obtain rfl := hphase
    exact h
  | seen row left right entity other hphase =>
    obtain rfl := hphase
    exact ⟨h, entity, left, right, rfl⟩
  | unseen =>
    intro message hfailure
    cases hfailure
  | aborted => trivial

theorem Rewritten.mono {rows' : List ContradictionRow} {request : Resolution}
    {row : ContradictionRow} (hrows : ∀ row ∈ rows, row ∈ rows')
    (h : Rewritten rows request row) : Rewritten rows' request row := by
  obtain ⟨hstatus, old, hold, hclose⟩ := h
  exact ⟨hstatus, old, hrows old hold, hclose⟩

theorem Informed.mono {rows' : List ContradictionRow} (hrows : ∀ row ∈ rows, row ∈ rows')
    (h : Informed rows closer) : Informed rows' closer := by
  obtain ⟨request, phase⟩ := closer
  cases phase with
  | begun => exact h
  | permitted visible => exact h
  | locked row => exact ⟨h.1, hrows row h.2.1, h.2.2⟩
  | written row => exact h.mono hrows
  | halfSeen row left entity => exact Rewritten.mono hrows h
  | seen row shown => exact ⟨h.1.mono hrows, h.2⟩
  | committed row shown => exact ⟨hrows row h.1, h.2⟩
  | failed failure =>
    intro message hfailure
    obtain ⟨row, hrow, hclosed⟩ := h message hfailure
    exact ⟨row, hrows row hrow, hclosed⟩
  | aborted => trivial

theorem Rewritten.committed {request : Resolution} {row other : ContradictionRow}
    (hne : other.id ≠ row.id) (h : Rewritten rows request other) :
    Rewritten (rows.map (replaced row)) request other := by
  obtain ⟨hstatus, old, hold, now, hopen, hmeant, rfl⟩ := h
  exact ⟨hstatus, old, mem_replaced_of_ne hold hne, now, hopen, hmeant, rfl⟩

/-- The commit of another call leaves the rows that this one relies on. -/
theorem Informed.committed {row : ContradictionRow} (hlock : closer.locks ≠ some row.id)
    (hclosed : ∀ other ∈ rows, other.status ≠ .open → other.id ≠ row.id)
    (h : Informed rows closer) : Informed (rows.map (replaced row)) closer := by
  obtain ⟨request, phase⟩ := closer
  cases phase with
  | begun => exact h
  | permitted visible => exact h
  | locked other =>
    have hne : other.id ≠ row.id := fun hid => hlock (congrArg some hid)
    exact ⟨h.1, mem_replaced_of_ne h.2.1 hne, h.2.2⟩
  | written other =>
    exact Rewritten.committed (fun hid => hlock (congrArg some hid)) h
  | halfSeen other left entity =>
    exact Rewritten.committed (fun hid => hlock (congrArg some hid)) h
  | seen other shown =>
    exact ⟨h.1.committed fun hid => hlock (congrArg some hid), h.2⟩
  | committed other shown =>
    exact ⟨mem_replaced_of_ne h.1 (hclosed other h.1 h.2.1.not_open), h.2⟩
  | failed failure =>
    intro message hfailure
    obtain ⟨other, hother, hmeant, hstatus, htext⟩ := h message hfailure
    exact ⟨other, mem_replaced_of_ne hother (hclosed other hother hstatus), hmeant, hstatus, htext⟩
  | aborted => trivial

/-- A move takes no lock but that of the row that it selects, and it commits nothing. -/
theorem locks_moved (hmoved : Closing db rows closer m phase) {id : Uuid}
    (hid : Closer.locks { closer with phase } = some id) :
    closer.locks = some id ∨ m = .lock ∧ id = closer.request.contradictionId := by
  obtain ⟨request, old⟩ := closer
  cases hmoved with
  | permitted => exact absurd hid (by simp [Closer.locks])
  | denied => exact absurd hid (by simp [Closer.locks])
  | locked visible row hphase hrow =>
    obtain ⟨-, -, hrowId, -⟩ := selectRow_eq_some hrow
    exact Or.inr ⟨rfl, (Option.some.inj hid).symm.trans hrowId⟩
  | unknown => exact absurd hid (by simp [Closer.locks])
  | refused => exact absurd hid (by simp [Closer.locks])
  | unstorable => exact absurd hid (by simp [Closer.locks])
  | written row now hphase =>
    obtain rfl := hphase
    exact Or.inl hid
  | halfSeen row left entity hphase =>
    obtain rfl := hphase
    exact Or.inl hid
  | seen row left right entity other hphase =>
    obtain rfl := hphase
    exact Or.inl hid
  | unseen => exact absurd hid (by simp [Closer.locks])
  | aborted => exact absurd hid (by simp [Closer.locks])

theorem not_committed_moved (hmoved : Closing db rows closer m phase) (row : ContradictionRow)
    (shown : ContradictionView) :
    closer.phase ≠ .committed row shown ∧ phase ≠ .committed row shown := by
  cases hmoved with
  | permitted role hphase => exact ⟨by rw [hphase]; simp, by simp⟩
  | denied failure hphase => exact ⟨by rw [hphase]; simp, by simp⟩
  | locked visible other hphase => exact ⟨by rw [hphase]; simp, by simp⟩
  | unknown visible hphase => exact ⟨by rw [hphase]; simp, by simp⟩
  | refused other now hphase => exact ⟨by rw [hphase]; simp, by simp⟩
  | unstorable other now hphase => exact ⟨by rw [hphase]; simp, by simp⟩
  | written other now hphase => exact ⟨by rw [hphase]; simp, by simp⟩
  | halfSeen other left entity hphase => exact ⟨by rw [hphase]; simp, by simp⟩
  | seen row left right entity other hphase => exact ⟨by rw [hphase]; simp, by simp⟩
  | unseen hopen => exact ⟨hopen row shown, by simp⟩
  | aborted hopen => exact ⟨hopen row shown, by simp⟩

theorem newRows_cases (base : Concurrent.World) (e : Concurrent.Event) (rowId : Uuid) :
    newRows base e rowId = [] ∨ ∃ k ctx now d write c, e.action = .commit k ∧
      base.txns[k]? = some (.record ctx now d (.written write)) ∧ write.contradiction = some c ∧
        newRows base e rowId = [valueConflictRow c rowId now] := by
  unfold newRows
  split
  · rename_i k haction
    split
    · rename_i ctx now d write ht
      cases hc : write.contradiction with
      | none => exact Or.inl rfl
      | some c => exact Or.inr ⟨k, ctx, now, d, write, c, haction, ht, hc, rfl⟩
    · exact Or.inl rfl
  · exact Or.inl rfl

/-- A key that the new row does not share stays unique. -/
theorem nodup_recorders {β : Type} (key : ContradictionRow → β) {w : World} {e : Concurrent.Event}
    {rowId : Uuid} (base : Concurrent.World) (h : ((World.pool w).map key).Nodup)
    (hnew : ∀ row ∈ newRows w.base e rowId, ∀ old ∈ World.pool w, key old ≠ key row) :
    ((World.pool { w with base, rows := w.rows ++ newRows w.base e rowId }).map key).Nodup := by
  rcases newRows_cases w.base e rowId with hnone | ⟨k, ctx, now, d, write, c, -, -, -, hrow⟩
  · rw [hnone, List.append_nil]
    exact h
  · rw [hrow] at hnew ⊢
    have hperm : (World.pool { w with
        base, rows := w.rows ++ [valueConflictRow c rowId now] }).Perm
        (valueConflictRow c rowId now :: World.pool w) := by
      show (w.rows ++ [valueConflictRow c rowId now] ++ w.uncommitted).Perm _
      rw [List.append_assoc, List.singleton_append]
      exact List.perm_middle
    rw [(hperm.map key).nodup_iff, List.map_cons, List.nodup_cons]
    refine ⟨fun hmem => ?_, h⟩
    obtain ⟨old, hold, hkey⟩ := List.mem_map.mp hmem
    exact hnew _ List.mem_cons_self old hold hkey

theorem nodup_rows {w : World} (hw : Lawful w) : (w.rows.map ContradictionRow.id).Nodup :=
  hw.unique.sublist ((List.sublist_append_left _ _).map _)

/-- The open row that a call is about to replace. -/
theorem seen_old {w : World} (hw : Lawful w) {i : ℕ} {request : Resolution}
    {row : ContradictionRow} {shown : ContradictionView}
    (hcloser : w.closers[i]? = some ⟨request, .seen row shown⟩) :
    ClosedBy request row ∧ ∃ old ∈ w.rows, old.status = .open ∧ old.id = row.id ∧
      (∃ now, row = request.close old now) ∧ ∀ other ∈ w.rows, other.id = row.id → other = old := by
  obtain ⟨⟨hstatus, old, hold, now, hopen, hmeant, rfl⟩, -⟩ :=
    hw.closers _ (List.mem_of_getElem? hcloser)
  exact ⟨⟨hstatus, old, now, hopen, hmeant, rfl⟩, old, hold, hopen, rfl, ⟨now, rfl⟩,
    fun other hother hid => List.inj_on_of_nodup_map (nodup_rows hw) hother hold hid⟩

theorem lawful_closeMoved {w : World} (hw : Lawful w) {i : ℕ} {m : CloseMove} {closer : Closer}
    {phase : ClosePhase} (hcloser : w.closers[i]? = some closer)
    (hfree : w.lockFree i closer m = true) (hmoved : Closing w.base.db w.rows closer m phase) :
    Lawful { w with closers := w.closers.set i { closer with phase } } := by
  have hmem := List.mem_of_getElem? hcloser
  refine ⟨hw.unique, fun other hother => ?_, ?_, ?_, hw.pending, fun row hrow hclosed => ?_⟩
  · rcases Processes.mem_set_cases hother with rfl | ⟨j, -, hj⟩
    · exact (hw.closers closer hmem).moved hmoved
    · exact hw.closers other (List.mem_of_getElem? hj)
  · refine hw.locks.set LocksApart.symm fun j other hj hij id hid hother => ?_
    rcases locks_moved hmoved hid with hold | ⟨rfl, rfl⟩
    · exact hw.locks i j closer other hcloser hj hij id hold hother
    · have := List.all_eq_true.mp hfree other (Processes.mem_eraseIdx_of_ne hj hij)
      simp [hother] at this
  · refine hw.closes.set ClosesApart.symm fun j other hj hij row row' shown shown' hrow => ?_
    exact absurd hrow (not_committed_moved hmoved row shown).2
  · obtain ⟨request, shown, hrequest⟩ := hw.closed row hrow hclosed
    refine ⟨request, shown, Processes.mem_set_of_ne hcloser hrequest ?_⟩
    rintro rfl
    exact (not_committed_moved hmoved row shown).1 rfl

theorem lawful_closeCommitted {w : World} (hw : Lawful w) {i : ℕ} {request : Resolution}
    {row : ContradictionRow} {shown : ContradictionView}
    (hcloser : w.closers[i]? = some ⟨request, .seen row shown⟩) :
    Lawful { w with
      rows := w.rows.map (replaced row)
      closers := w.closers.set i ⟨request, .committed row shown⟩ } := by
  have hshows := (hw.closers _ (List.mem_of_getElem? hcloser)).2
  obtain ⟨hclosedBy, old, hold, hopen, hid, ⟨now, hclose⟩, honly⟩ := seen_old hw hcloser
  have hother : ∀ other ∈ w.rows, other.status ≠ .open → other.id ≠ row.id := by
    intro other hmem hstatus hsame
    rw [honly other hmem hsame] at hstatus
    exact hstatus hopen
  have hrow : row ∈ w.rows.map (replaced row) :=
    List.mem_map.mpr ⟨old, hold, if_pos hid⟩
  refine ⟨?_, fun closer hmem => ?_, ?_, ?_, hw.pending, fun other hmem hstatus => ?_⟩
  · show ((w.rows.map (replaced row) ++ w.uncommitted).map ContradictionRow.id).Nodup
    rw [List.map_append, map_replaced ContradictionRow.id fun _ _ h => h, ← List.map_append]
    exact hw.unique
  · rcases Processes.mem_set_cases hmem with rfl | ⟨j, hij, hj⟩
    · exact ⟨hrow, hclosedBy, hshows⟩
    · refine (hw.closers closer (List.mem_of_getElem? hj)).committed ?_ hother
      exact hw.locks i j _ closer hcloser hj hij row.id rfl
  · refine hw.locks.set LocksApart.symm fun j closer hj hij id hid => ?_
    exact absurd hid (by simp [Closer.locks])
  · refine hw.closes.set ClosesApart.symm
      fun j closer hj hij row₁ row₂ shown₁ shown₂ hrow₁ hrow₂ hsame => ?_
    obtain ⟨rfl, -⟩ := ClosePhase.committed.inj hrow₁
    obtain ⟨request', phase⟩ := closer
    obtain rfl : phase = .committed row₂ shown₂ := hrow₂
    obtain ⟨hmem, hclosed, -⟩ := hw.closers _ (List.mem_of_getElem? hj)
    exact hother row₂ hmem hclosed.not_open hsame.symm
  · obtain ⟨before, hbefore, rfl⟩ := List.mem_map.mp hmem
    by_cases hsame : before.id = row.id
    · rw [replaced, if_pos hsame]
      obtain ⟨hi, -⟩ := List.getElem?_eq_some_iff.mp hcloser
      exact ⟨request, shown, List.mem_iff_getElem?.mpr ⟨i, List.getElem?_set_self hi⟩⟩
    · rw [replaced, if_neg hsame] at hstatus ⊢
      obtain ⟨request', shown', hrequest⟩ := hw.closed before hbefore hstatus
      refine ⟨request', shown', Processes.mem_set_of_ne hcloser hrequest ?_⟩
      simp

/-- What was uncommitted before and after a move of a review is open. -/
theorem pending_reviewMoved {rt : Runtime} {w : World} (hw : Lawful w) {i : ℕ} {review : Review}
    {m : ReviewMove} {phase : ReviewPhase} (hreview : w.reviews[i]? = some review)
    (hmoved : Reviewing rt w.base.db w.rows review m phase) {row : ContradictionRow}
    (hrow : row ∈ World.uncommitted { w with reviews := w.reviews.set i { review with phase } }) :
    row.status = .open := by
  obtain ⟨other, hother, hinserted⟩ := List.mem_flatMap.mp hrow
  rcases Processes.mem_set_cases hother with rfl | ⟨j, -, hj⟩
  · rcases inserted_cases hmoved with hsame | hnone | ⟨work, found, id, -, -, -, -, -, hadded⟩
    · rw [hsame] at hinserted
      exact hw.pending row (mem_uncommitted hreview hinserted)
    · rw [hnone] at hinserted
      exact absurd hinserted List.not_mem_nil
    · rw [hadded] at hinserted
      rcases List.mem_append.mp hinserted with hinserted | hnew
      · exact hw.pending row (mem_uncommitted hreview hinserted)
      · rw [List.mem_singleton.mp hnew]
        rfl
  · exact hw.pending row (mem_uncommitted hj hinserted)

theorem lawful_reviewMoved {rt : Runtime} {w : World} (hw : Lawful w) {i : ℕ} {review : Review}
    {m : ReviewMove} {phase : ReviewPhase} (hreview : w.reviews[i]? = some review)
    (hready : w.insertReady i review m = true)
    (hmoved : Reviewing rt w.base.db w.rows review m phase) :
    Lawful { w with reviews := w.reviews.set i { review with phase } } := by
  refine ⟨nodup_reviewMoved _ hreview hmoved hw.unique ?_, hw.closers, hw.locks, hw.closes,
    fun row hrow => pending_reviewMoved hw hreview hmoved hrow, hw.closed⟩
  rintro work found id rfl - - old hold
  rw [World.insertReady, Bool.and_eq_true] at hready
  show old.id ≠ id
  simpa using List.all_eq_true.mp hready.1 old hold

theorem lawful_reviewCommitted {w : World} (hw : Lawful w) {i : ℕ} {review : Review}
    {work : Storing} (hreview : w.reviews[i]? = some review)
    (hphase : review.phase = .storing work) :
    Lawful { w with
      rows := w.rows ++ work.rows
      reviews := w.reviews.set i { review with phase := .done work (work.result review) } } := by
  have hopen : ∀ row ∈ work.rows, row.status = .open := by
    intro row hrow
    refine hw.pending row (mem_uncommitted hreview ?_)
    rw [Review.inserted, hphase]
    exact hrow
  refine ⟨?_, fun closer hcloser => (hw.closers closer hcloser).mono fun row hrow =>
    List.mem_append_left _ hrow, hw.locks, hw.closes, fun row hrow => ?_,
    fun row hrow hclosed => ?_⟩
  · exact ((perm_reviewCommitted _ hreview hphase rfl).map _).nodup_iff.mpr hw.unique
  · obtain ⟨other, hother, hinserted⟩ := List.mem_flatMap.mp hrow
    rcases Processes.mem_set_cases hother with rfl | ⟨j, -, hj⟩
    · exact absurd hinserted List.not_mem_nil
    · exact hw.pending row (mem_uncommitted hj hinserted)
  · rcases List.mem_append.mp hrow with hrow | hrow
    · exact hw.closed row hrow hclosed
    · exact absurd (hopen row hrow) hclosed

theorem lawful_start {w : World} (h : Start w) : Lawful w := by
  have hrows := h.rows
  have hclosers := h.closers
  have hreviews : w.uncommitted = [] := by
    rw [World.uncommitted, h.reviews]
    rfl
  refine ⟨?_, ?_, ?_, ?_, ?_, ?_⟩
  · rw [World.pool, hrows, hreviews]
    exact List.nodup_nil
  · rw [hclosers]
    exact fun closer hcloser => absurd hcloser List.not_mem_nil
  · rw [hclosers]
    exact Processes.apart_nil _
  · rw [hclosers]
    exact Processes.apart_nil _
  · rw [hreviews]
    exact fun row hrow => absurd hrow List.not_mem_nil
  · rw [hrows]
    exact fun row hrow => absurd hrow List.not_mem_nil

theorem lawful_closeBegun {w : World} (hw : Lawful w) (request : Resolution) :
    Lawful { w with closers := w.closers ++ [beginClose request] } := by
  have hfree : (beginClose request).locks = none := by
    unfold beginClose
    split_ifs <;> rfl
  have hopen : ∀ row shown, (beginClose request).phase ≠ .committed row shown := by
    intro row shown
    unfold beginClose
    split_ifs <;> simp
  refine ⟨hw.unique, fun closer hcloser => ?_, ?_, ?_, hw.pending, fun row hrow hclosed => ?_⟩
  · rcases List.mem_append.mp hcloser with hcloser | hcloser
    · exact hw.closers closer hcloser
    · rw [List.mem_singleton.mp hcloser]
      exact informed_begin request
  · refine hw.locks.append LocksApart.symm fun closer _ id hid => ?_
    rw [hfree] at hid
    exact absurd hid (by simp)
  · exact hw.closes.append ClosesApart.symm fun closer _ row row' shown shown' hrow =>
      absurd hrow (hopen row shown)
  · obtain ⟨request', shown, hrequest⟩ := hw.closed row hrow hclosed
    exact ⟨request', shown, List.mem_append_left _ hrequest⟩

theorem lawful_step {rt : Runtime} {w w' : World} {a : Action} (hw : Lawful w)
    (h : step rt w a = some w') : Lawful w' := by
  cases step_cases h with
  | recorders e rowId base hfresh hstep =>
    have hnew : ∀ row ∈ newRows w.base e rowId, row.id = rowId ∧ row.status = .open := by
      intro row hrow
      rcases newRows_cases w.base e rowId with hnone | ⟨k, ctx, now, d, write, c, -, -, -, hone⟩
      · rw [hnone] at hrow
        exact absurd hrow List.not_mem_nil
      · rw [hone] at hrow
        rw [List.mem_singleton.mp hrow]
        exact ⟨rfl, rfl⟩
    refine ⟨nodup_recorders _ base hw.unique fun row hrow old hold => ?_,
      fun closer hcloser => (hw.closers closer hcloser).mono fun row hrow =>
        List.mem_append_left _ hrow, hw.locks, hw.closes, hw.pending, fun row hrow hclosed => ?_⟩
    · rw [(hnew row hrow).1]
      exact hfresh old hold
    · rcases List.mem_append.mp hrow with hrow | hrow
      · exact hw.closed row hrow hclosed
      · exact absurd (hnew row hrow).2 hclosed
  | others users memberships =>
    exact ⟨hw.unique, hw.closers, hw.locks, hw.closes, hw.pending, hw.closed⟩
  | closeBegun request => exact lawful_closeBegun hw request
  | closeMoved i m closer phase hcloser hfree hmoved =>
    exact lawful_closeMoved hw hcloser hfree hmoved
  | closeCommitted i request row shown hcloser => exact lawful_closeCommitted hw hcloser
  | reviewBegun ctx entityType externalId =>
    have hsame : World.uncommitted { w with
        reviews := w.reviews ++ [⟨ctx, entityType, externalId, .begun⟩] } = w.uncommitted := by
      simp [World.uncommitted, Review.inserted]
    refine ⟨?_, hw.closers, hw.locks, hw.closes, ?_, hw.closed⟩
    · rw [World.pool, hsame]
      exact hw.unique
    · rw [hsame]
      exact hw.pending
  | reviewMoved i m review phase hreview hready hmoved =>
    exact lawful_reviewMoved hw hreview hready hmoved
  | reviewCommitted i review work hreview hphase htodo =>
    exact lawful_reviewCommitted hw hreview hphase

theorem lawful_reachable {rt : Runtime} {w : World} (h : (system rt).Reachable w) : Lawful w :=
  (system rt).reachable_invariant Lawful (fun _ => lawful_start)
    (fun _ _ _ hw hstep => lawful_step hw hstep) h

/-- A row later on: as it was, or closed by a call. -/
def Later (w : World) (row : ContradictionRow) : Prop :=
  row ∈ w.rows ∨ row.status = .open ∧ ∃ request now shown, request.close row now ∈ w.rows ∧
    (⟨request, .committed (request.close row now) shown⟩ : Closer) ∈ w.closers

theorem Later.append {w w' : World} {row : ContradictionRow} {more : List ContradictionRow}
    (hrows : w'.rows = w.rows ++ more) (hclosers : w'.closers = w.closers) (h : Later w row) :
    Later w' row := by
  rcases h with hrow | ⟨hopen, request, now, shown, hrow, hcloser⟩
  · left
    rw [hrows]
    exact List.mem_append_left _ hrow
  · right
    rw [hrows, hclosers]
    exact ⟨hopen, request, now, shown, List.mem_append_left _ hrow, hcloser⟩

theorem Later.closers {w : World} {row : ContradictionRow} {closers : List Closer}
    (hkept : ∀ request row shown, (⟨request, .committed row shown⟩ : Closer) ∈ w.closers →
      (⟨request, .committed row shown⟩ : Closer) ∈ closers)
    (h : Later w row) : Later { w with closers } row := by
  rcases h with hrow | ⟨hopen, request, now, shown, hrow, hcloser⟩
  · exact Or.inl hrow
  · exact Or.inr ⟨hopen, request, now, shown, hrow, hkept _ _ _ hcloser⟩

theorem Later.closeCommitted {w : World} (hw : Lawful w) {i : ℕ} {request : Resolution}
    {row row₀ : ContradictionRow} {shown : ContradictionView}
    (hcloser : w.closers[i]? = some ⟨request, .seen row shown⟩) (h : Later w row₀) :
    Later { w with
      rows := w.rows.map (replaced row)
      closers := w.closers.set i ⟨request, .committed row shown⟩ } row₀ := by
  obtain ⟨-, old, hold, hopen, hid, ⟨now, rfl⟩, honly⟩ := seen_old hw hcloser
  rcases h with hrow | ⟨hopen₀, request', now', shown', hrow, hcommitted⟩
  · by_cases hsame : row₀.id = old.id
    · obtain rfl := honly row₀ hrow hsame
      obtain ⟨hi, -⟩ := List.getElem?_eq_some_iff.mp hcloser
      exact Or.inr ⟨hopen, request, now, shown, List.mem_map.mpr ⟨row₀, hrow, if_pos rfl⟩,
        List.mem_iff_getElem?.mpr ⟨i, List.getElem?_set_self hi⟩⟩
    · exact Or.inl (mem_replaced_of_ne hrow hsame)
  · have hclosed := (hw.closers _ hcommitted).2.1.not_open
    have hne : (request'.close row₀ now').id ≠ (request.close old now).id := by
      intro hsame
      rw [honly _ hrow hsame] at hclosed
      exact hclosed hopen
    refine Or.inr ⟨hopen₀, request', now', shown', mem_replaced_of_ne hrow hne,
      Processes.mem_set_of_ne hcloser hcommitted ?_⟩
    simp

theorem later_step {rt : Runtime} {w w' : World} {a : Action} (hw : Lawful w)
    (h : step rt w a = some w') {row : ContradictionRow} (hrow : Later w row) : Later w' row := by
  cases step_cases h with
  | recorders e rowId base hfresh hstep => exact hrow.append rfl rfl
  | others users memberships => exact hrow
  | closeBegun request =>
    exact hrow.closers fun request row shown hcloser => List.mem_append_left _ hcloser
  | closeMoved i m closer phase hcloser hfree hmoved =>
    refine hrow.closers fun request other shown hcommitted =>
      Processes.mem_set_of_ne hcloser hcommitted ?_
    rintro rfl
    exact (not_committed_moved hmoved other shown).1 rfl
  | closeCommitted i request row shown hcloser => exact hrow.closeCommitted hw hcloser
  | reviewBegun ctx entityType externalId => exact hrow
  | reviewMoved i m review phase hreview hready hmoved => exact hrow
  | reviewCommitted i review work hreview hphase htodo => exact hrow.append rfl rfl

theorem later_run {rt : Runtime} {w w' : World} {trace : List Action} (hw : Lawful w)
    (hrun : (system rt).run w trace = some w') {row : ContradictionRow} (hrow : row ∈ w.rows) :
    Later w' row :=
  ((system rt).run_preserves (fun v => Lawful v ∧ Later v row)
    (fun _ _ _ hv hstep => ⟨lawful_step hv.1 hstep, later_step hv.1 hstep hv.2⟩) hrun
    ⟨hw, Or.inl hrow⟩).2

def exampleWorld : World where
  base := { Concurrent.exampleWorld with
    db := { exampleDatabase with
      sources := [⟨3, 1, "crm", .systemOfRecord, none, 50, 0⟩,
        ⟨4, 1, "billing", .systemOfRecord, none, 60, 0⟩] } }
  rows := []
  closers := []
  reviews := []

/-- Two sources disagree about the customer. -/
def exampleRecorded : List Action :=
  (Concurrent.exampleRecord 0 { exampleCommand true 0 with observedAt := some ⟨7, some 0⟩ } 10
      ⟨10, 11, 12⟩ ++
    Concurrent.exampleRecord 1 { exampleCommand false 5 with sourceId := 4 } 30
      ⟨20, 21, 22⟩).map fun e => .base e 40

theorem exampleWorld_start : Start exampleWorld :=
  ⟨⟨⟨rfl, rfl, rfl⟩, rfl, rfl, rfl⟩, rfl, rfl, rfl, rfl⟩

theorem exampleRecorded_runs :
    ((system exampleRuntime).run exampleWorld exampleRecorded).isSome = true := by
  decide +kernel

def exampleDisputed : World :=
  ((system exampleRuntime).run exampleWorld exampleRecorded).get exampleRecorded_runs

theorem exampleDisputed_reachable : (system exampleRuntime).Reachable exampleDisputed :=
  ⟨exampleWorld, exampleRecorded, exampleWorld_start, (Option.some_get _).symm⟩

end ContextLedger.ContradictionOrder
