import ContextLedger.ConflictDetection
import ContextLedger.ContradictionReviews

/-!
What the rows of contradictions say. Each is about two versions of one entity, and two
versions are in one row at most, whichever way round. A conflict of values is between a
version and the one that it supersedes, a suggestion of a model between two facts.
-/
namespace ContextLedger.ContradictionPairs

open Values Authorization FactRules Schema Facts Contradictions VersionTable TemporalEngine
open ContradictionRows
open ContradictionClaims ContradictionWorld ContradictionSteps ContradictionOrder
open ContradictionReviews

/-- What the kind of a row says of its two versions. -/
def OfKind (row : ContradictionRow) (l r : FactVersion) : Prop :=
  match row.kind with
  | .valueConflict => l.factId = r.factId ∧ r.supersedesId = some l.id ∧
      (row.preferredVersionId = some l.id ∨ row.preferredVersionId = some r.id)
  | .semantic => l.factId ≠ r.factId ∧ row.preferredVersionId = none ∧
      uuidText l.id < uuidText r.id

/-- The row is about these two versions. -/
structure Disputed (db : Database) (row : ContradictionRow) (l r : FactVersion) : Prop where
  left : l ∈ db.versions ∧ l.organizationId = row.organizationId ∧ l.id = row.leftVersionId
  right : r ∈ db.versions ∧ r.organizationId = row.organizationId ∧ r.id = row.rightVersionId
  entity : OfEntity db l row.entityId ∧ OfEntity db r row.entityId
  scope : row.privacyScope = widerScope l.privacyScope r.privacyScope
  kind : OfKind row l r

/-- A row is open as long as nobody has closed it. -/
structure Resolved (row : ContradictionRow) : Prop where
  resolvedAt : row.status = .open ↔ row.resolvedAt = none
  note : row.status = .open → row.resolutionNote = none
  user : row.status = .open ↔ row.resolvedByUserId = none

structure RowOk (db : Database) (row : ContradictionRow) : Prop where
  disputed : ∃ l r, Disputed db row l r
  resolved : Resolved row

theorem Disputed.extends {db db' : Database} (h : Extends db db') {row : ContradictionRow}
    {l r : FactVersion} (hrow : Disputed db row l r) : ∃ l' r', Disputed db' row l' r' := by
  obtain ⟨hl, hlorg, hlid⟩ := hrow.left
  obtain ⟨hr, hrorg, hrid⟩ := hrow.right
  obtain ⟨l', hl', hlsame⟩ := h.versions l hl
  obtain ⟨r', hr', hrsame⟩ := h.versions r hr
  refine ⟨l', r', ⟨hl', hlsame.organizationId.trans hlorg, hlsame.id.trans hlid⟩,
    ⟨hr', hrsame.organizationId.trans hrorg, hrsame.id.trans hrid⟩,
    ⟨hrow.entity.1.extends h hlsame, hrow.entity.2.extends h hrsame⟩, ?_, ?_⟩
  · rw [hrow.scope, hlsame.privacyScope, hrsame.privacyScope]
  · have hkind := hrow.kind
    unfold OfKind at hkind ⊢
    rw [hlsame.factId, hrsame.factId, hlsame.id, hrsame.id, hrsame.supersedesId]
    exact hkind

theorem RowOk.extends {db db' : Database} (h : Extends db db') {row : ContradictionRow}
    (hrow : RowOk db row) : RowOk db' row := by
  obtain ⟨⟨l, r, hdisputed⟩, hresolved⟩ := hrow
  exact ⟨hdisputed.extends h, hresolved⟩

/-- Closing a row changes nothing of what it is about. -/
theorem RowOk.close {db : Database} {row : ContradictionRow} (h : RowOk db row)
    {request : Resolution} (hstatus : request.status ≠ .open) (now : Instant) :
    RowOk db (request.close row now) := by
  obtain ⟨⟨l, r, hrow⟩, -⟩ := h
  refine ⟨⟨l, r, hrow.left, hrow.right, hrow.entity, hrow.scope, hrow.kind⟩, ?_, ?_, ?_⟩
  · exact iff_of_false hstatus (by simp [Resolution.close])
  · exact fun hopen => absurd hopen hstatus
  · exact iff_of_false hstatus (by simp [Resolution.close])

/-- The row of a conflict of values, once its version is committed. -/
theorem rowOk_valueConflict {db : Database} {write : VersionWrite} {c : Contradiction}
    (hclaims : Claims db c write.version) (id : Uuid) (now : Instant) :
    RowOk (write.apply db) (valueConflictRow c id now) := by
  have hext := extends_apply write db
  obtain ⟨p, hp, hleft, hright, horg, hfact, hsupersedes, hcorg, hscope, hpreferred, hentity⟩ :=
    hclaims
  obtain ⟨p', hp', hsame⟩ := hext.versions p hp
  have hnew : write.version ∈ (write.apply db).versions := by
    rw [apply_versions]
    exact List.mem_append_right _ List.mem_cons_self
  have hentity' : OfEntity (write.apply db) write.version c.entityId :=
    hentity.extends hext (SameClaim.refl _)
  have hentityLeft : OfEntity (write.apply db) p' c.entityId := by
    obtain ⟨f, hf, hforg, hfid, hfentity⟩ := hentity'
    refine ⟨f, hf, ?_, ?_, hfentity⟩
    · rw [hforg, hsame.organizationId, horg]
    · rw [hfid, hsame.factId, hfact]
  refine ⟨⟨p', write.version, ⟨hp', ?_, ?_⟩, ⟨hnew, hcorg.symm, hright.symm⟩,
    ⟨hentityLeft, hentity'⟩, ?_, ?_⟩,
    ⟨by simp [valueConflictRow], fun _ => rfl, by simp [valueConflictRow]⟩⟩
  · rw [hsame.organizationId, horg]
    exact hcorg.symm
  · rw [hsame.id]
    exact hleft.symm
  · rw [hsame.privacyScope]
    exact hscope
  · refine ⟨?_, ?_, ?_⟩
    · rw [hsame.factId, hfact]
    · rw [hsame.id, hsupersedes]
    · rw [hsame.id]
      exact hpreferred.imp (congrArg some) (congrArg some)

theorem ordered_cases (a : Accepted) (hne : a.left.version.id ≠ a.right.version.id) :
    uuidText a.ordered.1.version.id < uuidText a.ordered.2.version.id ∧
      (a.ordered = (a.left, a.right) ∨ a.ordered = (a.right, a.left)) := by
  unfold Accepted.ordered
  by_cases hlt : uuidText a.right.version.id < uuidText a.left.version.id
  · rw [if_pos hlt]
    exact ⟨hlt, Or.inr rfl⟩
  · rw [if_neg hlt]
    refine ⟨?_, Or.inl rfl⟩
    by_contra hnot
    exact hne (uuidText_injective
      (String.le_antisymm (String.not_lt.mp hlt) (String.not_lt.mp hnot)))

/-- The row of an accepted finding. -/
theorem rowOk_semantic {db : Database} (hsound : Sound db) {ctx : TenantContext}
    {visible : List PrivacyScope} {facts : List ResolvedFact} {findings : List Finding}
    (hsupply : Supply db ctx visible facts) {found : Accepted}
    (hfound : found ∈ accepted facts findings) (id : Uuid) (now : Instant) :
    RowOk db (semanticRow ctx found id now) := by
  obtain ⟨finding, -, haccept⟩ := List.mem_filterMap.mp hfound
  obtain ⟨i, j, hi, hj, -, hne⟩ := accept_eq_some.mp haccept
  obtain ⟨entityId, hentity⟩ := hsupply.entity
  have hleft := List.mem_of_getElem? hi
  have hright := List.mem_of_getElem? hj
  have hids : found.left.version.id ≠ found.right.version.id := by
    intro hsame
    obtain ⟨v, hv, -, hvid, hvfact, -⟩ := (hsupply.shown _ hleft).1
    obtain ⟨v', hv', -, hvid', hvfact', -⟩ := (hsupply.shown _ hright).1
    obtain rfl := hsound.eq_of_id hv hv' (hvid.trans (hsame.trans hvid'.symm))
    exact hne (hvfact.symm.trans hvfact')
  obtain ⟨hlt, hcases⟩ := ordered_cases found hids
  have hmem : found.ordered.1 ∈ facts ∧ found.ordered.2 ∈ facts ∧
      found.ordered.1.factId ≠ found.ordered.2.factId := by
    rcases hcases with h | h
    · rw [h]
      exact ⟨hleft, hright, hne⟩
    · rw [h]
      exact ⟨hright, hleft, hne.symm⟩
  unfold semanticRow
  generalize found.ordered = ordered at hlt hmem ⊢
  obtain ⟨first, second⟩ := ordered
  obtain ⟨hfirst, hsecond, hfacts⟩ := hmem
  obtain ⟨l, hl, hlorg, hlid, hlfact, hlscope, hlentity⟩ := (hsupply.shown _ hfirst).1
  obtain ⟨r, hr, hrorg, hrid, hrfact, hrscope, hrentity⟩ := (hsupply.shown _ hsecond).1
  rw [(hentity _ hsecond).trans (hentity _ hfirst).symm] at hrentity
  refine ⟨⟨l, r, ⟨hl, hlorg, hlid⟩, ⟨hr, hrorg, hrid⟩, ⟨hlentity, hrentity⟩, ?_, ?_⟩,
    ⟨by simp, fun _ => rfl, by simp⟩⟩
  · rw [hlscope, hrscope]
  · refine ⟨?_, rfl, ?_⟩
    · rw [hlfact, hrfact]
      exact hfacts
    · rw [hlid, hrid]
      exact hlt

/-- The contradiction that recording found, as the recorders know it. -/
def found (row : ContradictionRow) : Option Contradiction :=
  match row.kind with
  | .semantic => none
  | .valueConflict => row.preferredVersionId.map fun preferred =>
      { organizationId := row.organizationId, entityId := row.entityId,
        leftVersionId := row.leftVersionId, rightVersionId := row.rightVersionId,
        explanation := row.explanation, preferredVersionId := preferred,
        privacyScope := row.privacyScope }

structure Paired (w : World) : Prop where
  grounded : Grounded w.base
  reviewed : Reviewed w
  rows : ∀ row ∈ World.pool w, RowOk w.base.db row
  pairs : ((World.pool w).map ContradictionRow.pair).Nodup
  detected : w.rows.filterMap found = w.base.db.contradictions

/-- The recorders and the rows of their contradictions go together. -/
theorem contradictions_step {rt : Runtime} {w w' : Concurrent.World} {e : Concurrent.Event}
    (h : Concurrent.step rt w e = some w') (rowId : Uuid) :
    w'.db.contradictions = w.db.contradictions ++ (newRows w e rowId).filterMap found := by
  have hquiet (hcommit : ∀ k, e.action ≠ .commit k) : newRows w e rowId = [] := by
    unfold newRows
    split
    · rename_i k haction
      exact absurd haction (hcommit k)
    · rfl
  cases Concurrent.step_cases h with
  | recording ctx command haction =>
    rw [hquiet fun k => by rw [haction]; simp]
    simp
  | revoking ctx factId versionId reason haction =>
    rw [hquiet fun k => by rw [haction]; simp]
    simp
  | moved i m t t' haction =>
    rw [hquiet fun k => by rw [haction]; simp]
    simp
  | committed i t db haction ht hcommit =>
    unfold Concurrent.Txn.commit at hcommit
    split at hcommit
    · rename_i ctx now d write
      obtain rfl := Option.some.inj hcommit
      rw [ConflictDetection.apply_contradictions, newRows, haction]
      simp only [ht]
      cases write.contradiction <;> rfl
    · obtain rfl := Option.some.inj hcommit
      rw [newRows, haction]
      simp only [ht]
      exact (List.append_nil _).symm
    · exact absurd hcommit (by simp)
  | answered org entityId factId validAt knownAt haction =>
    rw [hquiet fun k => by rw [haction]; simp]
    simp

/-- The row of a commit is about a version that no other row knows. -/
theorem newRows_ok {rt : Runtime} {w : World} (hw : Paired w) {e : Concurrent.Event}
    {base : Concurrent.World} (h : Concurrent.step rt w.base e = some base) (rowId : Uuid) :
    ∀ row ∈ newRows w.base e rowId, RowOk base.db row ∧
      ∀ old ∈ World.pool w, old.pair ≠ row.pair := by
  intro row hrow
  rcases newRows_cases w.base e rowId with hnone | ⟨k, ctx, now, d, write, c, haction, ht, hc, hone⟩
  · rw [hnone] at hrow
    exact absurd hrow List.not_mem_nil
  · rw [hone] at hrow
    obtain rfl := List.mem_singleton.mp hrow
    have hmem := List.mem_of_getElem? ht
    have hclaims := (hw.grounded.situated _ hmem).2 c hc
    have happ : VersionTable.Appends w.base.db write := hw.grounded.consistent.established _ hmem
    have hdb : base.db = write.apply w.base.db := by
      simp only [Concurrent.step, haction, ht] at h
      obtain ⟨db, hcommit, rfl⟩ := Option.map_eq_some_iff.mp h
      exact (Option.some.inj hcommit).symm
    refine ⟨hdb ▸ rowOk_valueConflict hclaims rowId now, fun old hold hpair => ?_⟩
    obtain ⟨l, r, hdisputed⟩ := (hw.rows old hold).disputed
    obtain ⟨hr, -, hrid⟩ := hdisputed.right
    obtain ⟨p, -, -, hright, -⟩ := hclaims
    refine happ.fresh r hr ?_
    rw [hrid, ← hright]
    exact congrArg (fun pair => pair.2.2) hpair

theorem paired_start {w : World} (h : Start w) : Paired w := by
  have hpool : World.pool w = [] := by
    rw [World.pool, World.uncommitted, h.rows, h.reviews]
    rfl
  refine ⟨grounded_start h.base, reviewed_start h, ?_, ?_, ?_⟩
  · rw [hpool]
    exact fun row hrow => absurd hrow List.not_mem_nil
  · rw [hpool]
    exact List.nodup_nil
  · rw [h.rows, h.contradictions]
    rfl

theorem found_close {request : Resolution} {row : ContradictionRow} {now : Instant} :
    found (request.close row now) = found row := rfl

theorem paired_closeCommitted {w : World} (hw : Paired w) {i : ℕ} {request : Resolution}
    {row : ContradictionRow} {shown : ContradictionView}
    (hcloser : w.closers[i]? = some ⟨request, .seen row shown⟩)
    (hreviewed : Reviewed { w with
      rows := w.rows.map (replaced row)
      closers := w.closers.set i ⟨request, .committed row shown⟩ }) :
    Paired { w with
      rows := w.rows.map (replaced row)
      closers := w.closers.set i ⟨request, .committed row shown⟩ } := by
  obtain ⟨hclosedBy, old, hold, -, hid, ⟨now, rfl⟩, honly⟩ :=
    seen_old hw.reviewed.lawful hcloser
  refine ⟨hw.grounded, hreviewed, fun other hother => ?_, ?_, ?_⟩
  · rcases List.mem_append.mp hother with hother | hother
    · obtain ⟨before, hbefore, rfl⟩ := List.mem_map.mp hother
      unfold replaced
      split_ifs
      · exact (hw.rows old (List.mem_append_left _ hold)).close hclosedBy.status now
      · exact hw.rows before (List.mem_append_left _ hbefore)
    · exact hw.rows other (List.mem_append_right _ hother)
  · show ((w.rows.map (replaced _) ++ w.uncommitted).map ContradictionRow.pair).Nodup
    rw [List.map_append, map_replaced, ← List.map_append]
    · exact hw.pairs
    · intro other hother hsame
      rw [honly other hother hsame]
      rfl
  · show (w.rows.map (replaced _)).filterMap found = w.base.db.contradictions
    rw [← hw.detected, List.filterMap_map]
    refine List.filterMap_congr fun other hother => ?_
    by_cases hsame : other.id = (request.close old now).id
    · rw [Function.comp_apply, replaced, if_pos hsame, honly other hother hsame, found_close]
    · rw [Function.comp_apply, replaced, if_neg hsame]

/-- A row that a review inserts is well formed and about two other versions: its own rows have
not the pair that it has just looked for, and the rows of others are waited for. -/
theorem paired_reviewMoved {rt : Runtime} {w : World} (hw : Paired w) {i : ℕ} {review : Review}
    {m : ReviewMove} {phase : ReviewPhase} (hreview : w.reviews[i]? = some review)
    (hready : w.insertReady i review m = true)
    (hmoved : Reviewing rt w.base.db w.rows review m phase)
    (hreviewed : Reviewed { w with reviews := w.reviews.set i { review with phase } }) :
    Paired { w with reviews := w.reviews.set i { review with phase } } := by
  have hok := hw.reviewed.reviews review (List.mem_of_getElem? hreview)
  have hpool : ∀ row ∈ w.uncommitted, RowOk w.base.db row :=
    fun row hrow => hw.rows row (List.mem_append_right _ hrow)
  refine ⟨hw.grounded, hreviewed, fun row hrow => ?_,
    nodup_reviewMoved _ hreview hmoved hw.pairs ?_,
    hw.detected⟩
  · rcases List.mem_append.mp hrow with hrow | hrow
    · exact hw.rows row (List.mem_append_left _ hrow)
    · obtain ⟨other, hother, hinserted⟩ := List.mem_flatMap.mp hrow
      rcases Processes.mem_set_cases hother with rfl | ⟨j, -, hj⟩
      · rcases inserted_cases hmoved with hsame | hnone |
          ⟨work, a, id, -, -, hphase, -, -, hadded⟩
        · rw [hsame] at hinserted
          exact hpool row (mem_uncommitted hreview hinserted)
        · rw [hnone] at hinserted
          exact absurd hinserted List.not_mem_nil
        · rw [hadded] at hinserted
          rcases List.mem_append.mp hinserted with hinserted | hnew
          · exact hpool row (mem_uncommitted hreview hinserted)
          · obtain ⟨ctx, entityType, externalId, old⟩ := review
            obtain rfl : old = .missed work a := hphase
            obtain ⟨hsupply, htallied, -⟩ := hok
            obtain ⟨finished, haccepted, -, -⟩ := htallied.finished
            have ha : a ∈ accepted work.facts work.findings := by
              rw [haccepted]
              exact List.mem_append_right _ List.mem_cons_self
            rw [List.mem_singleton.mp hnew]
            exact rowOk_semantic hw.grounded.consistent.sound hsupply ha id work.now
      · exact hpool row (mem_uncommitted hj hinserted)
  · rintro work a id rfl hphase hfree old hold
    rcases List.mem_append.mp hold with hold | hold
    · exact hfree old hold
    · rw [pair_semanticRow]
      obtain ⟨other, hother, hinserted⟩ := List.mem_flatMap.mp hold
      obtain ⟨j, hj⟩ := List.mem_iff_getElem?.mp hother
      by_cases hij : i = j
      · obtain rfl : review = other := Option.some.inj (hreview.symm.trans (hij ▸ hj))
        obtain ⟨ctx, entityType, externalId, before⟩ := review
        obtain rfl : before = .missed work a := hphase
        exact hok.2.2 old hinserted
      · rw [World.insertReady, Bool.and_eq_true, hphase] at hready
        have hothers := List.all_eq_true.mp hready.2 other (Processes.mem_eraseIdx_of_ne hj hij)
        simpa using List.all_eq_true.mp hothers old hinserted

theorem filterMap_found_semantic {ctx : TenantContext} {work : Storing}
    {rows : List ContradictionRow}
    {todo : List Accepted} (h : Tallied rows ctx work todo) : work.rows.filterMap found = [] := by
  rw [List.filterMap_eq_nil_iff]
  intro row hrow
  obtain ⟨a, -, id, rfl⟩ := h.stored row hrow
  rfl

theorem paired_step {rt : Runtime} {w w' : World} {a : Action} (hw : Paired w)
    (h : step rt w a = some w') : Paired w' := by
  have hreviewed := reviewed_step hw.reviewed h
  cases step_cases h with
  | recorders e rowId base hfresh hstep =>
    have hnew := newRows_ok hw hstep rowId
    refine ⟨grounded_step hw.grounded hstep, hreviewed, fun row hrow => ?_,
      nodup_recorders _ base hw.pairs fun row hrow => (hnew row hrow).2, ?_⟩
    · have hold : ∀ row ∈ World.pool w, RowOk base.db row :=
        fun row hrow => (hw.rows row hrow).extends (extends_step hstep)
      rcases List.mem_append.mp hrow with hrow | hrow
      · rcases List.mem_append.mp hrow with hrow | hrow
        · exact hold row (List.mem_append_left _ hrow)
        · exact (hnew row hrow).1
      · exact hold row (List.mem_append_right _ hrow)
    · rw [contradictions_step hstep rowId, List.filterMap_append, hw.detected]
  | others users memberships =>
    have hext : Extends w.base.db { w.base.db with users, memberships } :=
      ⟨fun v hv => ⟨v, hv, SameClaim.refl v⟩, fun _ h => h, fun _ h => h, fun _ h => h⟩
    exact ⟨grounded_others hw.grounded users memberships, hreviewed,
      fun row hrow => (hw.rows row hrow).extends hext, hw.pairs, hw.detected⟩
  | closeBegun request => exact ⟨hw.grounded, hreviewed, hw.rows, hw.pairs, hw.detected⟩
  | closeMoved i m closer phase hcloser hfree hmoved =>
    exact ⟨hw.grounded, hreviewed, hw.rows, hw.pairs, hw.detected⟩
  | closeCommitted i request row shown hcloser => exact paired_closeCommitted hw hcloser hreviewed
  | reviewBegun ctx entityType externalId =>
    have hsame : World.pool { w with
        reviews := w.reviews ++ [⟨ctx, entityType, externalId, .begun⟩] } = World.pool w := by
      simp [World.pool, World.uncommitted, Review.inserted]
    refine ⟨hw.grounded, hreviewed, ?_, ?_, hw.detected⟩
    · rw [hsame]
      exact hw.rows
    · rw [hsame]
      exact hw.pairs
  | reviewMoved i m review phase hreview hready hmoved =>
    exact paired_reviewMoved hw hreview hready hmoved hreviewed
  | reviewCommitted i review work hreview hphase htodo =>
    have hperm := perm_reviewCommitted (.done work (work.result review)) hreview hphase rfl
    refine ⟨hw.grounded, hreviewed, fun row hrow => hw.rows row (hperm.mem_iff.mp hrow),
      (hperm.map _).nodup_iff.mpr hw.pairs, ?_⟩
    have hok := hw.reviewed.reviews review (List.mem_of_getElem? hreview)
    obtain ⟨ctx, entityType, externalId, old⟩ := review
    obtain rfl : old = .storing work := hphase
    rw [List.filterMap_append, hw.detected, filterMap_found_semantic hok.2, List.append_nil]

theorem paired_reachable {rt : Runtime} {w : World} (h : (system rt).Reachable w) : Paired w :=
  (system rt).reachable_invariant Paired (fun _ => paired_start)
    (fun _ _ _ hw hstep => paired_step hw hstep) h

theorem contradictions_disputed {rt : Runtime} {w : World} (h : (system rt).Reachable w) :
    ∀ row ∈ w.rows, ∃ l r, Disputed w.base.db row l r :=
  fun row hrow => ((paired_reachable h).rows row (List.mem_append_left _ hrow)).disputed

/-- What the rows say in every state. -/
structure WellFormed (w : World) : Prop where
  disputed : ∀ row ∈ w.rows, ∃ l r, Disputed w.base.db row l r
  resolved : ∀ row ∈ w.rows, Resolved row
  distinct : ∀ row ∈ w.rows, row.leftVersionId ≠ row.rightVersionId
  once : ∀ row ∈ w.rows, ∀ row' ∈ w.rows, row.organizationId = row'.organizationId →
    (row.leftVersionId = row'.leftVersionId ∧ row.rightVersionId = row'.rightVersionId ∨
      row.leftVersionId = row'.rightVersionId ∧ row.rightVersionId = row'.leftVersionId) →
        row = row'
  found : w.rows.filterMap found = w.base.db.contradictions

/-- No two versions are in the kinds of two rows the other way round. -/
theorem not_swapped {db : Database} (hsound : Sound db) {row row' : ContradictionRow}
    {l r : FactVersion} (hl : l ∈ db.versions) (hr : r ∈ db.versions) (h : OfKind row l r)
    (h' : OfKind row' r l) : False := by
  unfold OfKind at h h'
  cases hkind : row.kind with
  | valueConflict =>
    rw [hkind] at h
    obtain ⟨hfact, hsupersedes, -⟩ := h
    obtain ⟨u, hu, hid, -, hnumber⟩ := hsound.superseded_mem hr hsupersedes
    obtain rfl := hsound.eq_of_id hu hl hid
    cases hkind' : row'.kind with
    | valueConflict =>
      rw [hkind'] at h'
      obtain ⟨x, hx, hxid, -, hxnumber⟩ := hsound.superseded_mem hl h'.2.1
      obtain rfl := hsound.eq_of_id hx hr hxid
      omega
    | semantic =>
      rw [hkind'] at h'
      exact h'.1 hfact.symm
  | semantic =>
    rw [hkind] at h
    cases hkind' : row'.kind with
    | valueConflict =>
      rw [hkind'] at h'
      exact h.1 h'.1.symm
    | semantic =>
      rw [hkind'] at h'
      exact String.lt_irrefl _ (String.lt_trans h.2.2 h'.2.2)

theorem distinct_of_disputed {db : Database} (hsound : Sound db) {row : ContradictionRow}
    {l r : FactVersion} (h : Disputed db row l r) : row.leftVersionId ≠ row.rightVersionId := by
  obtain ⟨hl, -, hlid⟩ := h.left
  obtain ⟨hr, -, hrid⟩ := h.right
  intro hsame
  obtain rfl := hsound.eq_of_id hl hr (hlid.trans (hsame.trans hrid.symm))
  exact not_swapped hsound hl hl h.kind h.kind

/-- In every reachable state each row is about two different versions of one entity, with the
scope of the more sensitive one; two versions are in at most one row; and the conflicts of
values are the contradictions that the recorders found. -/
theorem contradictions_well_formed {rt : Runtime} {w : World} (hw : (system rt).Reachable w) :
    WellFormed w := by
  have hpaired := paired_reachable hw
  have hsound := hpaired.grounded.consistent.sound
  have hrows : ∀ row ∈ w.rows, RowOk w.base.db row :=
    fun row hrow => hpaired.rows row (List.mem_append_left _ hrow)
  have hpairs : (w.rows.map ContradictionRow.pair).Nodup :=
    hpaired.pairs.sublist ((List.sublist_append_left _ _).map _)
  refine ⟨fun row hrow => (hrows row hrow).disputed, fun row hrow => (hrows row hrow).resolved,
    fun row hrow => ?_, fun row hrow row' hrow' horg hsame => ?_, hpaired.detected⟩
  · obtain ⟨l, r, h⟩ := (hrows row hrow).disputed
    exact distinct_of_disputed hsound h
  · rcases hsame with ⟨hleft, hright⟩ | ⟨hleft, hright⟩
    · refine List.inj_on_of_nodup_map hpairs hrow hrow' ?_
      unfold ContradictionRow.pair
      rw [horg, hleft, hright]
    · obtain ⟨l, r, h⟩ := (hrows row hrow).disputed
      obtain ⟨l', r', h'⟩ := (hrows row' hrow').disputed
      obtain rfl := hsound.eq_of_id h.left.1 h'.right.1
        (h.left.2.2.trans (hleft.trans h'.right.2.2.symm))
      obtain rfl := hsound.eq_of_id h.right.1 h'.left.1
        (h.right.2.2.trans (hright.trans h'.left.2.2.symm))
      exact (not_swapped hsound h.left.1 h.right.1 h.kind h'.kind).elim

theorem contradictions_well_formed_example :
    (exampleDisputed.rows.map fun row => (row.leftVersionId, row.rightVersionId)) = [(12, 22)] ∧
      WellFormed exampleDisputed :=
  ⟨by decide +kernel, contradictions_well_formed exampleDisputed_reachable⟩

end ContextLedger.ContradictionPairs
