import ContextLedger.Isolation
import ContextLedger.JsonEquality
import Mathlib.Data.Prod.Lex

/-!
The contradictions that recording finds. The rule looks at the new version and
the one it supersedes while the fact is locked, so in every reachable state the
row a transaction has written speaks about the latest committed version. The
rule checks that the observation lies before the old window's end and not before
the new window's start; the other two bounds are left to the supersession rules,
which give the old start but not the new end.
-/
namespace ContextLedger.ConflictDetection

open Values Validation Authorization FactRules Schema Facts Bitemporal VersionChain VersionTable
open Recording Revocations JsonText Jsonb Contradictions JsonEquality Concurrent Isolation

/-- The window of a request starts where its timestamp says. -/
def Drafted (d : Draft) : Prop :=
  d.window.validFrom = d.validFrom.wall - d.validFrom.utcoffset.getD 0

/-- What the rows of a write were made from. -/
structure Detected (db : Database) (ctx : TenantContext) (d : Draft) (write : VersionWrite) :
    Prop where
  stored : store d.value.1 = some write.version.value
  starts : write.version.validFrom = d.window.validFrom
  contradiction : ∃ entityId, write.contradiction =
    (latestVersion db write.version.organizationId write.version.factId).bind fun v =>
      detectValueConflict ctx entityId v d write.version

def Traced (db : Database) : Txn → Prop
  | .record ctx _ d phase => Drafted d ∧
    match phase with
    | .written write => Detected db ctx d write
    | _ => True
  | _ => True

theorem drafted_of_draft {rt : Runtime} {command : RecordFactVersion} {d : Draft}
    (h : draft rt command = .ok d) : Drafted d := by
  unfold draft at h
  obtain ⟨entityType, -, h⟩ := bind_eq_ok.mp h
  obtain ⟨externalId, -, h⟩ := bind_eq_ok.mp h
  obtain ⟨property, -, h⟩ := bind_eq_ok.mp h
  obtain ⟨value, -, h⟩ := bind_eq_ok.mp h
  obtain ⟨window, hwindow, h⟩ := bind_eq_ok.mp h
  obtain ⟨observedAt, -, h⟩ := bind_eq_ok.mp h
  obtain ⟨confidence, -, h⟩ := bind_eq_ok.mp h
  obtain rfl := Except.ok.inj h
  unfold ValidityWindow.ofRequest at hwindow
  obtain ⟨start, hstart, hwindow⟩ := bind_eq_ok.mp hwindow
  obtain ⟨finish, -, hwindow⟩ := bind_eq_ok.mp hwindow
  have hfrom : window.validFrom = start := by
    unfold ValidityWindow.create at hwindow
    split at hwindow
    · rw [← Except.ok.inj hwindow]
    · exact absurd hwindow (by simp [validationFailed])
  show window.validFrom = _
  rw [hfrom]
  unfold requireAware at hstart
  cases hoffset : command.validFrom.utcoffset with
  | none =>
    rw [hoffset] at hstart
    exact absurd hstart (by simp [validationFailed])
  | some offset =>
    rw [hoffset] at hstart
    exact (Except.ok.inj hstart).symm

theorem detected_of_written {db : Database} {ctx : TenantContext} {d : Draft} {place : Place}
    {latest : Option FactVersion} {plan : VersionPlan} {recordedAt now : Instant} {id : Uuid}
    {write : VersionWrite} (hlatest : latestVersion db ctx.organizationId place.fact.id = latest)
    (h : writeVersion db ctx d place latest plan recordedAt now id = .ok write) :
    Detected db ctx d write := by
  unfold writeVersion at h
  split at h
  · exact absurd h (by simp)
  · rename_i value hvalue
    simp only at h
    split at h
    · exact absurd h (by simp)
    · obtain ⟨links, -, rfl⟩ := map_eq_ok.mp h
      refine ⟨hvalue, rfl, place.entity.id, ?_⟩
      show _ = (latestVersion db ctx.organizationId place.fact.id).bind _
      rw [hlatest]

theorem traced_orRollBack {α : Type} {db : Database} {x : Result α} {next : α → Txn}
    (h : ∀ a, x = .ok a → Traced db (next a)) : Traced db (orRollBack x next) := by
  cases x with
  | ok a => exact h a rfl
  | error failure => trivial

/-- One step of a transaction keeps it traced. -/
theorem traced_stepTxn {db : Database} {clock : Instant} {t t' : Txn} {m : Move}
    (hest : Established db t) (ht : Traced db t) (h : stepTxn db clock t m = some t') :
    Traced db t' := by
  unfold stepTxn at h
  split at h
  · obtain rfl := Option.some.inj h
    exact traced_orRollBack fun place _ => ⟨ht.1, trivial⟩
  · obtain rfl := Option.some.inj h
    exact ⟨ht.1, trivial⟩
  · obtain rfl := Option.some.inj h
    exact traced_orRollBack fun plan _ => ⟨ht.1, trivial⟩
  · obtain rfl := Option.some.inj h
    exact ⟨ht.1, trivial⟩
  · obtain rfl := Option.some.inj h
    exact traced_orRollBack fun write hwrite => ⟨ht.1, detected_of_written hest.2.1 hwrite⟩
  · obtain rfl := Option.some.inj h
    exact traced_orRollBack fun _ _ => trivial
  · obtain rfl := Option.some.inj h
    trivial
  · obtain rfl := Option.some.inj h
    exact traced_orRollBack fun _ _ => trivial
  · obtain rfl := Option.some.inj h
    trivial
  · obtain rfl := Option.some.inj h
    trivial
  · exact absurd h (by simp)

/-- Another commit leaves the latest version of a locked fact. -/
theorem traced_of_latest {db db' : Database} {t : Txn} (ht : Traced db t)
    (hlatest : ∀ org factId, t.lockedFact = some factId →
      latestVersion db' org factId = latestVersion db org factId) : Traced db' t := by
  cases t with
  | record ctx now d phase =>
    cases phase with
    | written write =>
      refine ⟨ht.1, ht.2.stored, ht.2.starts, ?_⟩
      rw [hlatest _ _ rfl]
      exact ht.2.contradiction
    | begun => exact ht
    | located place => exact ht
    | locked place => exact ht
    | planned place latest plan => exact ht
    | stamped place latest plan recordedAt => exact ht
  | revoke ctx now request phase => trivial
  | committed => trivial
  | rolledBack failure => trivial

theorem traced_commit {w : World} (hw : Consistent w) (htraced : ∀ t ∈ w.txns, Traced w.db t)
    {i : ℕ} {t : Txn} {db : Database} (ht : w.txns[i]? = some t)
    (hcommit : t.commit w.db = some db) : ∀ u ∈ w.txns.set i .committed, Traced db u := by
  intro u hu
  obtain ⟨j, hj⟩ := List.mem_iff_getElem?.mp hu
  rw [List.getElem?_set] at hj
  by_cases hij : i = j
  · rw [if_pos hij] at hj
    split at hj
    · obtain rfl := Option.some.inj hj
      trivial
    · exact absurd hj (by simp)
  · rw [if_neg hij] at hj
    have hmem := List.mem_of_getElem? hj
    refine traced_of_latest (htraced u hmem) fun org factId hlock => ?_
    have hapart := hw.apart i j t u ht hj hij
    have hest := hw.established t (List.mem_of_getElem? ht)
    unfold Txn.commit at hcommit
    split at hcommit
    · obtain rfl := Option.some.inj hcommit
      refine latestVersion_apply hw.sound hest org ?_
      rintro rfl
      exact hapart.locks _ rfl hlock
    · obtain rfl := Option.some.inj hcommit
      rfl
    · exact absurd hcommit (by simp)

theorem traced_step {rt : Runtime} {w w' : World} {e : Event} (hw : Consistent w)
    (htraced : ∀ t ∈ w.txns, Traced w.db t) (h : step rt w e = some w') :
    ∀ t ∈ w'.txns, Traced w'.db t := by
  have happend {t' : Txn} (ht' : Traced w.db t') : ∀ t ∈ w.txns ++ [t'], Traced w.db t := by
    intro t ht
    rcases List.mem_append.mp ht with ht | ht
    · exact htraced t ht
    · exact List.mem_singleton.mp ht ▸ ht'
  cases step_cases h with
  | recording ctx command haction =>
    have hdrafted : ∀ d, draft rt command = .ok d → Drafted d := fun d => drafted_of_draft
    generalize draft rt command = result at hdrafted ⊢
    exact happend (traced_orRollBack fun d hd => ⟨hdrafted d hd, trivial⟩)
  | revoking ctx factId versionId reason haction =>
    generalize revokeRequest factId versionId reason = result
    exact happend (traced_orRollBack fun _ _ => trivial)
  | moved i m t t' haction ht hready hstep =>
    intro u hu
    have hmem := List.mem_of_getElem? ht
    rcases (List.mem_or_eq_of_mem_set hu).symm with rfl | hu
    · exact traced_stepTxn (hw.established t hmem) (htraced t hmem) hstep
    · exact htraced u hu
  | committed i t db haction ht hcommit => exact traced_commit hw htraced ht hcommit
  | answered org entityId factId validAt knownAt haction hle => exact htraced

theorem reachable_traced {rt : Runtime} {w : World} (h : (system rt).Reachable w) :
    Consistent w ∧ ∀ t ∈ w.txns, Traced w.db t :=
  (system rt).reachable_invariant (fun w => Consistent w ∧ ∀ t ∈ w.txns, Traced w.db t)
    (fun _ hs => ⟨Start.consistent hs, by simp [hs.txns]⟩)
    (fun _ _ _ hw hstep => ⟨consistent_step hw.1 hstep, traced_step hw.1 hw.2 hstep⟩) h

/-- Two sources have different values for the instant that the first observed. -/
structure Disagree (p n : FactVersion) : Prop where
  sources : p.sourceId ≠ n.sourceId
  values : jsonEq (load p.value) (load n.value) = false
  claimed : (span p).Contains p.observedAt
  covered : (span n).Contains p.observedAt

/-- The interpreter takes two values for equal that are stored as different ones. -/
structure Overlooks (p : FactVersion) (sent : Json) (n : FactVersion) : Prop where
  sources : p.sourceId ≠ n.sourceId
  compared : valueEq (load p.value) sent = true
  confusion : confused (load p.value) sent = true
  claimed : (span p).Contains p.observedAt
  covered : (span n).Contains p.observedAt

/-- Authority, then confidence, then the time of the observation. -/
def standing (v : FactVersion) : ℤ ×ₗ ℤ ×ₗ ℤ :=
  toLex (v.authority, toLex (v.confidence, v.observedAt))

/-- The row speaks about the two versions, with the more sensitive scope and the preference. -/
structure Describes (c : Contradiction) (p n : FactVersion) : Prop where
  left : c.leftVersionId = p.id
  right : c.rightVersionId = n.id
  scope : c.privacyScope = p.privacyScope ∨ c.privacyScope = n.privacyScope
  sensitive : privacyRank p.privacyScope ≤ privacyRank c.privacyScope ∧
    privacyRank n.privacyScope ≤ privacyRank c.privacyScope
  either : c.preferredVersionId = p.id ∨ c.preferredVersionId = n.id
  earlier : standing n < standing p → c.preferredVersionId = p.id
  later : standing p < standing n → c.preferredVersionId = n.id

theorem valueConflict_isSome (previous new : VersionFacts) :
    (valueConflict previous new).isSome = true ↔
      previous.sourceId ≠ new.sourceId ∧ valueEq previous.value new.value = false ∧
        (∀ u, previous.validUntil = some u → previous.observedAt < u) ∧
        new.start ≤ previous.observedAt := by
  unfold valueConflict
  by_cases hsame : previous.sourceId = new.sourceId ∨ valueEq previous.value new.value = true
  · rw [if_pos hsame]
    rcases hsame with hsame | hsame
    · simp [hsame]
    · simp [hsame]
  · rw [if_neg hsame]
    rw [not_or, Bool.not_eq_true] at hsame
    by_cases hended : (previous.validUntil.any fun u => decide (u ≤ previous.observedAt)) = true
    · rw [if_pos hended]
      obtain ⟨u, hu, hle⟩ := (Option.any_eq_true _ _).mp hended
      refine iff_of_false (by simp) fun h => ?_
      exact absurd (h.2.2.1 u hu) (not_lt.mpr (of_decide_eq_true hle))
    · rw [if_neg hended]
      have hwithin : ∀ u, previous.validUntil = some u → previous.observedAt < u := by
        intro u hu
        by_contra hle
        exact hended ((Option.any_eq_true _ _).mpr ⟨u, hu, decide_eq_true (not_lt.mp hle)⟩)
      by_cases hlate : previous.observedAt < new.start
      · rw [if_pos hlate]
        exact iff_of_false (by simp) fun h => absurd h.2.2.2 (not_le.mpr hlate)
      · rw [if_neg hlate]
        exact iff_of_true rfl ⟨hsame.1, hsame.2, hwithin, not_lt.mp hlate⟩

theorem standing_lt_iff (p n : FactVersion) : standing p < standing n ↔
    p.authority < n.authority ∨ (p.authority = n.authority ∧ (p.confidence < n.confidence ∨
      (p.confidence = n.confidence ∧ p.observedAt < n.observedAt))) := by
  simp only [standing, Prod.Lex.toLex_lt_toLex]

theorem describes_of_detect {ctx : TenantContext} {entityId : Uuid} {p n : FactVersion} {d : Draft}
    {c : Contradiction} (h : detectValueConflict ctx entityId p d n = some c) : Describes c p n := by
  obtain ⟨reason, -, rfl⟩ := Option.map_eq_some_iff.mp h
  have hpreferred : preferred (ruleView p)
      { ruleView n with value := d.value.1, validFrom := d.validFrom } =
        if standing p < standing n then n.id else p.id := by
    simp only [standing_lt_iff]
    rfl
  have hscope : (privacyRank p.privacyScope < privacyRank n.privacyScope ∧
        widerScope p.privacyScope n.privacyScope = n.privacyScope) ∨
      (privacyRank n.privacyScope ≤ privacyRank p.privacyScope ∧
        widerScope p.privacyScope n.privacyScope = p.privacyScope) := by
    unfold widerScope
    by_cases hlt : privacyRank p.privacyScope < privacyRank n.privacyScope
    · exact Or.inl ⟨hlt, if_pos hlt⟩
    · exact Or.inr ⟨not_lt.mp hlt, if_neg hlt⟩
  refine ⟨rfl, rfl, ?_, ?_, ?_, fun hlt => ?_, fun hlt => ?_⟩
  · rcases hscope with ⟨-, hscope⟩ | ⟨-, hscope⟩
    · exact Or.inr hscope
    · exact Or.inl hscope
  · show privacyRank p.privacyScope ≤ privacyRank (widerScope p.privacyScope n.privacyScope) ∧
      privacyRank n.privacyScope ≤ privacyRank (widerScope p.privacyScope n.privacyScope)
    rcases hscope with ⟨hle, hscope⟩ | ⟨hle, hscope⟩
    · rw [hscope]
      exact ⟨le_of_lt hle, le_refl _⟩
    · rw [hscope]
      exact ⟨le_refl _, hle⟩
  · show preferred _ _ = _ ∨ preferred _ _ = _
    rw [hpreferred]
    by_cases hlt : standing p < standing n
    · rw [if_pos hlt]
      exact Or.inr rfl
    · rw [if_neg hlt]
      exact Or.inl rfl
  · show preferred _ _ = _
    rw [hpreferred, if_neg (not_lt_of_gt hlt)]
  · show preferred _ _ = _
    rw [hpreferred, if_pos hlt]

theorem apply_contradictions (write : VersionWrite) (db : Database) :
    (write.apply db).contradictions = db.contradictions ++ write.contradiction.toList := by
  show (write.withClose (write.withPlace db)).contradictions ++ _ = _
  unfold VersionWrite.withClose VersionWrite.withPlace
  cases write.entity <;> cases write.fact <;> cases write.closing <;> rfl

section Written

variable {rt : Runtime} {w : World} (h : (system rt).Reachable w) {ctx : TenantContext}
  {now : Instant} {d : Draft} {write : VersionWrite}
  (ht : Txn.record ctx now d (.written write) ∈ w.txns) {p : FactVersion} (hp : p ∈ w.db.versions)
  (hsupersedes : write.version.supersedesId = some p.id)

include h ht hp hsupersedes

/-- The version that a write supersedes is the latest one of its fact. -/
theorem latest_of_supersedes :
    latestVersion w.db write.version.organizationId write.version.factId = some p ∧
      AppendsTo p write := by
  have hw := (reachable_traced h).1
  have happ : Appends w.db write := hw.established _ ht
  cases hlatest : latestVersion w.db write.version.organizationId write.version.factId with
  | none =>
    rw [(happ.begins hlatest).supersedes] at hsupersedes
    exact absurd hsupersedes (by simp)
  | some v =>
    have hid := (happ.continues v hlatest).supersedes
    rw [hsupersedes] at hid
    have hv := (mem_versionsOf.mp (Sound.latest_mem hlatest)).1
    obtain rfl := hw.sound.eq_of_id hp hv (Option.some.inj hid)
    exact ⟨rfl, happ.continues p hlatest⟩

/-- What the rule makes of a write and the version it supersedes. -/
theorem contradiction_of_write : ∃ entityId,
    write.contradiction = detectValueConflict ctx entityId p d write.version ∧
      (write.contradiction.isSome = true ↔ p.sourceId ≠ write.version.sourceId ∧
        valueEq (load p.value) d.value.1 = false ∧ p.validUntil = none ∧
        write.version.validFrom ≤ p.observedAt) := by
  obtain ⟨hdrafted, hdetected⟩ := (reachable_traced h).2 _ ht
  obtain ⟨hlatest, happ⟩ := latest_of_supersedes h ht hp hsupersedes
  obtain ⟨entityId, hcontradiction⟩ := hdetected.contradiction
  rw [hlatest, Option.bind_some] at hcontradiction
  refine ⟨entityId, hcontradiction, ?_⟩
  rw [hcontradiction, detectValueConflict, Option.isSome_map, valueConflict_isSome]
  have hstart : VersionFacts.start
      { ruleView write.version with value := d.value.1, validFrom := d.validFrom } =
        write.version.validFrom := by
    rw [hdetected.starts, hdrafted]
    rfl
  rw [hstart]
  refine and_congr_right fun _ => and_congr_right fun _ => ?_
  constructor
  · rintro ⟨hwithin, hcovers⟩
    refine ⟨?_, hcovers⟩
    rcases happ.closing with ⟨hopen, -⟩ | ⟨u, hu, hle, -⟩
    · exact hopen
    · exact absurd (lt_of_lt_of_le (hwithin u hu) hle) (not_lt.mpr hcovers)
  · rintro ⟨hopen, hcovers⟩
    refine ⟨fun u hu => ?_, hcovers⟩
    have hnone : p.validUntil = some u := hu
    rw [hopen] at hnone
    exact absurd hnone (by simp)

end Written

/-- Two sources, before any fact is recorded. -/
def twoSources : World :=
  { exampleWorld with
    db := { exampleDatabase with
      sources := [⟨3, 1, "crm", .systemOfRecord, none, 50, 0⟩,
        ⟨4, 1, "billing", .systemOfRecord, none, 50, 0⟩] } }

/-- The first source observes at 12 what it says from 0 on. -/
def exampleObserved : RecordFactVersion :=
  { exampleCommand true 0 with observedAt := some ⟨12, some 0⟩ }

/-- The second source has something else to say from 5 on. -/
def exampleLater (value : Json) (validUntil : Option Datetime) : RecordFactVersion :=
  { exampleCommand true 5 with value, sourceId := 4, validUntil }

/-- Both record, and the second has not committed yet. -/
def exampleWrites (later : RecordFactVersion) : List Event :=
  exampleRecord 0 exampleObserved 10 ⟨10, 11, 12⟩ ++
    (exampleRecord 1 later 20 ⟨20, 21, 22⟩).dropLast

/-- The write of the second transaction, with its request. -/
def secondWrite (w : World) : Option (Draft × VersionWrite) :=
  match w.txns with
  | [_, .record _ _ d (.written write)] => some (d, write)
  | _ => none

theorem mem_of_secondWrite {w : World} {d : Draft} {write : VersionWrite}
    (h : secondWrite w = some (d, write)) :
    ∃ ctx now, Txn.record ctx now d (.written write) ∈ w.txns := by
  unfold secondWrite at h
  split at h
  · rename_i first ctx now d' write' htxns
    obtain ⟨rfl, rfl⟩ := Prod.mk.inj (Option.some.inj h)
    exact ⟨ctx, now, by simp [htxns]⟩
  · exact absurd h (by simp)

theorem exampleWrites_reachable {later : RecordFactVersion} {w : World}
    (h : (system exampleRuntime).run twoSources (exampleWrites later) = some w) :
    (system exampleRuntime).Reachable w :=
  ⟨twoSources, exampleWrites later, ⟨⟨rfl, rfl, rfl⟩, rfl, rfl, rfl⟩, h⟩

/-- What a run of the two writes shows about the superseded version and the write. -/
def showsWrite (later : RecordFactVersion)
    (shows : FactVersion → Draft → VersionWrite → Bool) : Bool :=
  ((system exampleRuntime).run twoSources (exampleWrites later)).any fun w =>
    (secondWrite w).any fun written => w.db.versions.any fun p =>
      written.2.version.supersedesId == some p.id && shows p written.1 written.2

theorem of_showsWrite {later : RecordFactVersion}
    {shows : FactVersion → Draft → VersionWrite → Bool} (h : showsWrite later shows = true) :
    ∃ w, (system exampleRuntime).Reachable w ∧ ∃ ctx now d write,
      Txn.record ctx now d (.written write) ∈ w.txns ∧ ∃ p ∈ w.db.versions,
        write.version.supersedesId = some p.id ∧ shows p d write = true := by
  obtain ⟨w, hrun, h⟩ := (Option.any_eq_true _ _).mp h
  obtain ⟨⟨d, write⟩, hwrite, h⟩ := (Option.any_eq_true _ _).mp h
  obtain ⟨p, hp, h⟩ := List.any_eq_true.mp h
  rw [Bool.and_eq_true, beq_iff_eq] at h
  obtain ⟨ctx, now, ht⟩ := mem_of_secondWrite hwrite
  exact ⟨w, exampleWrites_reachable hrun, ctx, now, d, write, ht, p, hp, h.1, h.2⟩

/-- In every reachable state, for every write and the version it supersedes: a disagreement adds
one row that describes it when the write commits, exactly when the rule does not overlook it. -/
theorem contradictions_complete_iff (rt : Runtime) (w : World) (h : (system rt).Reachable w)
    (ctx : TenantContext) (now : Instant) (d : Draft) (write : VersionWrite)
    (ht : Txn.record ctx now d (.written write) ∈ w.txns) (hkeys : UniqueKeys d.value.1)
    (p : FactVersion) (hp : p ∈ w.db.versions)
    (hsupersedes : write.version.supersedesId = some p.id) :
    (Disagree p write.version → ∃ c, Describes c p write.version ∧
        (write.apply w.db).contradictions = w.db.contradictions ++ [c]) ↔
      ¬ Overlooks p d.value.1 write.version := by
  obtain ⟨entityId, hdetect, hsome⟩ := contradiction_of_write h ht hp hsupersedes
  obtain ⟨-, happ⟩ := latest_of_supersedes h ht hp hsupersedes
  have hstored := ((reachable_traced h).2 _ ht).2.stored
  have hrows := apply_contradictions write w.db
  constructor
  · intro hcomplete hover
    have hdisagree : Disagree p write.version := by
      refine ⟨hover.sources, ?_, hover.claimed, hover.covered⟩
      rw [jsonEq_load _ _ _ hstored hkeys hover.compared, hover.confusion, Bool.not_true]
    obtain ⟨c, -, hadded⟩ := hcomplete hdisagree
    rw [hrows, List.append_cancel_left_eq] at hadded
    have hflagged := hsome.mp (by
      cases hc : write.contradiction with
      | none =>
        rw [hc] at hadded
        exact absurd hadded (by simp)
      | some _ => rfl)
    rw [hover.compared] at hflagged
    exact absurd hflagged.2.1 (by simp)
  · intro hnot hdisagree
    have hcompared : valueEq (load p.value) d.value.1 = false := by
      rw [← Bool.not_eq_true]
      intro hequal
      refine hnot ⟨hdisagree.sources, hequal, ?_, hdisagree.claimed, hdisagree.covered⟩
      have hload := jsonEq_load _ _ _ hstored hkeys hequal
      rw [hdisagree.values] at hload
      simpa using hload.symm
    have hopen : p.validUntil = none := by
      rcases happ.closing with ⟨hopen, -⟩ | ⟨u, hu, hle, -⟩
      · exact hopen
      · have hbefore := hdisagree.claimed.2 u hu
        exact absurd (lt_of_lt_of_le hbefore hle) (not_lt.mpr hdisagree.covered.1)
    obtain ⟨c, hc⟩ := Option.isSome_iff_exists.mp
      (hsome.mpr ⟨hdisagree.sources, hcompared, hopen, hdisagree.covered.1⟩)
    refine ⟨c, describes_of_detect (hdetect ▸ hc), ?_⟩
    rw [hrows, hc]
    rfl

theorem contradictions_complete_iff_example :
    ∃ (w : World) (d : Draft) (write : VersionWrite) (p : FactVersion),
      (system exampleRuntime).Reachable w ∧ p ∈ w.db.versions ∧ d.value.1 = .bool false ∧
      ((Disagree p write.version → ∃ c, Describes c p write.version ∧
          (write.apply w.db).contradictions = w.db.contradictions ++ [c]) ↔
        ¬ Overlooks p d.value.1 write.version) := by
  have hshows : showsWrite (exampleLater (.bool false) none)
      (fun _ d _ => jsonEq d.value.1 (.bool false)) = true := by
    decide +kernel
  obtain ⟨w, h, ctx, now, d, write, ht, p, hp, hsupersedes, hvalue⟩ := of_showsWrite hshows
  have hsent : d.value.1 = .bool false := by
    cases hv : d.value.1 with
    | bool b =>
      rw [hv] at hvalue
      simpa [jsonEq, jsonScalarEq] using hvalue
    | _ =>
      rw [hv] at hvalue
      exact absurd hvalue (by simp [jsonEq, jsonScalarEq])
  exact ⟨w, d, write, p, h, hp, hsent, contradictions_complete_iff exampleRuntime w h ctx now d
    write ht (by rw [hsent]; trivial) p hp hsupersedes⟩

/-- The number 1 against `true` is overlooked. -/
theorem disagreement_without_row :
    ¬ ∀ (rt : Runtime) (w : World), (system rt).Reachable w → ∀ (ctx : TenantContext)
      (now : Instant) (d : Draft) (write : VersionWrite),
      Txn.record ctx now d (.written write) ∈ w.txns → UniqueKeys d.value.1 →
      ∀ p ∈ w.db.versions, write.version.supersedesId = some p.id → Disagree p write.version →
        ∃ c, Describes c p write.version ∧
          (write.apply w.db).contradictions = w.db.contradictions ++ [c] := by
  intro hcomplete
  have hshows : showsWrite (exampleLater (.int 1) none) (fun p d write =>
      write.contradiction.isNone && p.sourceId != write.version.sourceId &&
        !jsonEq (load p.value) (load write.version.value) && p.validFrom == 0 &&
        p.validUntil.isNone && p.observedAt == 12 && write.version.validFrom == 5 &&
        write.version.validUntil.isNone && jsonEq d.value.1 (.int 1)) = true := by
    decide +kernel
  obtain ⟨w, h, ctx, now, d, write, ht, p, hp, hsupersedes, hrow⟩ := of_showsWrite hshows
  simp only [Bool.and_eq_true, beq_iff_eq, bne_iff_ne, Bool.not_eq_true', Option.isNone_iff_eq_none]
    at hrow
  obtain ⟨⟨⟨⟨⟨⟨⟨⟨hnone, hsources⟩, hvalues⟩, hfrom⟩, hopen⟩, hobserved⟩, hstart⟩, hend⟩, hsent⟩ := hrow
  have hkeys : UniqueKeys d.value.1 := by
    cases hv : d.value.1 with
    | arr items =>
      rw [hv] at hsent
      exact absurd hsent (by simp [jsonEq])
    | obj fields =>
      rw [hv] at hsent
      exact absurd hsent (by simp [jsonEq])
    | _ => trivial
  have hdisagree : Disagree p write.version := by
    refine ⟨hsources, hvalues, ⟨?_, fun u hu => ?_⟩, ?_, fun u hu => ?_⟩
    · show p.validFrom ≤ p.observedAt
      rw [hfrom, hobserved]
      decide
    · exact absurd (hopen.symm.trans hu) (by simp)
    · show write.version.validFrom ≤ p.observedAt
      rw [hstart, hobserved]
      decide
    · exact absurd (hend.symm.trans hu) (by simp)
  obtain ⟨c, -, hadded⟩ := hcomplete exampleRuntime w h ctx now d write ht hkeys p hp hsupersedes
    hdisagree
  have hlength := congrArg List.length hadded
  have hsame : (write.apply w.db).contradictions = w.db.contradictions ++ [] := by
    rw [apply_contradictions, hnone]
    rfl
  rw [hsame] at hlength
  simp at hlength

end ContextLedger.ConflictDetection
