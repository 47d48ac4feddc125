import ContextLedger.GraphWorld
import ContextLedger.ReceiptStability

/-!
What every step of the world keeps: the keys of the database are in order, every
event names a row, claims are disjoint parts of the outbox, a projector that
loads has rows that were current once, and the graph has nothing that does not
come from a row. Rows are never deleted, and an update changes the end of a
version only, which no key, organization or relationship depends on.
-/
namespace ContextLedger.GraphCoherence

open Values Schema Facts MergeStore Projection ProjectionOrder Provenance GraphWorld
open VersionTable Ledger ReceiptStability

def InDatabase (db : Database) : Row → Prop
  | .entity row => row ∈ db.entities
  | .fact row => row ∈ db.facts
  | .factSource row => row ∈ db.sources
  | .factVersion row => row ∈ db.versions
  | .evidence row => row ∈ db.evidence
  | .factVersionEvidence row => row ∈ db.links
  | .contextSnapshot row => row ∈ db.snapshots
  | .contextSnapshotFact row => row ∈ db.snapshotFacts
  | .decision row => row ∈ db.decisions
  | .decisionFact row => row ∈ db.decisionFacts

theorem mem_rowsOf {db : Database} {r : Row} : r ∈ rowsOf db ↔ InDatabase db r := by
  cases r <;> simp [rowsOf, InDatabase]

theorem closed_of_intact {db : Database} (h : intact db = true) : Closed (rowsOf db) := by
  rw [intact, Bool.and_eq_true] at h
  have hkeys := h.2
  simp only [foreignKeys, Bool.and_eq_true, List.all_eq_true, List.any_eq_true, beq_iff_eq,
    Option.all_eq_true] at hkeys
  obtain ⟨⟨⟨⟨⟨⟨hfacts, hversions⟩, hevidence⟩, hlinks⟩, hincluded⟩, hdecisions⟩, hrelied⟩ := hkeys
  intro r hr
  rw [mem_rowsOf] at hr
  cases r with
  | entity row => trivial
  | fact row =>
    obtain ⟨e, he, horg, hid⟩ := hfacts row hr
    exact ⟨e, mem_rowsOf.mpr he, horg, hid⟩
  | factSource row => trivial
  | factVersion row =>
    obtain ⟨⟨⟨f, hf, hforg, hfid⟩, ⟨s, hs, hsorg, hsid⟩⟩, hprevious⟩ := hversions row hr
    refine ⟨⟨f, mem_rowsOf.mpr hf, hforg, hfid⟩, ⟨s, mem_rowsOf.mpr hs, hsorg, hsid⟩, ?_⟩
    intro previous hsome
    obtain ⟨u, hu, hufact, huid⟩ := hprevious previous hsome
    exact ⟨u, mem_rowsOf.mpr hu, hufact, huid⟩
  | evidence row =>
    obtain ⟨s, hs, horg, hid⟩ := hevidence row hr
    exact ⟨s, mem_rowsOf.mpr hs, horg, hid⟩
  | factVersionEvidence row =>
    obtain ⟨⟨v, hv, hvorg, hvid⟩, x, hx, hxorg, hxid⟩ := hlinks row hr
    exact ⟨⟨v, mem_rowsOf.mpr hv, hvorg, hvid⟩, x, mem_rowsOf.mpr hx, hxorg, hxid⟩
  | contextSnapshot row => trivial
  | contextSnapshotFact row =>
    obtain ⟨⟨n, hn, hnorg, hnid⟩, v, hv, hvorg, hvid⟩ := hincluded row hr
    exact ⟨⟨n, mem_rowsOf.mpr hn, hnorg, hnid⟩, v, mem_rowsOf.mpr hv, hvorg, hvid⟩
  | decision row =>
    obtain ⟨n, hn, horg, hid⟩ := hdecisions row hr
    exact ⟨n, mem_rowsOf.mpr hn, horg, hid⟩
  | decisionFact row =>
    obtain ⟨⟨d, hd, ⟨horg, hid⟩, hsnapshot⟩, i, hi, hin, hiv⟩ := hrelied row hr
    exact ⟨⟨d, mem_rowsOf.mpr hd, horg, hid, hsnapshot⟩, i, mem_rowsOf.mpr hi, hin, hiv⟩

theorem eq_of_key_eq {db : Database} (h : intact db = true) {r r' : Row} (hr : r ∈ rowsOf db)
    (hr' : r' ∈ rowsOf db) (htable : r.table = r'.table) (hkey : r.key = r'.key) : r = r' := by
  rw [intact, Bool.and_eq_true] at h
  have hnodup : ((rowsOf db).map fun r => (r.table, r.key)).Nodup := of_decide_eq_true h.1
  exact List.inj_on_of_nodup_map hnodup hr hr' (by rw [htable, hkey])

/-- The row again, or the version after its end was set. -/
def Later (r r' : Row) : Prop :=
  r' = r ∨ ∃ v u t, r = .factVersion v ∧ r' = .factVersion (v.close u t)

theorem Later.refl (r : Row) : Later r r := Or.inl rfl

theorem Later.trans {r r' r'' : Row} (h : Later r r') (h' : Later r' r'') : Later r r'' := by
  rcases h with rfl | ⟨v, u, t, rfl, rfl⟩
  · exact h'
  · rcases h' with rfl | ⟨v', u', t', hv', rfl⟩
    · exact Or.inr ⟨v, u, t, rfl, rfl⟩
    · obtain rfl := Row.factVersion.inj hv'
      exact Or.inr ⟨v, u', t', rfl, rfl⟩

/-- What the two have in common. -/
structure Alike (r r' : Row) : Prop where
  table : r.table = r'.table
  key : r.key = r'.key
  org : r.org = r'.org
  ownKey : ownKey r = ownKey r'
  farKeys : farKeys r = farKeys r'
  links : links r = links r'

theorem Later.alike {r r' : Row} (h : Later r r') : Alike r r' := by
  rcases h with rfl | ⟨v, u, t, rfl, rfl⟩
  · exact ⟨rfl, rfl, rfl, rfl, rfl, rfl⟩
  · exact ⟨rfl, rfl, rfl, rfl, rfl, rfl⟩

/-- A transaction makes rows of the database of these, and leaves the others. -/
structure Changes (db db' : Database) (rows : List Row) : Prop where
  kept : ∀ r ∈ rowsOf db, ∃ r' ∈ rowsOf db', Later r r' ∧ (r' = r ∨ r' ∈ rows)
  new : ∀ r ∈ rowsOf db', r ∈ rowsOf db ∨ r ∈ rows
  fired : ∀ r ∈ rows, r ∈ rowsOf db'

theorem Changes.of_append {db db' : Database} {rows : List Row}
    (h : ∀ r, r ∈ rowsOf db' ↔ r ∈ rowsOf db ∨ r ∈ rows) : Changes db db' rows :=
  ⟨fun r hr => ⟨r, (h r).mpr (Or.inl hr), Later.refl r, Or.inl rfl⟩, fun r hr => (h r).mp hr,
    fun r hr => (h r).mpr (Or.inr hr)⟩

theorem Changes.refl (db : Database) : Changes db db [] := Changes.of_append (by simp)

theorem changes_provenance (write : ProvenanceWrite) (db : Database) :
    Changes db (write.apply db) write.rows := by
  apply Changes.of_append
  intro r
  simp only [mem_rowsOf]
  cases r <;> simp [InDatabase, ProvenanceWrite.apply, ProvenanceWrite.rows]

theorem changes_snapshot (write : ImpactReports.SnapshotWrite) (db : Database) :
    Changes db (write.apply db) (snapshotRows write) := by
  apply Changes.of_append
  intro r
  simp only [mem_rowsOf]
  cases r <;> simp [InDatabase, ImpactReports.SnapshotWrite.apply, snapshotRows]

theorem changes_decision (write : ImpactReports.DecisionWrite) (db : Database) :
    Changes db (write.apply db) (decisionRows write) := by
  apply Changes.of_append
  intro r
  simp only [mem_rowsOf]
  cases r <;> simp [InDatabase, ImpactReports.DecisionWrite.apply, Decisions.Database.addDecision,
    decisionRows]

theorem changes_revoke (write : Revocations.RevokeWrite) (db : Database) :
    Changes db (write.apply db) [] := by
  apply Changes.of_append
  intro r
  simp only [mem_rowsOf]
  cases r <;> simp [InDatabase, Revocations.RevokeWrite.apply, Database.addRevocation]

/-- A version that a write changes fires the trigger. -/
theorem mem_closedRows_of_touched (write : VersionWrite) {db : Database} {v : FactVersion}
    (hv : v ∈ db.versions) : touched write v = v ∨
      Row.factVersion (touched write v) ∈ closedRows write db := by
  unfold touched closedRows
  cases write.closing with
  | none => exact Or.inl rfl
  | some c =>
    simp only [Option.elim_some]
    split
    · rename_i hmatch
      refine Or.inr (List.mem_map.mpr ⟨v, ?_, rfl⟩)
      rw [List.mem_filter, decide_eq_true_eq]
      exact ⟨hv, hmatch⟩
    · exact Or.inl rfl

theorem exists_touched_of_mem_closedRows {write : VersionWrite} {db : Database} {r : Row}
    (hr : r ∈ closedRows write db) : ∃ v ∈ db.versions, r = .factVersion (touched write v) := by
  unfold closedRows at hr
  cases hclosing : write.closing with
  | none =>
    rw [hclosing] at hr
    exact absurd hr List.not_mem_nil
  | some c =>
    rw [hclosing] at hr
    obtain ⟨v, hv, rfl⟩ := List.mem_map.mp hr
    rw [List.mem_filter, decide_eq_true_eq] at hv
    refine ⟨v, hv.1, ?_⟩
    rw [touched, hclosing]
    simp [hv.2.1, hv.2.2.1, hv.2.2.2]

theorem later_touched (write : VersionWrite) (v : FactVersion) :
    Later (.factVersion v) (.factVersion (touched write v)) := by
  rcases touched_cases write v with h | ⟨-, c, -, -, h⟩
  · rw [h]
    exact Later.refl _
  · rw [h]
    exact Or.inr ⟨v, c.2, write.version.recordedAt, rfl, rfl⟩

theorem changes_version (write : VersionWrite) (db : Database) :
    Changes db (write.apply db) (versionRows write db) := by
  have hversions := apply_versions write db
  have hentities := apply_entities write db
  have hfacts := apply_facts write db
  have hsources := apply_sources write db
  have hevidence := apply_evidence write db
  have hlinks := apply_links write db
  refine ⟨?_, ?_, ?_⟩
  · intro r hr
    rw [mem_rowsOf] at hr
    cases r with
    | factVersion v =>
      refine ⟨.factVersion (touched write v), ?_, later_touched write v, ?_⟩
      · rw [mem_rowsOf, InDatabase, hversions]
        exact List.mem_append_left _ (List.mem_map_of_mem hr)
      · rcases mem_closedRows_of_touched write hr with h | h
        · exact Or.inl (by rw [h])
        · exact Or.inr (by simp [versionRows, h])
    | _ =>
      refine ⟨_, ?_, Later.refl _, Or.inl rfl⟩
      rw [mem_rowsOf]
      simp_all [InDatabase]
  · intro r hr
    rw [mem_rowsOf] at hr ⊢
    cases r with
    | factVersion v =>
      rw [InDatabase, hversions, List.mem_append, List.mem_map, List.mem_singleton] at hr
      rcases hr with ⟨u, hu, rfl⟩ | rfl
      · rcases mem_closedRows_of_touched write hu with h | h
        · rw [h]
          exact Or.inl hu
        · exact Or.inr (by simp [versionRows, h])
      · exact Or.inr (by simp [versionRows])
    | entity row =>
      rw [InDatabase, hentities, List.mem_append] at hr
      exact hr.imp id fun h => by simpa [versionRows] using Or.inl h
    | fact row =>
      rw [InDatabase, hfacts, List.mem_append] at hr
      exact hr.imp id fun h => by simpa [versionRows] using Or.inl h
    | factVersionEvidence row =>
      rw [InDatabase, hlinks, List.mem_append] at hr
      exact hr.imp id fun h => by simpa [versionRows] using Or.inr h
    | _ =>
      left
      simp_all [InDatabase]
  · intro r hr
    rw [mem_rowsOf]
    simp only [versionRows, List.mem_append, List.mem_map, List.mem_singleton] at hr
    rcases hr with (((⟨e, he, rfl⟩ | ⟨f, hf, rfl⟩) | hclosed) | rfl) | ⟨l, hl, rfl⟩
    · rw [InDatabase, hentities]
      exact List.mem_append_right _ he
    · rw [InDatabase, hfacts]
      exact List.mem_append_right _ hf
    · obtain ⟨v, hv, rfl⟩ := exists_touched_of_mem_closedRows hclosed
      rw [InDatabase, hversions]
      exact List.mem_append_left _ (List.mem_map_of_mem hv)
    · rw [InDatabase, hversions]
      exact List.mem_append_right _ (List.mem_singleton_self _)
    · rw [InDatabase, hlinks]
      exact List.mem_append_right _ hl

/-- Only the commit of a version changes rows. -/
theorem changes_record {rt : Runtime} {w : World} {clock : Instant} {action : Concurrent.Action}
    {r : Concurrent.World} (h : Concurrent.step rt w.recording ⟨clock, action⟩ = some r) :
    Changes w.db r.db (recordedRows w action) := by
  cases action with
  | beginRecord ctx command =>
    obtain rfl := Option.some.inj h
    exact Changes.refl _
  | beginRevoke ctx factId versionId reason =>
    obtain rfl := Option.some.inj h
    exact Changes.refl _
  | move i m =>
    simp only [Concurrent.step, World.recording] at h
    split at h
    · exact absurd h (by simp)
    · rcases ite_eq_iff.mp h with ⟨-, h⟩ | ⟨-, h⟩
      · obtain ⟨t', -, rfl⟩ := Option.map_eq_some_iff.mp h
        exact Changes.refl _
      · exact absurd h (by simp)
  | commit i =>
    simp only [Concurrent.step, World.recording] at h
    cases ht : w.recorders[i]? with
    | none =>
      rw [ht] at h
      exact absurd h (by simp)
    | some t =>
      rw [ht] at h
      obtain ⟨db', hcommit, rfl⟩ := Option.map_eq_some_iff.mp h
      simp only [recordedRows, ht]
      unfold Concurrent.Txn.commit at hcommit
      split at hcommit
      · obtain rfl := Option.some.inj hcommit
        exact changes_version _ _
      · obtain rfl := Option.some.inj hcommit
        exact changes_revoke _ _
      · exact absurd hcommit (by simp)
  | read org entityId factId validAt knownAt =>
    simp only [Concurrent.step, World.recording] at h
    split at h
    · obtain rfl := Option.some.inj h
      exact Changes.refl _
    · exact absurd h (by simp)

/-- Only the commits of a context and of a decision change rows. -/
theorem changes_decide {rt : Runtime} {w : World} {clock : Instant} {action : DecisionWorld.Action}
    {d : DecisionWorld.World} (h : DecisionWorld.step rt w.deciding ⟨clock, action⟩ = some d) :
    Changes w.db d.db (decidedRows w action) := by
  cases action with
  | move i m =>
    simp only [DecisionWorld.step, World.deciding] at h
    split at h
    · exact absurd h (by simp)
    · rcases ite_eq_iff.mp h with ⟨-, h⟩ | ⟨-, h⟩
      · obtain ⟨t', -, rfl⟩ := Option.map_eq_some_iff.mp h
        exact Changes.refl _
      · exact absurd h (by simp)
  | commit i =>
    simp only [DecisionWorld.step, World.deciding] at h
    cases ht : w.deciders[i]? with
    | none =>
      rw [ht] at h
      exact absurd h (by simp)
    | some t =>
      rw [ht] at h
      obtain ⟨done, hcommit, rfl⟩ := Option.map_eq_some_iff.mp h
      simp only [decidedRows, ht]
      unfold DecisionWorld.Txn.commit at hcommit
      split at hcommit
      · obtain rfl := Option.some.inj hcommit
        exact changes_snapshot _ _
      · obtain rfl := Option.some.inj hcommit
        exact changes_decision _ _
      · obtain rfl := Option.some.inj hcommit
        exact changes_revoke _ _
      · exact absurd hcommit (by simp)
  | _ =>
    simp only [DecisionWorld.step] at h
    obtain ⟨t', -, rfl⟩ := Option.map_eq_some_iff.mp h
    exact Changes.refl _

/-- The rows and the events of a step become visible. -/
structure Published (w w' : World) (rows : List Row) (ids : List ℕ) : Prop where
  changes : Changes w.db w'.db rows
  intact : intact w'.db = true
  length : ids.length = rows.length
  nodup : ids.Nodup
  fresh : ∀ id ∈ ids, id ∉ w.issued
  outbox : w'.outbox = w.outbox ++ List.zipWith trigger rows ids
  issued : w'.issued = ids ++ w.issued
  projectors : w'.projectors = w.projectors
  graph : w'.graph = w.graph
  reads : w'.reads = w.reads

theorem published_of_publish {w w₁ w' : World} {db : Database} {rows : List Row} {ids : List ℕ}
    (h : w₁.publish db rows ids = some w') (hchanges : Changes w.db db rows)
    (houtbox : w₁.outbox = w.outbox) (hissued : w₁.issued = w.issued)
    (hprojectors : w₁.projectors = w.projectors) (hgraph : w₁.graph = w.graph)
    (hreads : w₁.reads = w.reads) : Published w w' rows ids := by
  unfold World.publish at h
  split at h
  · rename_i hguard
    obtain ⟨hintact, hlength, hnodup, hfresh⟩ := hguard
    obtain rfl := Option.some.inj h
    exact ⟨hchanges, hintact, hlength, hnodup, hissued ▸ hfresh, by rw [← houtbox],
      by rw [← hissued], hprojectors, hgraph, hreads⟩
  · exact absurd h (by simp)

/-- What a projector can do. -/
inductive Projected (rt : Runtime) (w : World) (i : ℕ) (p : Projector) : Action → World → Prop
  | claim (batchSize : ℕ) (org : Option Uuid) (events : List OutboxEvent) (hidle : p = .idle)
      (hevents : events = Outbox.claim OutboxEvent.id w.outbox (w.lockedByOthers i)
        (eligible org) batchSize) :
      Projected rt w i p (.claim i batchSize org)
        (w.setProjector i (.loading events (tablesOf events) []))
  | load (events : List OutboxEvent) (table : Table) (todo : List Table) (rows : List Row)
      (hloading : p = .loading events (table :: todo) rows) :
      Projected rt w i p (.load i)
        (w.setProjector i (.loading events todo (rows ++ loadTable w.db events table)))
  | write (events : List OutboxEvent) (rows : List Row) (hloading : p = .loading events [] rows) :
      Projected rt w i p (.write i) (w.writeGraph rt i events rows)
  | finish (events : List OutboxEvent) (hwritten : p = .written events) :
      Projected rt w i p (.finish i) (w.commitClaim i events)
  | crash : Projected rt w i p (.crash i) (w.setProjector i .idle)

/-- The actions that may commit rows. -/
inductive Writes : Action → Prop
  | record (action : Concurrent.Action) (ids : List ℕ) : Writes (.record action ids)
  | decide (action : DecisionWorld.Action) (ids : List ℕ) : Writes (.decide action ids)
  | register (write : ProvenanceWrite) (ids : List ℕ) : Writes (.register write ids)

/-- What a step can do. -/
inductive Stepped (rt : Runtime) (w : World) : Action → World → Prop
  | published {action : Action} {w' : World} {rows : List Row} {ids : List ℕ}
      (h : Published w w' rows ids) (hwrites : Writes action) : Stepped rt w action w'
  | started : Stepped rt w .startProjector { w with projectors := w.projectors ++ [.idle] }
  | asked (ctx : Authorization.TenantContext) (versionId : Uuid) :
      Stepped rt w (.beginRead ctx versionId)
        { w with reads := w.reads ++ [⟨ctx, versionId, .begun⟩] }
  | read (i : ℕ) (call : ReadCall) (phase : ReadPhase) (hcall : w.reads[i]? = some call)
      (hphase : stepRead w call = some phase) :
      Stepped rt w (.read i) { w with reads := w.reads.set i { call with phase } }
  | projected (i : ℕ) (p : Projector) {action : Action} {w' : World}
      (hp : w.projectors[i]? = some p) (h : Projected rt w i p action w') : Stepped rt w action w'

theorem projected_of_stepProjector {rt : Runtime} {w w' : World} {i : ℕ} {p : Projector}
    {action : Action} (hi : action.projector = some i)
    (h : stepProjector rt w i p action = some w') : Projected rt w i p action w' := by
  cases action with
  | claim j batchSize org =>
    obtain rfl := Option.some.inj hi
    cases p with
    | idle =>
      simp only [stepProjector] at h
      split at h
      · exact absurd h (by simp)
      · obtain rfl := Option.some.inj h
        exact .claim batchSize org _ rfl rfl
    | loading events todo rows => exact absurd h (by simp [stepProjector])
    | written events => exact absurd h (by simp [stepProjector])
  | load j =>
    obtain rfl := Option.some.inj hi
    cases p with
    | loading events todo rows =>
      cases todo with
      | nil => exact absurd h (by simp [stepProjector])
      | cons table todo =>
        obtain rfl := Option.some.inj h
        exact .load events table todo rows rfl
    | idle => exact absurd h (by simp [stepProjector])
    | written events => exact absurd h (by simp [stepProjector])
  | write j =>
    obtain rfl := Option.some.inj hi
    cases p with
    | loading events todo rows =>
      cases todo with
      | nil =>
        obtain rfl := Option.some.inj h
        exact .write events rows rfl
      | cons table todo => exact absurd h (by simp [stepProjector])
    | idle => exact absurd h (by simp [stepProjector])
    | written events => exact absurd h (by simp [stepProjector])
  | finish j =>
    obtain rfl := Option.some.inj hi
    cases p with
    | written events =>
      obtain rfl := Option.some.inj h
      exact .finish events rfl
    | idle => exact absurd h (by simp [stepProjector])
    | loading events todo rows => exact absurd h (by simp [stepProjector])
  | crash j =>
    obtain rfl := Option.some.inj hi
    obtain rfl := Option.some.inj h
    exact .crash
  | _ => exact absurd hi (by simp [Action.projector])

theorem step_projector {rt : Runtime} {w w' : World} {action : Action} {i : ℕ}
    (hi : action.projector = some i)
    (h : (match action.projector.bind fun i => (w.projectors[i]?).map fun p => (i, p) with
      | none => none
      | some (i, p) => stepProjector rt w i p action) = some w') : Stepped rt w action w' := by
  rw [hi, Option.bind_some] at h
  cases hp : w.projectors[i]? with
  | none =>
    rw [hp] at h
    exact absurd h (by simp)
  | some p =>
    rw [hp] at h
    exact .projected i p hp (projected_of_stepProjector hi h)

theorem step_cases {rt : Runtime} {w w' : World} {clock : Instant} {action : Action}
    (h : step rt w ⟨clock, action⟩ = some w') : Stepped rt w action w' := by
  cases action with
  | record action ids =>
    obtain ⟨r, hr, h⟩ := Option.bind_eq_some_iff.mp h
    exact .published (published_of_publish h (changes_record hr) rfl rfl rfl rfl rfl)
      (.record action ids)
  | decide action ids =>
    obtain ⟨d, hd, h⟩ := Option.bind_eq_some_iff.mp h
    exact .published (published_of_publish h (changes_decide hd) rfl rfl rfl rfl rfl)
      (.decide action ids)
  | register write ids =>
    exact .published (published_of_publish h (changes_provenance write w.db) rfl rfl rfl rfl rfl)
      (.register write ids)
  | startProjector =>
    obtain rfl := Option.some.inj h
    exact .started
  | beginRead ctx versionId =>
    obtain rfl := Option.some.inj h
    exact .asked ctx versionId
  | read i =>
    simp only [step] at h
    cases hcall : w.reads[i]? with
    | none =>
      rw [hcall] at h
      exact absurd h (by simp)
    | some call =>
      rw [hcall] at h
      obtain ⟨phase, hphase, rfl⟩ := Option.map_eq_some_iff.mp h
      exact .read i call phase hcall hphase
  | claim i batchSize org => exact step_projector rfl h
  | load i => exact step_projector rfl h
  | write i => exact step_projector rfl h
  | finish i => exact step_projector rfl h
  | crash i => exact step_projector rfl h

/-- The event was fired by this row. -/
structure Names (e : OutboxEvent) (r : Row) : Prop where
  table : e.table = r.table
  key : e.rowKey = r.key
  org : e.organizationId = r.org

theorem Names.later {e : OutboxEvent} {r r' : Row} (h : Names e r) (hlater : Later r r') :
    Names e r' :=
  ⟨h.table.trans hlater.alike.table, h.key.trans hlater.alike.key, h.org.trans hlater.alike.org⟩

/-- What a projector has loaded: rows that were current once, one for each event
of a table that is no longer to do. -/
structure LoadingOk (db : Database) (events : List OutboxEvent) (todo : List Table)
    (rows : List Row) : Prop where
  past : ∀ r ∈ rows, ∃ r' ∈ rowsOf db, Later r r'
  loaded : ∀ e ∈ events, e.table ∉ todo → ∃ r ∈ rows, r.table = e.table ∧ r.key = e.rowKey
  once : ∀ r ∈ rows, ∀ r' ∈ rows, r.table = r'.table → r.key = r'.key → r = r'
  nodup : todo.Nodup
  fresh : ∀ r ∈ rows, r.table ∉ todo

theorem LoadingOk.changes {db db' : Database} {changed : List Row} (hchanges : Changes db db' changed)
    {events : List OutboxEvent} {todo : List Table} {rows : List Row}
    (h : LoadingOk db events todo rows) : LoadingOk db' events todo rows := by
  refine { h with past := ?_ }
  intro r hr
  obtain ⟨r', hr', hlater⟩ := h.past r hr
  obtain ⟨r'', hr'', hlater', -⟩ := hchanges.kept r' hr'
  exact ⟨r'', hr'', hlater.trans hlater'⟩

theorem mem_loadTable {db : Database} {events : List OutboxEvent} {table : Table} {r : Row} :
    r ∈ loadTable db events table ↔
      r ∈ rowsOf db ∧ r.table = table ∧ ∃ e ∈ events, e.table = table ∧ e.rowKey = r.key := by
  simp only [loadTable, List.mem_filter, List.mem_map, decide_eq_true_eq, and_assoc]

theorem LoadingOk.load {db : Database} (hdb : intact db = true) {events : List OutboxEvent}
    {table : Table} {todo : List Table} {rows : List Row}
    (hevents : ∀ e ∈ events, ∃ r ∈ rowsOf db, Names e r)
    (h : LoadingOk db events (table :: todo) rows) :
    LoadingOk db events todo (rows ++ loadTable db events table) := by
  have hnodup := List.nodup_cons.mp h.nodup
  refine ⟨?_, ?_, ?_, hnodup.2, ?_⟩
  · intro r hr
    rcases List.mem_append.mp hr with hr | hr
    · exact h.past r hr
    · exact ⟨r, (mem_loadTable.mp hr).1, Later.refl r⟩
  · intro e he htodo
    by_cases htable : e.table = table
    · obtain ⟨r, hr, hnames⟩ := hevents e he
      refine ⟨r, List.mem_append_right _ (mem_loadTable.mpr ⟨hr, ?_, e, he, htable, hnames.key⟩),
        hnames.table.symm, hnames.key.symm⟩
      rw [← hnames.table, htable]
    · obtain ⟨r, hr, hrow⟩ := h.loaded e he (by simp [htable, htodo])
      exact ⟨r, List.mem_append_left _ hr, hrow⟩
  · have hmixed : ∀ r ∈ rows, ∀ r' ∈ loadTable db events table, r.table ≠ r'.table := by
      intro r hr r' hr' heq
      refine h.fresh r hr (List.mem_cons.mpr (Or.inl ?_))
      rw [heq, (mem_loadTable.mp hr').2.1]
    intro r hr r' hr' htable hkey
    rcases List.mem_append.mp hr with hr | hr <;> rcases List.mem_append.mp hr' with hr' | hr'
    · exact h.once r hr r' hr' htable hkey
    · exact absurd htable (hmixed r hr r' hr')
    · exact absurd htable.symm (hmixed r' hr' r hr)
    · exact eq_of_key_eq hdb (mem_loadTable.mp hr).1 (mem_loadTable.mp hr').1 htable hkey
  · intro r hr
    rcases List.mem_append.mp hr with hr | hr
    · exact fun htodo => h.fresh r hr (List.mem_cons_of_mem table htodo)
    · rw [(mem_loadTable.mp hr).2.1]
      exact hnodup.1

structure Coherent (w : World) : Prop where
  intact : intact w.db = true
  ids : (w.outbox.map OutboxEvent.id).Nodup
  issued : ∀ e ∈ w.outbox, e.id ∈ w.issued
  events : ∀ e ∈ w.outbox, ∃ r ∈ rowsOf w.db, Names e r
  held : ∀ p ∈ w.projectors, ∀ e ∈ p.held, e ∈ w.outbox
  apart : Processes.Apart (Outbox.Disjoint OutboxEvent.id Projector.held) w.projectors
  loading : ∀ events todo rows, Projector.loading events todo rows ∈ w.projectors →
    LoadingOk w.db events todo rows
  tidy : Tidy w.graph
  sourced : Sourced (rowsOf w.db) w.graph

theorem sourced_mono {rows rows' : List Row} {g : Graph} (hg : Sourced rows g)
    (h : ∀ r ∈ rows, ∃ r' ∈ rows', Later r r') : Sourced rows' g := by
  refine ⟨?_, ?_⟩
  · intro k hk
    obtain ⟨r, hr, hkey⟩ := hg.nodes k hk
    obtain ⟨r', hr', hlater⟩ := h r hr
    rw [hlater.alike.ownKey, hlater.alike.farKeys] at hkey
    exact ⟨r', hr', hkey⟩
  · intro k hk
    obtain ⟨r, hr, hkey⟩ := hg.relationships k hk
    obtain ⟨r', hr', hlater⟩ := h r hr
    rw [hlater.alike.links] at hkey
    exact ⟨r', hr', hkey⟩

theorem mem_zipWith_trigger {rows : List Row} {ids : List ℕ} {e : OutboxEvent}
    (he : e ∈ List.zipWith trigger rows ids) : ∃ r ∈ rows, e.id ∈ ids ∧ Names e r := by
  induction rows generalizing ids with
  | nil => exact absurd he (by simp)
  | cons row rows ih =>
    cases ids with
    | nil => exact absurd he (by simp)
    | cons id ids =>
      rcases List.mem_cons.mp he with rfl | he
      · exact ⟨row, List.mem_cons_self, List.mem_cons_self, rfl, rfl, rfl⟩
      · obtain ⟨r, hr, hid, hnames⟩ := ih he
        exact ⟨r, List.mem_cons_of_mem row hr, List.mem_cons_of_mem id hid, hnames⟩

theorem exists_event_of_mem {rows : List Row} {ids : List ℕ} (hlength : ids.length = rows.length)
    {r : Row} (hr : r ∈ rows) : ∃ e ∈ List.zipWith trigger rows ids, Names e r := by
  induction rows generalizing ids with
  | nil => exact absurd hr List.not_mem_nil
  | cons row rows ih =>
    cases ids with
    | nil => exact absurd hlength (by simp)
    | cons id ids =>
      rcases List.mem_cons.mp hr with rfl | hr
      · exact ⟨trigger r id, List.mem_cons_self, rfl, rfl, rfl⟩
      · obtain ⟨e, he, hnames⟩ := ih (by simpa using hlength) hr
        exact ⟨e, List.mem_cons_of_mem _ he, hnames⟩

theorem map_id_zipWith_trigger {rows : List Row} {ids : List ℕ} (h : ids.length = rows.length) :
    (List.zipWith trigger rows ids).map OutboxEvent.id = ids := by
  induction rows generalizing ids with
  | nil =>
    rw [List.length_eq_zero_iff.mp h]
    rfl
  | cons row rows ih =>
    cases ids with
    | nil => rfl
    | cons id ids =>
      rw [List.zipWith_cons_cons, List.map_cons, ih (by simpa using h)]
      rfl

theorem intact_of_rowsOf_eq_nil {db : Database} (h : rowsOf db = []) : intact db = true := by
  have hprimary : primaryKeys db = true := by simp [primaryKeys, h]
  simp only [rowsOf, List.append_eq_nil_iff, List.map_eq_nil_iff] at h
  simp [intact, hprimary, foreignKeys, h]

theorem coherent_start {w : World} (h : Start w) : Coherent w := by
  have hno : ∀ p, p ∉ w.projectors := by
    intro p
    rw [h.projectors]
    exact List.not_mem_nil
  refine ⟨intact_of_rowsOf_eq_nil h.rows, by simp [h.outbox], by simp [h.outbox],
    by simp [h.outbox], fun p hp => absurd hp (hno p), ?_, fun _ _ _ hp => absurd hp (hno _), ?_, ?_⟩
  · rw [h.projectors]
    exact Processes.apart_nil _
  · rw [h.graph]
    exact tidy_empty
  · rw [h.graph]
    exact sourced_empty _

theorem coherent_published {w w' : World} {rows : List Row} {ids : List ℕ}
    (h : Published w w' rows ids) (hw : Coherent w) : Coherent w' := by
  have houtbox : ∀ e ∈ w.outbox, e ∈ w'.outbox := by
    intro e he
    rw [h.outbox]
    exact List.mem_append_left _ he
  refine ⟨h.intact, ?_, ?_, ?_, ?_, ?_, ?_, ?_, ?_⟩
  · rw [h.outbox, List.map_append, map_id_zipWith_trigger h.length, List.nodup_append]
    refine ⟨hw.ids, h.nodup, ?_⟩
    intro id hid id' hid' heq
    obtain ⟨e, he, rfl⟩ := List.mem_map.mp hid
    exact h.fresh id' hid' (heq ▸ hw.issued e he)
  · intro e he
    rw [h.outbox, List.mem_append] at he
    rw [h.issued, List.mem_append]
    rcases he with he | he
    · exact Or.inr (hw.issued e he)
    · obtain ⟨-, -, hid, -⟩ := mem_zipWith_trigger he
      exact Or.inl hid
  · intro e he
    rw [h.outbox, List.mem_append] at he
    rcases he with he | he
    · obtain ⟨r, hr, hnames⟩ := hw.events e he
      obtain ⟨r', hr', hlater, -⟩ := h.changes.kept r hr
      exact ⟨r', hr', hnames.later hlater⟩
    · obtain ⟨r, hr, -, hnames⟩ := mem_zipWith_trigger he
      exact ⟨r, h.changes.fired r hr, hnames⟩
  · rw [h.projectors]
    exact fun p hp e he => houtbox e (hw.held p hp e he)
  · rw [h.projectors]
    exact hw.apart
  · rw [h.projectors]
    exact fun events todo rows hp => (hw.loading events todo rows hp).changes h.changes
  · rw [h.graph]
    exact hw.tidy
  · rw [h.graph]
    refine sourced_mono hw.sourced fun r hr => ?_
    obtain ⟨r', hr', hlater, -⟩ := h.changes.kept r hr
    exact ⟨r', hr', hlater⟩

/-- A projector whose claim is part of the outbox and free of the others' claims. -/
theorem Coherent.setProjector {w : World} (hw : Coherent w) {i : ℕ} {p : Projector}
    (hheld : ∀ e ∈ p.held, e ∈ w.outbox)
    (hapart : ∀ j q, w.projectors[j]? = some q → i ≠ j →
      Outbox.Disjoint OutboxEvent.id Projector.held p q)
    (hloading : ∀ events todo rows, p = .loading events todo rows →
      LoadingOk w.db events todo rows) : Coherent (w.setProjector i p) := by
  refine { hw with held := ?_, apart := ?_, loading := ?_ }
  · intro q hq e he
    rcases Processes.mem_set_cases hq with rfl | ⟨j, -, hj⟩
    · exact hheld e he
    · exact hw.held q (List.mem_of_getElem? hj) e he
  · exact hw.apart.set Outbox.Disjoint.symm hapart
  · intro events todo rows hq
    rcases Processes.mem_set_cases hq with hp | ⟨j, -, hj⟩
    · exact hloading events todo rows hp.symm
    · exact hw.loading events todo rows (List.mem_of_getElem? hj)

theorem held_lockedByOthers {w : World} {i j : ℕ} {q : Projector} (hq : w.projectors[j]? = some q)
    (hij : i ≠ j) {e : OutboxEvent} (he : e ∈ q.held) : e ∈ w.lockedByOthers i :=
  List.mem_flatMap.mpr ⟨q, Processes.mem_eraseIdx_of_ne hq hij, he⟩

/-- Writing rows that were current once adds nothing foreign to the graph. -/
theorem sourced_apply {rt : Runtime} {db : Database} {rows : List Row} {g : Graph}
    (hpast : ∀ r ∈ rows, ∃ r' ∈ rowsOf db, Later r r') (hg : Sourced (rowsOf db) g) :
    Sourced (rowsOf db) (apply (batchOf rt rows) g) := by
  have hclauses : ∀ c ∈ batchClauses (batchOf rt rows), ∃ r ∈ rowsOf db ++ rows,
      c ∈ statement rt r :=
    fun c hc => exists_of_mem_batchClauses (from_batchOf fun r hr => List.mem_append_right _ hr) hc
  have hall : Sourced (rowsOf db ++ rows) (apply (batchOf rt rows) g) := by
    rw [apply_eq]
    exact (sourced_mono hg fun r hr =>
      ⟨r, List.mem_append_left _ hr, Later.refl r⟩).executeAll hclauses
  refine sourced_mono hall fun r hr => ?_
  rcases List.mem_append.mp hr with hr | hr
  · exact ⟨r, hr, Later.refl r⟩
  · exact hpast r hr

theorem tidy_apply {rt : Runtime} {rows : List Row} {g : Graph} (hg : Tidy g) :
    Tidy (apply (batchOf rt rows) g) := by
  rw [apply_eq]
  exact tidy_executeAll hg (from_batchOf fun r hr => hr : From rt rows (batchOf rt rows)).fits

theorem coherent_projected {rt : Runtime} {w w' : World} {i : ℕ} {p : Projector} {action : Action}
    (hp : w.projectors[i]? = some p) (h : Projected rt w i p action w') (hw : Coherent w) :
    Coherent w' := by
  have hmem := List.mem_of_getElem? hp
  have hothers : ∀ j q, w.projectors[j]? = some q → i ≠ j →
      Outbox.Disjoint OutboxEvent.id Projector.held p q :=
    fun j q hq hij => hw.apart i j p q hp hq hij
  cases h with
  | claim batchSize org events hidle hevents =>
    refine hw.setProjector ?_ ?_ ?_
    · intro e he
      exact (Outbox.mem_of_mem_claim (hevents ▸ he)).1
    · intro j q hq hij e he e' he' heq
      exact (Outbox.mem_of_mem_claim (hevents ▸ he)).2.2 e' (held_lockedByOthers hq hij he') heq.symm
    · intro events' todo rows heq
      obtain ⟨rfl, rfl, rfl⟩ := Projector.loading.inj heq
      refine ⟨by simp, ?_, by simp, nodup_tablesOf events, by simp⟩
      intro e he htodo
      exact absurd (table_mem_tablesOf he) htodo
  | load events table todo rows hloading =>
    subst hloading
    have hok := hw.loading _ _ _ hmem
    have hheld : ∀ e ∈ events, e ∈ w.outbox := hw.held _ hmem
    refine hw.setProjector hheld hothers ?_
    intro events' todo' rows' heq
    obtain ⟨rfl, rfl, rfl⟩ := Projector.loading.inj heq
    exact hok.load hw.intact fun e he => hw.events e (hheld e he)
  | write events rows hloading =>
    subst hloading
    have hok := hw.loading _ _ _ hmem
    have hheld : ∀ e ∈ events, e ∈ w.outbox := hw.held _ hmem
    have hset : Coherent (w.setProjector i (.written events)) :=
      hw.setProjector hheld hothers (by simp)
    exact { hset with
      tidy := tidy_apply hw.tidy
      sourced := sourced_apply hok.past hw.sourced }
  | finish events hwritten =>
    subst hwritten
    have hset : Coherent (w.setProjector i .idle) :=
      hw.setProjector (by simp [Projector.held]) (by simp [Outbox.Disjoint, Projector.held]) (by simp)
    refine { hset with
      ids := Outbox.nodup_delete hw.ids events
      issued := fun e he => hw.issued e (Outbox.mem_delete.mp he).1
      events := fun e he => hw.events e (Outbox.mem_delete.mp he).1
      held := ?_ }
    intro q hq e he
    rcases Processes.mem_set_cases hq with rfl | ⟨j, hij, hj⟩
    · exact absurd he (by simp [Projector.held])
    · exact Outbox.mem_delete.mpr ⟨hw.held q (List.mem_of_getElem? hj) e he,
        fun e' he' => hothers j q hj hij e' he' e he⟩
  | crash =>
    exact hw.setProjector (by simp [Projector.held]) (by simp [Outbox.Disjoint, Projector.held])
      (by simp)

theorem coherent_step {rt : Runtime} {w w' : World} {e : Event} (h : step rt w e = some w')
    (hw : Coherent w) : Coherent w' := by
  obtain ⟨clock, action⟩ := e
  cases step_cases h with
  | published hpublished => exact coherent_published hpublished hw
  | started =>
    refine { hw with held := ?_, apart := ?_, loading := ?_ }
    · intro p hp e he
      rcases List.mem_append.mp hp with hp | hp
      · exact hw.held p hp e he
      · rw [List.mem_singleton.mp hp] at he
        exact absurd he (by simp [Projector.held])
    · exact hw.apart.append Outbox.Disjoint.symm (by simp [Outbox.Disjoint, Projector.held])
    · intro events todo rows hp
      rcases List.mem_append.mp hp with hp | hp
      · exact hw.loading events todo rows hp
      · exact absurd (List.mem_singleton.mp hp) (by simp)
  | asked ctx versionId => exact { hw with }
  | read i call phase hcall hphase => exact { hw with }
  | projected i p hp hprojected => exact coherent_projected hp hprojected hw

theorem reachable_coherent {rt : Runtime} {w : World} (h : (system rt).Reachable w) : Coherent w :=
  (system rt).reachable_invariant Coherent (fun _ => coherent_start)
    (fun _ _ _ hw hstep => coherent_step hstep hw) h

end ContextLedger.GraphCoherence
