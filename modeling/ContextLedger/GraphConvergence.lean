import ContextLedger.GraphCoherence

/-!
When the graph catches up with the database. A projector that writes a row which
has changed since it was loaded undoes what another projector may have written
from the newer row, unless an event of that row is still to be applied. If every
write is in time in this sense, the graph shows the current rows whenever the
outbox is empty; if one is not, an old row can stay in the graph for good.
-/
namespace ContextLedger.GraphConvergence

open Values Schema MergeStore Projection ProjectionOrder GraphWorld GraphCoherence
open Facts (exampleRuntime exampleDatabase exampleCommand FreshIds)

variable {rt : Runtime}

/-- The graph of the current rows, written at once. -/
def projection (rt : Runtime) (db : Database) : Graph :=
  apply (batchOf rt (rowsOf db)) Graph.empty

/-- The outbox is empty and no projector is between its claim and its commit. -/
def Quiet (w : World) : Prop := w.outbox = [] ∧ ∀ p ∈ w.projectors, p.held = []

/-- The row of the database with this key still reads as the loaded row does. -/
def Current (rt : Runtime) (db : Database) (r : Row) : Prop :=
  ∃ r' ∈ rowsOf db, r'.table = r.table ∧ r'.key = r.key ∧ toGraphRow rt r' = toGraphRow rt r

instance (db : Database) : DecidablePred (Current rt db) := fun r =>
  inferInstanceAs (Decidable (∃ r' ∈ rowsOf db, r'.table = r.table ∧ r'.key = r.key ∧
    toGraphRow rt r' = toGraphRow rt r))

/-- The projector holds the event and has still to load its row, or has loaded it
as it is now and not written it yet. -/
def WillApply (rt : Runtime) (db : Database) (e : OutboxEvent) : Projector → Prop
  | .loading events todo rows => e ∈ events ∧
      (e.table ∈ todo ∨ ∃ r ∈ rows, r.table = e.table ∧ r.key = e.rowKey ∧ Current rt db r)
  | _ => False

instance (db : Database) (e : OutboxEvent) : DecidablePred (WillApply rt db e) := fun p =>
  match p with
  | .loading events todo rows => inferInstanceAs (Decidable (e ∈ events ∧
      (e.table ∈ todo ∨ ∃ r ∈ rows, r.table = e.table ∧ r.key = e.rowKey ∧ Current rt db r)))
  | .idle => isFalse id
  | .written _ => isFalse id

def Free (ps : List Projector) (e : OutboxEvent) : Prop := ∀ p ∈ ps, e ∉ p.held

instance (ps : List Projector) : DecidablePred (Free ps) := fun e =>
  inferInstanceAs (Decidable (∀ p ∈ ps, e ∉ p.held))

/-- An event of the row is claimed by nobody, or one of these projectors will apply it. -/
def Awaited (rt : Runtime) (w : World) (ps : List Projector) (r : Row) : Prop :=
  ∃ e ∈ w.outbox, e.table = r.table ∧ e.rowKey = r.key ∧
    (Free w.projectors e ∨ ∃ p ∈ ps, WillApply rt w.db e p)

instance (w : World) (ps : List Projector) : DecidablePred (Awaited rt w ps) := fun r =>
  inferInstanceAs (Decidable (∃ e ∈ w.outbox, e.table = r.table ∧ e.rowKey = r.key ∧
    (Free w.projectors e ∨ ∃ p ∈ ps, WillApply rt w.db e p)))

def loadedRows : Projector → List Row
  | .loading _ _ rows => rows
  | _ => []

/-- A write to the graph is in time: each of its rows is current, or an event of it
that this projector does not hold is still to be applied. -/
def Timely (rt : Runtime) (w : World) (e : Event) : Prop :=
  match e.action with
  | .write i => ∀ r ∈ (w.projectors[i]?).elim [] loadedRows,
      Current rt w.db r ∨ Awaited rt w (w.projectors.eraseIdx i) r
  | _ => True

instance (w : World) : DecidablePred (Timely rt w) := fun e =>
  match e with
  | ⟨_, .write i⟩ => inferInstanceAs (Decidable (∀ r ∈ (w.projectors[i]?).elim [] loadedRows,
      Current rt w.db r ∨ Awaited rt w (w.projectors.eraseIdx i) r))
  | ⟨_, .record _ _⟩ => isTrue trivial
  | ⟨_, .decide _ _⟩ => isTrue trivial
  | ⟨_, .register _ _⟩ => isTrue trivial
  | ⟨_, .startProjector⟩ => isTrue trivial
  | ⟨_, .claim _ _ _⟩ => isTrue trivial
  | ⟨_, .load _⟩ => isTrue trivial
  | ⟨_, .finish _⟩ => isTrue trivial
  | ⟨_, .crash _⟩ => isTrue trivial
  | ⟨_, .beginRead _ _⟩ => isTrue trivial
  | ⟨_, .read _⟩ => isTrue trivial

/-- The graph shows the row, or the row is still to be applied. -/
def Good (rt : Runtime) (w : World) (r : Row) : Prop :=
  Applied rt w.graph r ∨ Awaited rt w w.projectors r

theorem Current.later_eq {db : Database} (hdb : intact db = true) {r r' : Row}
    (h : Current rt db r) (hr' : r' ∈ rowsOf db) (htable : r'.table = r.table)
    (hkey : r'.key = r.key) : toGraphRow rt r' = toGraphRow rt r := by
  obtain ⟨r'', hr'', htable', hkey', hrow⟩ := h
  rw [eq_of_key_eq hdb hr' hr'' (htable.trans htable'.symm) (hkey.trans hkey'.symm), hrow]

/-- A row that the transaction leaves as it is stays current where it was loaded. -/
theorem WillApply.changes {db db' : Database} (hdb : intact db = true) {e : OutboxEvent}
    {r : Row} (hr : r ∈ rowsOf db)
    (hr' : r ∈ rowsOf db') (htable : e.table = r.table) (hkey : e.rowKey = r.key) {p : Projector}
    (h : WillApply rt db e p) : WillApply rt db' e p := by
  cases p with
  | loading events todo loaded =>
    refine ⟨h.1, h.2.imp id ?_⟩
    rintro ⟨r₀, hr₀, htable₀, hkey₀, hcurrent⟩
    have htable' : r.table = r₀.table := htable.symm.trans htable₀.symm
    have hkey' : r.key = r₀.key := hkey.symm.trans hkey₀.symm
    exact ⟨r₀, hr₀, htable₀, hkey₀, r, hr', htable', hkey',
      hcurrent.later_eq hdb hr htable' hkey'⟩
  | idle => exact h
  | written events => exact h

theorem good_published {w w' : World} {rows : List Row} {ids : List ℕ}
    (h : Published w w' rows ids) (hw : Coherent w) (hgood : ∀ r ∈ rowsOf w.db, Good rt w r) :
    ∀ r ∈ rowsOf w'.db, Good rt w' r := by
  intro r hr
  by_cases hnew : r ∈ rows
  · right
    obtain ⟨e, he, hnames⟩ := exists_event_of_mem h.length hnew
    obtain ⟨-, -, hid, -⟩ := mem_zipWith_trigger he
    refine ⟨e, ?_, hnames.table, hnames.key, Or.inl ?_⟩
    · rw [h.outbox]
      exact List.mem_append_right _ he
    · rw [h.projectors]
      intro p hp hheld
      exact h.fresh e.id hid (hw.issued e (hw.held p hp e hheld))
  · have hold : r ∈ rowsOf w.db := (h.changes.new r hr).resolve_right hnew
    rcases hgood r hold with happlied | ⟨e, he, htable, hkey, hwait⟩
    · left
      rw [h.graph]
      exact happlied
    · right
      refine ⟨e, ?_, htable, hkey, ?_⟩
      · rw [h.outbox]
        exact List.mem_append_left _ he
      · rw [h.projectors]
        exact hwait.imp id fun ⟨p, hp, happly⟩ =>
          ⟨p, hp, happly.changes hw.intact hold hr htable hkey⟩

theorem WillApply.mem_held {db : Database} {e : OutboxEvent} {p : Projector}
    (h : WillApply rt db e p) : e ∈ p.held := by
  cases p with
  | loading events todo rows => exact h.1
  | idle => exact h.elim
  | written events => exact h.elim

/-- Replacing a projector by one that holds no more leaves free events free. -/
theorem Free.set {ps : List Projector} {e : OutboxEvent} (h : Free ps e) {i : ℕ} {p' : Projector}
    (hp' : e ∉ p'.held) : Free (ps.set i p') e := by
  intro q hq
  rcases Processes.mem_set_cases hq with rfl | ⟨j, -, hj⟩
  · exact hp'
  · exact h q (List.mem_of_getElem? hj)

/-- After a projector has been replaced, the others will still do what they would. -/
theorem exists_willApply_set {db : Database} {ps : List Projector} {i : ℕ} {p p' : Projector}
    (hp : ps[i]? = some p) {e : OutboxEvent} (h : ∃ q ∈ ps, WillApply rt db e q)
    (hself : WillApply rt db e p → WillApply rt db e p') :
    ∃ q ∈ ps.set i p', WillApply rt db e q := by
  obtain ⟨q, hq, happly⟩ := h
  by_cases hqp : q = p
  · exact ⟨p', List.mem_set (List.getElem?_eq_some_iff.mp hp).1 _, hself (hqp ▸ happly)⟩
  · exact ⟨q, Processes.mem_set_of_ne hp hq hqp, happly⟩

theorem good_claim {w : World} {i : ℕ} {events : List OutboxEvent}
    (hp : w.projectors[i]? = some .idle) (hgood : ∀ r ∈ rowsOf w.db, Good rt w r) :
    ∀ r ∈ rowsOf w.db, Good rt (w.setProjector i
      (.loading events (tablesOf events) [])) r := by
  intro r hr
  rcases hgood r hr with happlied | ⟨e, he, htable, hkey, hfree | happly⟩
  · exact Or.inl happlied
  · right
    refine ⟨e, he, htable, hkey, ?_⟩
    by_cases hclaimed : e ∈ events
    · right
      refine ⟨_, List.mem_set (List.getElem?_eq_some_iff.mp hp).1 _, hclaimed, Or.inl ?_⟩
      exact table_mem_tablesOf hclaimed
    · exact Or.inl (hfree.set hclaimed)
  · exact Or.inr ⟨e, he, htable, hkey, Or.inr (exists_willApply_set hp happly fun h => h.elim)⟩

theorem good_load {w : World} {i : ℕ} {events : List OutboxEvent} {table : Table}
    {todo : List Table} {rows : List Row}
    (hp : w.projectors[i]? = some (.loading events (table :: todo) rows))
    (hgood : ∀ r ∈ rowsOf w.db, Good rt w r) :
    ∀ r ∈ rowsOf w.db, Good rt (w.setProjector i
      (.loading events todo (rows ++ loadTable w.db events table))) r := by
  intro r hr
  rcases hgood r hr with happlied | ⟨e, he, htable, hkey, hfree | happly⟩
  · exact Or.inl happlied
  · have hnot : e ∉ events := hfree _ (List.mem_of_getElem? hp)
    exact Or.inr ⟨e, he, htable, hkey, Or.inl (hfree.set hnot)⟩
  · refine Or.inr ⟨e, he, htable, hkey, Or.inr (exists_willApply_set hp happly ?_)⟩
    rintro ⟨hheld, htodo | ⟨r₀, hr₀, hcurrent⟩⟩
    · refine ⟨hheld, ?_⟩
      rcases List.mem_cons.mp htodo with heq | htodo
      · right
        refine ⟨r, List.mem_append_right _ ?_, htable.symm, hkey.symm, r, hr, rfl, rfl, rfl⟩
        exact mem_loadTable.mpr ⟨hr, htable.symm.trans heq, e, hheld, heq, hkey⟩
      · exact Or.inl htodo
    · exact ⟨hheld, Or.inr ⟨r₀, List.mem_append_left _ hr₀, hcurrent⟩⟩

/-- Writing the loaded rows shows a row that was loaded as it is now, and leaves
the rows that were not loaded. -/
theorem applied_write {db : Database} {events : List OutboxEvent} {todo : List Table}
    {rows : List Row} (hok : LoadingOk db events todo rows) {g : Graph} (hg : Tidy g) {r : Row}
    (h : (∃ r₀ ∈ rows, r₀.table = r.table ∧ r₀.key = r.key ∧ toGraphRow rt r₀ = toGraphRow rt r) ∨
      ((∀ r₀ ∈ rows, r₀.table = r.table → r₀.key ≠ r.key) ∧ Applied rt g r)) :
    Applied rt (apply (batchOf rt rows) g) r := by
  have hfrom : From rt rows (batchOf rt rows) := from_batchOf fun r hr => hr
  rw [apply_eq]
  rcases h with ⟨r₀, hr₀, htable, hkey, hrow⟩ | ⟨hnot, happlied⟩
  · have hagree : Agrees rt r (batchClauses (batchOf rt rows)) := by
      refine ⟨hfrom.fits, ?_⟩
      intro c hc
      obtain ⟨r', hr', hc⟩ := exists_of_mem_batchClauses hfrom hc
      refine ⟨r', hc, fun htable' hkey' => ?_⟩
      rw [hok.once r' hr' r₀ hr₀ (htable'.trans htable.symm) (hkey'.trans hkey.symm), hrow]
    refine applied_executeAll hg hagree fun c hc => ?_
    have hstatement : statement rt r = statement rt r₀ := by
      rw [statement, statement, htable, hrow]
    exact mem_batchClauses (mem_batchOf.mpr ⟨r₀, hr₀, rfl, rfl⟩) (hstatement ▸ hc)
  · refine happlied.executeAll hg ⟨hfrom.fits, ?_⟩
    intro c hc
    obtain ⟨r', hr', hc⟩ := exists_of_mem_batchClauses hfrom hc
    exact ⟨r', hc, fun htable' hkey' => absurd hkey' (hnot r' hr' htable')⟩

theorem good_write {w : World} {i : ℕ} {events : List OutboxEvent} {rows : List Row}
    (hw : Coherent w) (hp : w.projectors[i]? = some (.loading events [] rows))
    (htimely : ∀ r ∈ rows, Current rt w.db r ∨ Awaited rt w (w.projectors.eraseIdx i) r)
    (hgood : ∀ r ∈ rowsOf w.db, Good rt w r) :
    ∀ r ∈ rowsOf w.db, Good rt (w.writeGraph rt i events rows) r := by
  have hok := hw.loading _ _ _ (List.mem_of_getElem? hp)
  have hfree : ∀ e, Free w.projectors e → Free (w.projectors.set i (.written events)) e := by
    intro e h
    have hnot : e ∉ events := h _ (List.mem_of_getElem? hp)
    exact h.set hnot
  intro r hr
  by_cases hloaded : ∃ r₀ ∈ rows, r₀.table = r.table ∧ r₀.key = r.key
  · obtain ⟨r₀, hr₀, htable₀, hkey₀⟩ := hloaded
    rcases htimely r₀ hr₀ with hcurrent | ⟨e, he, htable, hkey, hwait⟩
    · left
      refine applied_write hok hw.tidy (Or.inl ⟨r₀, hr₀, htable₀, hkey₀, ?_⟩)
      exact (hcurrent.later_eq hw.intact hr htable₀.symm hkey₀.symm).symm
    · right
      refine ⟨e, he, htable.trans htable₀, hkey.trans hkey₀, hwait.imp (hfree e) ?_⟩
      rintro ⟨q, hq, happly⟩
      obtain ⟨j, hij, hj⟩ := List.mem_eraseIdx_iff_getElem?.mp hq
      refine ⟨q, List.mem_iff_getElem?.mpr ⟨j, ?_⟩, happly⟩
      show (w.projectors.set i _)[j]? = some q
      rw [List.getElem?_set, if_neg (Ne.symm hij), hj]
  · have hnot : ∀ r₀ ∈ rows, r₀.table = r.table → r₀.key ≠ r.key :=
      fun r₀ hr₀ htable hkey => hloaded ⟨r₀, hr₀, htable, hkey⟩
    rcases hgood r hr with happlied | ⟨e, he, htable, hkey, hwait⟩
    · exact Or.inl (applied_write hok hw.tidy (Or.inr ⟨hnot, happlied⟩))
    · right
      refine ⟨e, he, htable, hkey, hwait.imp (hfree e) fun h => exists_willApply_set hp h ?_⟩
      rintro ⟨-, htodo | ⟨r₀, hr₀, htable₀, hkey₀, -⟩⟩
      · exact absurd htodo List.not_mem_nil
      · exact absurd (hkey₀.trans hkey) (hnot r₀ hr₀ (htable₀.trans htable))

theorem good_finish {w : World} {i : ℕ} {events : List OutboxEvent} (hw : Coherent w)
    (hp : w.projectors[i]? = some (.written events)) (hgood : ∀ r ∈ rowsOf w.db, Good rt w r) :
    ∀ r ∈ rowsOf w.db, Good rt (w.commitClaim i events) r := by
  have hdelete : ∀ e ∈ w.outbox, e ∉ events →
      e ∈ Outbox.delete OutboxEvent.id w.outbox events := by
    intro e he hnot
    refine Outbox.mem_delete.mpr ⟨he, fun e' he' hid => hnot ?_⟩
    have heq := Outbox.eq_of_id_eq hw.ids (hw.held _ (List.mem_of_getElem? hp) e' he') he hid
    exact heq ▸ he'
  intro r hr
  rcases hgood r hr with happlied | ⟨e, he, htable, hkey, hfree | ⟨q, hq, happly⟩⟩
  · exact Or.inl happlied
  · exact Or.inr ⟨e, hdelete e he (hfree _ (List.mem_of_getElem? hp)), htable, hkey,
      Or.inl (hfree.set List.not_mem_nil)⟩
  · right
    have hne : q ≠ .written events := by
      rintro rfl
      exact happly
    obtain ⟨j, hj⟩ := List.mem_iff_getElem?.mp hq
    have hij : i ≠ j := by
      rintro rfl
      exact hne (Option.some.inj (hj.symm.trans hp))
    refine ⟨e, hdelete e he ?_, htable, hkey, Or.inr ⟨q, Processes.mem_set_of_ne hp hq hne, happly⟩⟩
    exact fun hheld => hw.apart i j _ q hp hj hij e hheld e happly.mem_held rfl

theorem good_crash {w : World} {i : ℕ} {p : Projector} (hw : Coherent w)
    (hp : w.projectors[i]? = some p) (hgood : ∀ r ∈ rowsOf w.db, Good rt w r) :
    ∀ r ∈ rowsOf w.db, Good rt (w.setProjector i .idle) r := by
  intro r hr
  rcases hgood r hr with happlied | ⟨e, he, htable, hkey, hfree | ⟨q, hq, happly⟩⟩
  · exact Or.inl happlied
  · exact Or.inr ⟨e, he, htable, hkey, Or.inl (hfree.set List.not_mem_nil)⟩
  · right
    refine ⟨e, he, htable, hkey, ?_⟩
    by_cases hqp : q = p
    · left
      intro q' hq' hheld
      rcases Processes.mem_set_cases hq' with rfl | ⟨j, hij, hj⟩
      · exact absurd hheld List.not_mem_nil
      · exact hw.apart i j p q' hp hj hij e (hqp ▸ happly.mem_held) e hheld rfl
    · exact Or.inr ⟨q, Processes.mem_set_of_ne hp hq hqp, happly⟩

/-- A step that is in time keeps every row shown or still to be applied. -/
theorem good_step {w w' : World} {e : Event} (hw : Coherent w)
    (hgood : ∀ r ∈ rowsOf w.db, Good rt w r) (htimely : Timely rt w e)
    (h : step rt w e = some w') : ∀ r ∈ rowsOf w'.db, Good rt w' r := by
  obtain ⟨clock, action⟩ := e
  cases step_cases h with
  | published hpublished => exact good_published hpublished hw hgood
  | started =>
    intro r hr
    refine (hgood r hr).imp id fun ⟨e, he, htable, hkey, hwait⟩ => ⟨e, he, htable, hkey, ?_⟩
    refine hwait.imp (fun hfree p hp => ?_) fun ⟨p, hp, happly⟩ =>
      ⟨p, List.mem_append_left _ hp, happly⟩
    rcases List.mem_append.mp hp with hp | hp
    · exact hfree p hp
    · rw [List.mem_singleton.mp hp]
      exact List.not_mem_nil
  | asked ctx versionId => exact hgood
  | read i call phase hcall hphase => exact hgood
  | projected i p hp hprojected =>
    cases hprojected with
    | claim batchSize org events hidle hevents =>
      subst hidle
      exact good_claim hp hgood
    | load events table todo rows hloading =>
      subst hloading
      exact good_load hp hgood
    | write events rows hloading =>
      subst hloading
      change ∀ r ∈ (w.projectors[i]?).elim [] loadedRows, _ at htimely
      rw [hp] at htimely
      rw [World.writeGraph_db]
      exact good_write hw hp htimely hgood
    | finish events hwritten =>
      subst hwritten
      exact good_finish hw hp hgood
    | crash => exact good_crash hw hp hgood

theorem applyAll_singleton (batch : Batch) (g : Graph) : applyAll [batch] g = apply batch g := rfl

theorem settled_projection {db : Database} (hdb : intact db = true) :
    Settled rt (rowsOf db) (projection rt db) := by
  have hrows : Consistent rt (rowsOf db) := by
    intro r hr r' hr' htable hkey
    rw [eq_of_key_eq hdb hr hr' htable hkey]
  have hdelivers : Delivers rt (rowsOf db) ([rowsOf db].map (batchOf rt)) :=
    delivers_batchOf (by simp) (by simp)
  have hsettled := settled_applyAll hrows hdelivers
  rwa [List.map_cons, List.map_nil, applyAll_singleton] at hsettled

/-- In every run whose writes are in time, the graph is the projection of the
current rows whenever the outbox is empty and no projector is at work. -/
theorem graph_converges {w₀ w : World} {trace : List Event} (hstart : Start w₀)
    (hrun : (system rt).run w₀ trace = some w)
    (hmeets : (system rt).RunMeets (Timely rt) w₀ trace) (hquiet : Quiet w) :
    w.graph.Same (projection rt w.db) := by
  have hinv : Coherent w ∧ ∀ r ∈ rowsOf w.db, Good rt w r := by
    refine (system rt).run_preserves_of_meets (Timely rt)
      (fun w => Coherent w ∧ ∀ r ∈ rowsOf w.db, Good rt w r) ?_ hrun hmeets ?_
    · intro s e s' hs hallowed hstep
      exact ⟨coherent_step hstep hs.1, good_step hs.1 hs.2 hallowed hstep⟩
    · refine ⟨coherent_start hstart, ?_⟩
      rw [hstart.rows]
      exact fun r hr => absurd hr List.not_mem_nil
  obtain ⟨hcoherent, hgood⟩ := hinv
  have hsettled : Settled rt (rowsOf w.db) w.graph := by
    refine ⟨hcoherent.tidy, hcoherent.sourced, fun r hr => ?_⟩
    rcases hgood r hr with happlied | ⟨e, he, -⟩
    · exact happlied
    · rw [hquiet.1] at he
      exact absurd he List.not_mem_nil
  exact same_of_settled (closed_of_intact hcoherent.intact) hsettled
    (settled_projection hcoherent.intact)

/-- A projector has loaded a version before it is superseded; a second one then
loads it with its end. -/
def exampleLoaded : List Event :=
  [⟨0, .register ⟨[⟨3, 1, "crm", .systemOfRecord, none, 50, 0⟩], [], []⟩ [1]⟩] ++
    exampleRecording 0 true 10 ⟨10, 11, 12⟩ [2, 3, 4] ++
    ([.startProjector, .startProjector, .claim 0 100 none, .load 0, .load 0, .load 0,
      .load 0] : List Action).map (⟨20, ·⟩) ++
    exampleRecording 1 false 30 ⟨20, 21, 22⟩ [5, 6] ++
    ([.claim 1 100 none, .load 1] : List Action).map (⟨40, ·⟩)

/-- The old row is written first. -/
def exampleInOrder : List Event :=
  exampleLoaded ++ ([.write 0, .write 1, .finish 1, .finish 0] : List Action).map (⟨50, ·⟩)

/-- The old row is written last. -/
def exampleOvertaken : List Event :=
  exampleLoaded ++ ([.write 1, .finish 1, .write 0, .finish 0] : List Action).map (⟨50, ·⟩)

theorem exampleInOrder_runs :
    ((system exampleRuntime).run exampleStart exampleInOrder).isSome = true := by
  decide +kernel

theorem exampleOvertaken_runs :
    ((system exampleRuntime).run exampleStart exampleOvertaken).isSome = true := by
  decide +kernel

def exampleConverged : World :=
  ((system exampleRuntime).run exampleStart exampleInOrder).get exampleInOrder_runs

def exampleStale : World :=
  ((system exampleRuntime).run exampleStart exampleOvertaken).get exampleOvertaken_runs

theorem exampleConverged_quiet : Quiet exampleConverged := by
  refine ⟨?_, ?_⟩
  · decide +kernel
  · decide +kernel

theorem exampleStale_quiet : Quiet exampleStale := by
  refine ⟨?_, ?_⟩
  · decide +kernel
  · decide +kernel

theorem graph_converges_example :
    exampleConverged.graph.Same (projection exampleRuntime exampleConverged.db) :=
  graph_converges exampleStart_start (Option.some_get exampleInOrder_runs).symm
    (by decide +kernel) exampleConverged_quiet

/-- The node of the version in the graph has no end, although the row has one. -/
theorem graph_overtaken : ∃ w, (system exampleRuntime).Reachable w ∧ Quiet w ∧
    ¬ w.graph.Same (projection exampleRuntime w.db) := by
  refine ⟨exampleStale, ⟨exampleStart, exampleOvertaken, exampleStart_start,
    (Option.some_get exampleOvertaken_runs).symm⟩, exampleStale_quiet, ?_⟩
  let k : NodeKey := (.factVersion, some (.uuid 12))
  have hopen : ∀ n ∈ exampleStale.graph.nodes, n.key = k → n.props .validUntil = none := by
    decide +kernel
  have hclosed : ∃ n ∈ (projection exampleRuntime exampleStale.db).nodes,
      n.key = k ∧ n.props .validUntil ≠ none := by
    decide +kernel
  intro hsame
  obtain ⟨n, hn, hkey, hend⟩ := hclosed
  exact hend (hopen n (hsame.1.mem_iff.mpr hn) hkey)

end ContextLedger.GraphConvergence
