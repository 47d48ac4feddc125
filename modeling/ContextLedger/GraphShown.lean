import ContextLedger.GraphCoherence

/-!
What the graph has once an event is gone. The keys of a row's node and
relationships are in the graph unless an event of the row is pending, and every
node carries the organization of its row: the foreign keys give both ends of a
relationship the same one. Versions supersede versions with a smaller number, so
the relationships between them do not go round in a circle.
-/
namespace ContextLedger.GraphShown

open Values Schema Facts MergeStore Projection ProjectionOrder GraphWorld GraphCoherence
open VersionTable Recording

/-- The keys of the row's node, of its far ends and of its relationships. -/
structure Present (g : Graph) (r : Row) : Prop where
  own : ∀ k, ownKey r = some k → (lookup g.nodes k).isSome
  far : ∀ k ∈ farKeys r, (lookup g.nodes k).isSome
  linked : ∀ k ∈ links r, (lookup g.relationships k).isSome

theorem Present.alike {g : Graph} {r r' : Row} (h : Present g r) (halike : Alike r r') :
    Present g r' := by
  refine ⟨?_, ?_, ?_⟩
  · rw [← halike.ownKey]
    exact h.own
  · rw [← halike.farKeys]
    exact h.far
  · rw [← halike.links]
    exact h.linked

/-- Nothing is ever taken out of the graph. -/
theorem Present.executeAll {g : Graph} {r : Row} (h : Present g r) (cs : List Clause) :
    Present (executeAll g cs) r := by
  refine ⟨fun k hk => ?_, fun k hk => ?_, fun k hk => ?_⟩
  · rw [executeAll_nodes, lookup_mergeAll_isSome]
    exact Or.inl (h.own k hk)
  · rw [executeAll_nodes, lookup_mergeAll_isSome]
    exact Or.inl (h.far k hk)
  · rw [executeAll_relationships, lookup_mergeAll_isSome]
    exact Or.inl (h.linked k hk)

theorem Present.apply {g : Graph} {r : Row} (h : Present g r) (batch : Batch) :
    Present (apply batch g) r := by
  rw [apply_eq]
  exact h.executeAll _

theorem present_of_mem {rt : Runtime} {rows : List Row} {r : Row} (hr : r ∈ rows) (g : Graph) :
    Present (apply (batchOf rt rows) g) r := by
  have hclause : ∀ c ∈ statement rt r, c ∈ batchClauses (batchOf rt rows) :=
    fun c hc => mem_batchClauses (mem_batchOf.mpr ⟨r, hr, rfl, rfl⟩) hc
  rw [apply_eq]
  refine ⟨fun k hk => ?_, fun k hk => ?_, fun k hk => ?_⟩
  · rw [executeAll_nodes, lookup_mergeAll_isSome]
    exact Or.inr ⟨_, mem_nodeOf.mpr (hclause _ (mem_statement.mpr (Or.inl ⟨k, hk, rfl⟩))), rfl⟩
  · rw [executeAll_nodes, lookup_mergeAll_isSome]
    exact Or.inr ⟨_, mem_nodeOf.mpr
      (hclause _ (mem_statement.mpr (Or.inr (Or.inl ⟨k, hk, rfl⟩)))), rfl⟩
  · rw [executeAll_relationships, lookup_mergeAll_isSome]
    exact Or.inr ⟨_, mem_relationshipOf.mpr
      (hclause _ (mem_statement.mpr (Or.inr (Or.inr ⟨k, hk, rfl⟩)))), rfl⟩

theorem eq_of_ownKey_eq {db : Database} (hdb : intact db = true) {r r' : Row}
    (hr : r ∈ rowsOf db) (hr' : r' ∈ rowsOf db) {k : NodeKey} (hk : ownKey r = some k)
    (hk' : ownKey r' = some k) : r = r' := by
  have hrow := Option.some.inj ((nodeRow_ownKey hk).symm.trans (nodeRow_ownKey hk'))
  exact eq_of_key_eq hdb hr hr' (congrArg Prod.fst hrow) (congrArg Prod.snd hrow)

/-- Both ends of a foreign key belong to one organization. -/
theorem org_of_farKeys {db : Database} (hdb : intact db = true) {r r' : Row}
    (hr : r ∈ rowsOf db) (hr' : r' ∈ rowsOf db) {k : NodeKey} (hfar : k ∈ farKeys r)
    (hown : ownKey r' = some k) : r'.org = r.org := by
  have hclosed := closed_of_intact hdb
  have hsame : ∀ {r₁ : Row}, r₁ ∈ rowsOf db → ownKey r₁ = some k → r'.org = r₁.org :=
    fun hr₁ hk => by rw [eq_of_ownKey_eq hdb hr' hr₁ hown hk]
  have href := hclosed r hr
  cases r with
  | entity row => exact absurd hfar List.not_mem_nil
  | fact row =>
    obtain rfl := List.mem_singleton.mp hfar
    obtain ⟨e, he, horg, hid⟩ := href
    exact (hsame he (by rw [ownKey, hid])).trans horg
  | factSource row => exact absurd hfar List.not_mem_nil
  | factVersion row =>
    obtain ⟨⟨f, hf, hforg, hfid⟩, ⟨s, hs, hsorg, hsid⟩, hprevious⟩ := href
    simp only [farKeys, List.mem_append, List.mem_cons, List.not_mem_nil, or_false, List.mem_map,
      Option.mem_toList] at hfar
    rcases hfar with (rfl | rfl) | ⟨previous, hid, rfl⟩
    · exact (hsame hf (by rw [ownKey, hfid])).trans hforg
    · exact (hsame hs (by rw [ownKey, hsid])).trans hsorg
    · obtain ⟨v, hv, hvfact, hvid⟩ := hprevious previous hid
      obtain ⟨⟨f', hf', hforg', hfid'⟩, -, -⟩ := hclosed _ hv
      have hff : Row.fact f' = Row.fact f :=
        eq_of_key_eq hdb hf' hf rfl (by rw [Row.key, Row.key, hfid', hfid, hvfact])
      obtain rfl := Row.fact.inj hff
      exact (hsame hv (by rw [ownKey, hvid])).trans (hforg'.symm.trans hforg)
  | evidence row =>
    obtain rfl := List.mem_singleton.mp hfar
    obtain ⟨s, hs, horg, hid⟩ := href
    exact (hsame hs (by rw [ownKey, hid])).trans horg
  | factVersionEvidence row =>
    obtain ⟨⟨v, hv, hvorg, hvid⟩, ⟨e, he, heorg, heid⟩⟩ := href
    simp only [farKeys, List.mem_cons, List.not_mem_nil, or_false] at hfar
    rcases hfar with rfl | rfl
    · exact (hsame he (by rw [ownKey, heid])).trans heorg
    · exact (hsame hv (by rw [ownKey, hvid])).trans hvorg
  | contextSnapshot row => exact absurd hfar List.not_mem_nil
  | contextSnapshotFact row =>
    obtain ⟨⟨n, hn, hnorg, hnid⟩, ⟨v, hv, hvorg, hvid⟩⟩ := href
    simp only [farKeys, List.mem_cons, List.not_mem_nil, or_false] at hfar
    rcases hfar with rfl | rfl
    · exact (hsame hn (by rw [ownKey, hnid])).trans hnorg
    · exact (hsame hv (by rw [ownKey, hvid])).trans hvorg
  | decision row =>
    obtain rfl := List.mem_singleton.mp hfar
    obtain ⟨n, hn, horg, hid⟩ := href
    exact (hsame hn (by rw [ownKey, hid])).trans horg
  | decisionFact row =>
    obtain ⟨⟨d, hd, hdorg, hdid, hdsnapshot⟩, ⟨i, hi, hisnapshot, hiv⟩⟩ := href
    simp only [farKeys, List.mem_cons, List.not_mem_nil, or_false] at hfar
    rcases hfar with rfl | rfl
    · exact (hsame hd (by rw [ownKey, hdid])).trans hdorg
    · obtain ⟨n, hn, hnorg, hnid⟩ := hclosed _ hd
      obtain ⟨⟨n', hn', hnorg', hnid'⟩, v, hv, hvorg, hvid⟩ := hclosed _ hi
      have hnn : Row.contextSnapshot n' = Row.contextSnapshot n :=
        eq_of_key_eq hdb hn' hn rfl
          (by rw [Row.key, Row.key, hnid', hnid, hisnapshot, hdsnapshot])
      obtain rfl := Row.contextSnapshot.inj hnn
      have horg : v.organizationId = row.organizationId := by
        rw [hvorg, ← hnorg', hnorg, hdorg]
      exact (hsame hv (by rw [ownKey, hvid, hiv])).trans horg

theorem assign_pick {props : Props Field Value} {r : GraphRow} {fields : List Field} {f : Field}
    (hf : f ∈ fields) : assign props (r.pick fields) f = r.get f := by
  induction fields generalizing props with
  | nil => exact absurd hf List.not_mem_nil
  | cons field fields ih =>
    rw [GraphRow.pick, List.map_cons, assign]
    by_cases hrest : f ∈ fields
    · exact ih hrest
    · obtain rfl : f = field := (List.mem_cons.mp hf).resolve_right hrest
      have hnot : f ∉ (GraphRow.pick r fields).map Prod.fst := by
        rw [pick_fields]
        exact hrest
      exact (assign_of_notMem hnot).trans (Function.update_self _ _ _)

theorem get_org (rt : Runtime) (r : Row) : (toGraphRow rt r).get .org = some (.uuid r.org) := by
  cases r <;> rfl

/-- The node carries the organization of its row. -/
def OrgOk (db : Database) (k : NodeKey) (props : Props Field Value) : Prop :=
  ∀ r ∈ rowsOf db, ownKey r = some k → props .org = some (.uuid r.org)

theorem orgOk_apply {rt : Runtime} {db : Database} (hdb : intact db = true) {rows : List Row}
    (hpast : ∀ r ∈ rows, ∃ r' ∈ rowsOf db, Later r r') {g : Graph}
    (hg : ∀ k props, lookup g.nodes k = some props → OrgOk db k props) :
    ∀ k props, lookup (apply (batchOf rt rows) g).nodes k = some props → OrgOk db k props := by
  have hfrom : From rt rows (batchOf rt rows) := from_batchOf fun r hr => hr
  have horg : ∀ {r₀ : Row}, r₀ ∈ rows → ∀ {k : NodeKey}, (ownKey r₀ = some k ∨ k ∈ farKeys r₀) →
      ∀ r ∈ rowsOf db, ownKey r = some k → r.org = r₀.org := by
    intro r₀ hr₀ k hk r hr hown
    obtain ⟨r', hr', hlater⟩ := hpast r₀ hr₀
    rw [hlater.alike.org]
    rw [hlater.alike.ownKey, hlater.alike.farKeys] at hk
    rcases hk with hk | hk
    · rw [eq_of_ownKey_eq hdb hr hr' hown hk]
    · exact org_of_farKeys hdb hr' hr hk hown
  have hsource : ∀ m ∈ (batchClauses (batchOf rt rows)).filterMap nodeOf,
      ∃ r₀ ∈ rows, (ownKey r₀ = some m.key ∧ m = ownMerge rt r₀ m.key) ∨
        (m.key ∈ farKeys r₀ ∧ m = farMerge r₀ m.key) := by
    intro m hm
    obtain ⟨r₀, hr₀, hc⟩ := exists_of_mem_batchClauses hfrom (mem_nodeOf.mp hm)
    refine ⟨r₀, hr₀, ?_⟩
    rcases mem_statement.mp hc with ⟨k, hk, heq⟩ | ⟨k, hk, heq⟩ | ⟨k, -, heq⟩
    · obtain rfl := Clause.node.inj heq
      exact Or.inl ⟨hk, rfl⟩
    · obtain rfl := Clause.node.inj heq
      exact Or.inr ⟨hk, rfl⟩
    · exact absurd heq (by simp)
  have hset : ∀ (r₀ : Row) (k : NodeKey) (props : Props Field Value),
      assign props (ownMerge rt r₀ k).set .org = some (.uuid r₀.org) := by
    intro r₀ k props
    show assign props ((toGraphRow rt r₀).pick (labelFields k.1)) .org = _
    rw [assign_pick (org_mem_labelFields k.1), get_org]
  rw [apply_eq, executeAll_nodes]
  refine lookup_mergeAll_forall hg ?_ ?_
  · intro m hm r hr hown
    obtain ⟨r₀, hr₀, ⟨hk, heq⟩ | ⟨hk, heq⟩⟩ := hsource m hm
    · rw [horg hr₀ (Or.inl hk) r hr hown, heq]
      exact hset r₀ m.key _
    · rw [horg hr₀ (Or.inr hk) r hr hown, heq]
      rfl
  · intro m hm props hprops r hr hown
    obtain ⟨r₀, hr₀, ⟨hk, heq⟩ | ⟨hk, heq⟩⟩ := hsource m hm
    · rw [horg hr₀ (Or.inl hk) r hr hown, heq]
      exact hset r₀ m.key _
    · rw [heq]
      exact hprops r hr hown

structure Shown (w : World) : Prop where
  rows : ∀ r ∈ rowsOf w.db, Present w.graph r ∨ ∃ e ∈ w.outbox, Names e r
  written : ∀ events, Projector.written events ∈ w.projectors →
    ∀ e ∈ events, ∀ r ∈ rowsOf w.db, Names e r → Present w.graph r
  orgs : ∀ k props, lookup w.graph.nodes k = some props → OrgOk w.db k props

theorem shown_published {w w' : World} {rows : List Row} {ids : List ℕ}
    (h : Published w w' rows ids) (hw : Coherent w) (hshown : Shown w) : Shown w' := by
  have hpresent : ∀ {r : Row}, r ∈ rowsOf w'.db → ∀ {r₀ : Row}, r₀ ∈ rowsOf w.db →
      r₀.table = r.table → r₀.key = r.key → Present w.graph r₀ → Present w'.graph r := by
    intro r hr r₀ hr₀ htable hkey hpresent
    obtain ⟨r', hr', hlater, -⟩ := h.changes.kept r₀ hr₀
    have heq : r' = r := eq_of_key_eq h.intact hr' hr
      (hlater.alike.table.symm.trans htable) (hlater.alike.key.symm.trans hkey)
    rw [h.graph, ← heq]
    exact hpresent.alike hlater.alike
  refine ⟨?_, ?_, ?_⟩
  · intro r hr
    rcases h.changes.new r hr with hold | hnew
    · rcases hshown.rows r hold with hp | ⟨e, he, hnames⟩
      · exact Or.inl (hpresent hr hold rfl rfl hp)
      · exact Or.inr ⟨e, by rw [h.outbox]; exact List.mem_append_left _ he, hnames⟩
    · obtain ⟨e, he, hnames⟩ := exists_event_of_mem h.length hnew
      exact Or.inr ⟨e, by rw [h.outbox]; exact List.mem_append_right _ he, hnames⟩
  · intro events hp e he r hr hnames
    rw [h.projectors] at hp
    obtain ⟨r₀, hr₀, hnames₀⟩ := hw.events e (hw.held _ hp e he)
    exact hpresent hr hr₀ (hnames₀.table.symm.trans hnames.table)
      (hnames₀.key.symm.trans hnames.key) (hshown.written events hp e he r₀ hr₀ hnames₀)
  · intro k props hprops r hr hown
    rw [h.graph] at hprops
    have hsettled : ∃ r₀ ∈ rowsOf w.db, ownKey r₀ = some k := by
      obtain ⟨r₁, hr₁, hk | hk⟩ := hw.sourced.nodes k (by rw [hprops]; rfl)
      · exact ⟨r₁, hr₁, hk⟩
      · exact exists_ownKey_of_closed (closed_of_intact hw.intact) hr₁ hk
    obtain ⟨r₀, hr₀, hown₀⟩ := hsettled
    obtain ⟨r', hr', hlater, -⟩ := h.changes.kept r₀ hr₀
    have heq : r' = r :=
      eq_of_ownKey_eq h.intact hr' hr (hlater.alike.ownKey.symm.trans hown₀) hown
    rw [← heq, ← hlater.alike.org]
    exact hshown.orgs k props hprops r₀ hr₀ hown₀

theorem shown_projected {rt : Runtime} {w w' : World} {i : ℕ} {p : Projector} {action : Action}
    (hp : w.projectors[i]? = some p) (h : Projected rt w i p action w') (hw : Coherent w)
    (hshown : Shown w) : Shown w' := by
  have hmem := List.mem_of_getElem? hp
  have hothers : ∀ {p' : Projector}, (∀ events, p' ≠ .written events) → ∀ events,
      Projector.written events ∈ w.projectors.set i p' →
      ∀ e ∈ events, ∀ r ∈ rowsOf w.db, Names e r → Present w.graph r := by
    intro p' hp' events hset
    rcases Processes.mem_set_cases hset with heq | ⟨j, -, hj⟩
    · exact absurd heq.symm (hp' events)
    · exact hshown.written events (List.mem_of_getElem? hj)
  cases h with
  | claim batchSize org events hidle hevents =>
    exact ⟨hshown.rows, hothers (by simp), hshown.orgs⟩
  | load events table todo rows hloading => exact ⟨hshown.rows, hothers (by simp), hshown.orgs⟩
  | write events rows hloading =>
    subst hloading
    have hok := hw.loading _ _ _ hmem
    refine ⟨?_, ?_, ?_⟩
    · rw [World.writeGraph_db]
      intro r hr
      exact (hshown.rows r hr).imp (fun hpresent => hpresent.apply _) id
    · rw [World.writeGraph_db]
      intro events' hset e he r hr hnames
      rcases Processes.mem_set_cases hset with heq | ⟨j, -, hj⟩
      · obtain rfl := Projector.written.inj heq
        obtain ⟨r₀, hr₀, htable, hkey⟩ := hok.loaded e he List.not_mem_nil
        obtain ⟨r', hr', hlater⟩ := hok.past r₀ hr₀
        have heq : r' = r := eq_of_key_eq hw.intact hr' hr
          (hlater.alike.table.symm.trans (htable.trans hnames.table))
          (hlater.alike.key.symm.trans (hkey.trans hnames.key))
        exact heq ▸ (present_of_mem hr₀ w.graph).alike hlater.alike
      · exact (hshown.written events' (List.mem_of_getElem? hj) e he r hr hnames).apply _
    · rw [World.writeGraph_db]
      exact orgOk_apply hw.intact hok.past hshown.orgs
  | finish events hwritten =>
    subst hwritten
    refine ⟨?_, hothers (by simp), hshown.orgs⟩
    intro r hr
    rcases hshown.rows r hr with hpresent | ⟨e, he, hnames⟩
    · exact Or.inl hpresent
    · by_cases hdone : ∃ e' ∈ events, e'.id = e.id
      · obtain ⟨e', he', hid⟩ := hdone
        have heq : e' = e := Outbox.eq_of_id_eq hw.ids (hw.held _ hmem e' he') he hid
        exact Or.inl (hshown.written events hmem e (heq ▸ he') r hr hnames)
      · refine Or.inr ⟨e, Outbox.mem_delete.mpr ⟨he, ?_⟩, hnames⟩
        exact fun e' he' hid => hdone ⟨e', he', hid⟩
  | crash => exact ⟨hshown.rows, hothers (by simp), hshown.orgs⟩

theorem shown_step {rt : Runtime} {w w' : World} {e : Event} (h : step rt w e = some w')
    (hw : Coherent w) (hshown : Shown w) : Shown w' := by
  obtain ⟨clock, action⟩ := e
  cases step_cases h with
  | published hpublished => exact shown_published hpublished hw hshown
  | started =>
    refine ⟨hshown.rows, ?_, hshown.orgs⟩
    intro events hp
    rcases List.mem_append.mp hp with hp | hp
    · exact hshown.written events hp
    · exact absurd (List.mem_singleton.mp hp) (by simp)
  | asked ctx versionId => exact ⟨hshown.rows, hshown.written, hshown.orgs⟩
  | read i call phase hcall hphase => exact ⟨hshown.rows, hshown.written, hshown.orgs⟩
  | projected i p hp hprojected => exact shown_projected hp hprojected hw hshown

theorem shown_start {w : World} (h : Start w) : Shown w := by
  refine ⟨?_, ?_, ?_⟩
  · rw [h.rows]
    exact fun r hr => absurd hr List.not_mem_nil
  · rw [h.projectors]
    exact fun events hp => absurd hp List.not_mem_nil
  · rw [h.graph]
    exact fun k props hprops => absurd hprops (by simp [Graph.empty, lookup_nil])

/-- What is superseded is a version with a smaller number. -/
def Older (db : Database) (supersedesId : Option Uuid) (version : ℕ) : Prop :=
  ∀ previous, supersedesId = some previous →
    ∃ u ∈ db.versions, u.id = previous ∧ u.version < version

theorem Older.changes {db db' : Database} {rows : List Row} (hchanges : Changes db db' rows)
    {supersedesId : Option Uuid} {version : ℕ} (h : Older db supersedesId version) :
    Older db' supersedesId version := by
  intro previous hprevious
  obtain ⟨u, hu, hid, hlt⟩ := h previous hprevious
  obtain ⟨r', hr', hlater, -⟩ := hchanges.kept (.factVersion u) (mem_rowsOf.mpr hu)
  rcases hlater with rfl | ⟨v, t, t', hv, rfl⟩
  · exact ⟨u, mem_rowsOf.mp hr', hid, hlt⟩
  · obtain rfl := Row.factVersion.inj hv
    exact ⟨_, mem_rowsOf.mp hr', hid, hlt⟩

def RecorderOk (db : Database) : Concurrent.Txn → Prop
  | .record _ _ _ (.planned _ latest plan) => Older db (latest.map FactVersion.id) plan.version
  | .record _ _ _ (.stamped _ latest plan _) => Older db (latest.map FactVersion.id) plan.version
  | .record _ _ _ (.written write) => Older db write.version.supersedesId write.version.version
  | _ => True

theorem RecorderOk.changes {db db' : Database} {rows : List Row} (hchanges : Changes db db' rows)
    {t : Concurrent.Txn} (h : RecorderOk db t) : RecorderOk db' t := by
  unfold RecorderOk at h ⊢
  split
  · exact Older.changes hchanges h
  · exact Older.changes hchanges h
  · exact Older.changes hchanges h
  · trivial

theorem recorderOk_orRollBack {α : Type} {db : Database} {result : Result α}
    {next : α → Concurrent.Txn} (h : ∀ a, result = .ok a → RecorderOk db (next a)) :
    RecorderOk db (Concurrent.orRollBack result next) := by
  cases result with
  | error failure => trivial
  | ok a => exact h a rfl

theorem older_plan {db : Database} {org factId : Uuid} {d : Draft} {plan : FactRules.VersionPlan}
    (h : planVersion (latestVersion db org factId) d = .ok plan) :
    Older db ((latestVersion db org factId).map FactVersion.id) plan.version := by
  intro previous hprevious
  obtain ⟨v, hv, rfl⟩ := Option.map_eq_some_iff.mp hprevious
  rw [hv] at h
  have hmem : v ∈ versionsOf db org factId := List.argmax_mem hv
  exact ⟨v, (List.mem_filter.mp hmem).1, rfl, by rw [(planVersion_some h).1]; omega⟩

theorem recorderOk_stepTxn {db : Database} {clock : Instant} {t t' : Concurrent.Txn}
    {m : Concurrent.Move} (h : Concurrent.stepTxn db clock t m = some t') (ht : RecorderOk db t) :
    RecorderOk db t' := by
  unfold Concurrent.stepTxn at h
  split at h
  · obtain rfl := Option.some.inj h
    exact recorderOk_orRollBack fun _ _ => trivial
  · obtain rfl := Option.some.inj h
    trivial
  · obtain rfl := Option.some.inj h
    exact recorderOk_orRollBack fun plan hplan => older_plan hplan
  · obtain rfl := Option.some.inj h
    exact ht
  · obtain rfl := Option.some.inj h
    refine recorderOk_orRollBack fun write hwrite => ?_
    obtain ⟨⟨value, -, hversion⟩, -⟩ := (writeVersion_eq_ok hwrite).1
    show Older db write.version.supersedesId write.version.version
    rw [hversion]
    exact ht
  · obtain rfl := Option.some.inj h
    exact recorderOk_orRollBack fun _ _ => trivial
  · obtain rfl := Option.some.inj h
    trivial
  · obtain rfl := Option.some.inj h
    exact recorderOk_orRollBack fun _ _ => trivial
  · obtain rfl := Option.some.inj h
    trivial
  · obtain rfl := Option.some.inj h
    trivial
  · exact absurd h (by simp)

/-- Every version, and every version about to be written, comes after the one it supersedes. -/
structure Lineage (db : Database) (recorders : List Concurrent.Txn) : Prop where
  versions : ∀ v ∈ db.versions, Older db v.supersedesId v.version
  recorders : ∀ t ∈ recorders, RecorderOk db t

theorem Lineage.changes {db db' : Database} {recorders : List Concurrent.Txn} {rows : List Row}
    (h : Lineage db recorders) (hchanges : Changes db db' rows)
    (hrows : ∀ v, .factVersion v ∈ rows → Older db v.supersedesId v.version) :
    Lineage db' recorders := by
  refine ⟨?_, fun t ht => (h.recorders t ht).changes hchanges⟩
  intro v hv
  rcases hchanges.new (.factVersion v) (mem_rowsOf.mpr hv) with hold | hnew
  · exact (h.versions v (mem_rowsOf.mp hold)).changes hchanges
  · exact (hrows v hnew).changes hchanges

theorem older_versionRows {db : Database} {recorders : List Concurrent.Txn}
    (h : Lineage db recorders) {write : VersionWrite}
    (hwrite : Older db write.version.supersedesId write.version.version) {v : FactVersion}
    (hv : .factVersion v ∈ versionRows write db) : Older db v.supersedesId v.version := by
  simp only [versionRows, List.mem_append, List.mem_map, List.mem_singleton, reduceCtorEq,
    and_false, exists_false, or_false, false_or] at hv
  rcases hv with hclosed | hversion
  · obtain ⟨u, hu, heq⟩ := exists_touched_of_mem_closedRows hclosed
    obtain rfl := Row.factVersion.inj heq
    rcases touched_cases write u with hsame | ⟨-, c, -, -, hclose⟩
    · rw [hsame]
      exact h.versions u hu
    · rw [hclose]
      exact h.versions u hu
  · obtain rfl := Row.factVersion.inj hversion
    exact hwrite

theorem recorders_step {rt : Runtime} {w : World} {clock : Instant} {action : Concurrent.Action}
    {r : Concurrent.World} (h : Concurrent.step rt w.recording ⟨clock, action⟩ = some r)
    (hw : ∀ t ∈ w.recorders, RecorderOk w.db t) : ∀ t ∈ r.txns, RecorderOk w.db t := by
  have hset : ∀ {i : ℕ} {t' : Concurrent.Txn}, RecorderOk w.db t' →
      ∀ t ∈ w.recorders.set i t', RecorderOk w.db t := by
    intro i t' ht' t ht
    rcases Processes.mem_set_cases ht with rfl | ⟨j, -, hj⟩
    · exact ht'
    · exact hw t (List.mem_of_getElem? hj)
  have happend : ∀ {t' : Concurrent.Txn}, RecorderOk w.db t' →
      ∀ t ∈ w.recorders ++ [t'], RecorderOk w.db t := by
    intro t' ht' t ht
    rcases List.mem_append.mp ht with ht | ht
    · exact hw t ht
    · exact List.mem_singleton.mp ht ▸ ht'
  cases action with
  | beginRecord ctx command =>
    simp only [Concurrent.step, World.recording, Option.some.injEq] at h
    generalize ht : Concurrent.orRollBack (draft rt command)
      (fun d => Concurrent.Txn.record ctx clock d .begun) = t at h
    subst h
    refine happend ?_
    rw [← ht]
    generalize draft rt command = result
    exact recorderOk_orRollBack fun _ _ => trivial
  | beginRevoke ctx factId versionId reason =>
    simp only [Concurrent.step, World.recording, Option.some.injEq] at h
    generalize ht : Concurrent.orRollBack (Revocations.revokeRequest factId versionId reason)
      (fun request => Concurrent.Txn.revoke ctx clock request .begun) = t at h
    subst h
    refine happend ?_
    rw [← ht]
    generalize Revocations.revokeRequest factId versionId reason = result
    exact recorderOk_orRollBack fun _ _ => trivial
  | move i m =>
    simp only [Concurrent.step, World.recording] at h
    cases ht : w.recorders[i]? with
    | none =>
      rw [ht] at h
      exact absurd h (by simp)
    | some t =>
      rw [ht] at h
      rcases ite_eq_iff.mp h with ⟨-, h⟩ | ⟨-, h⟩
      · obtain ⟨t', ht', rfl⟩ := Option.map_eq_some_iff.mp h
        exact hset (recorderOk_stepTxn ht' (hw t (List.mem_of_getElem? ht)))
      · exact absurd h (by simp)
  | commit i =>
    simp only [Concurrent.step, World.recording] at h
    cases ht : w.recorders[i]? with
    | none =>
      rw [ht] at h
      exact absurd h (by simp)
    | some t =>
      rw [ht] at h
      obtain ⟨db', -, rfl⟩ := Option.map_eq_some_iff.mp h
      exact hset trivial
  | read org entityId factId validAt knownAt =>
    simp only [Concurrent.step, World.recording] at h
    split at h
    · obtain rfl := Option.some.inj h
      exact hw
    · exact absurd h (by simp)

theorem older_recordedRows {w : World} (h : Lineage w.db w.recorders)
    {action : Concurrent.Action} {v : FactVersion} (hv : .factVersion v ∈ recordedRows w action) :
    Older w.db v.supersedesId v.version := by
  unfold recordedRows at hv
  split at hv
  · split at hv
    · rename_i ht
      exact older_versionRows h (h.recorders _ (List.mem_of_getElem? ht)) hv
    · exact absurd hv List.not_mem_nil
  · exact absurd hv List.not_mem_nil

theorem factVersion_notMem_decidedRows {w : World} {action : DecisionWorld.Action}
    {v : FactVersion} : .factVersion v ∉ decidedRows w action := by
  unfold decidedRows
  split
  · split
    · simp [snapshotRows]
    · simp [decisionRows]
    · exact List.not_mem_nil
  · exact List.not_mem_nil

/-- What `publish` sets and what it leaves. -/
theorem publish_eq_some {w w' : World} {db : Database} {rows : List Row} {ids : List ℕ}
    (h : w.publish db rows ids = some w') :
    w'.db = db ∧ w'.recorders = w.recorders ∧ intact db = true := by
  unfold World.publish at h
  split at h
  · rename_i hguard
    obtain rfl := Option.some.inj h
    exact ⟨rfl, rfl, hguard.1⟩
  · exact absurd h (by simp)

/-- Rows stay, up to the end of a version, and no row is added to a decision. -/
structure Grows (db db' : Database) : Prop where
  kept : ∀ r ∈ rowsOf db, ∃ r' ∈ rowsOf db', Later r r'
  decided : ∀ f ∈ db'.decisionFacts, f ∈ db.decisionFacts ∨ ∀ d ∈ db.decisions, d.id ≠ f.decisionId

theorem Grows.refl (db : Database) : Grows db db :=
  ⟨fun r hr => ⟨r, hr, Later.refl r⟩, fun _ hf => Or.inl hf⟩

theorem Grows.mem_decisions {db db' : Database} (h : Grows db db') {d : Decision}
    (hd : d ∈ db.decisions) : d ∈ db'.decisions := by
  obtain ⟨r', hr', hlater⟩ := h.kept (.decision d) (mem_rowsOf.mpr hd)
  rcases hlater with rfl | ⟨v, u, t, hv, -⟩
  · exact mem_rowsOf.mp hr'
  · exact absurd hv (by simp)

theorem Grows.trans {db db' db'' : Database} (h : Grows db db') (h' : Grows db' db'') :
    Grows db db'' := by
  refine ⟨?_, ?_⟩
  · intro r hr
    obtain ⟨r', hr', hlater⟩ := h.kept r hr
    obtain ⟨r'', hr'', hlater'⟩ := h'.kept r' hr'
    exact ⟨r'', hr'', hlater.trans hlater'⟩
  · intro f hf
    rcases h'.decided f hf with hold | hnew
    · exact h.decided f hold
    · exact Or.inr fun d hd => hnew d (h.mem_decisions hd)

theorem Grows.of_changes {db db' : Database} {rows : List Row} (h : Changes db db' rows)
    (hrows : ∀ f, .decisionFact f ∈ rows → ∀ d ∈ db.decisions, d.id ≠ f.decisionId) :
    Grows db db' := by
  refine ⟨?_, ?_⟩
  · intro r hr
    obtain ⟨r', hr', hlater, -⟩ := h.kept r hr
    exact ⟨r', hr', hlater⟩
  · intro f hf
    rcases h.new (.decisionFact f) (mem_rowsOf.mpr hf) with hold | hnew
    · exact Or.inl (mem_rowsOf.mp hold)
    · exact Or.inr (hrows f hnew)

theorem decisionFact_notMem_recordedRows {w : World} {action : Concurrent.Action}
    {f : DecisionFact} : .decisionFact f ∉ recordedRows w action := by
  unfold recordedRows
  split
  · split
    · rename_i write ht
      intro hf
      simp only [versionRows, List.mem_append, List.mem_map, List.mem_singleton, reduceCtorEq,
        and_false, exists_false, or_false, false_or] at hf
      obtain ⟨v, -, heq⟩ := exists_touched_of_mem_closedRows hf
      exact absurd heq (by simp)
    · exact List.not_mem_nil
  · exact List.not_mem_nil

/-- The key of a decision is new when it commits. -/
theorem decision_new {db : Database} {write : ImpactReports.DecisionWrite}
    (h : intact (write.apply db) = true) : ∀ d ∈ db.decisions, d.id ≠ write.decision.id := by
  rw [intact, Bool.and_eq_true] at h
  have hkeys : ((rowsOf (write.apply db)).map fun r => (r.table, r.key)).Nodup :=
    of_decide_eq_true h.1
  have hsub : ((db.decisions ++ [write.decision]).map Row.decision).Sublist
      (rowsOf (write.apply db)) := by
    unfold rowsOf
    exact (List.sublist_append_right _ _).trans (List.sublist_append_left _ _)
  have hnodup := hkeys.sublist (hsub.map fun r => (r.table, r.key))
  rw [List.map_map, List.map_append, List.nodup_append] at hnodup
  intro d hd heq
  refine hnodup.2.2 _ (List.mem_map_of_mem hd) _ (List.mem_map_of_mem (List.mem_singleton_self _)) ?_
  show (Table.decisions, [d.id]) = (Table.decisions, [write.decision.id])
  rw [heq]

theorem grows_decide {rt : Runtime} {w : World} {clock : Instant} {action : DecisionWorld.Action}
    {d : DecisionWorld.World} (h : DecisionWorld.step rt w.deciding ⟨clock, action⟩ = some d)
    (hintact : intact d.db = true) : Grows w.db d.db := by
  refine Grows.of_changes (changes_decide h) ?_
  intro f hf
  unfold decidedRows at hf
  split at hf
  · rename_i i
    split at hf
    · exact absurd hf (by simp [snapshotRows])
    · rename_i ctx draft write ht
      simp only [DecisionWorld.step, World.deciding, ht, DecisionWorld.Txn.commit,
        Option.map_some, Option.some.injEq] at h
      subst h
      simp only [decisionRows, List.mem_cons, reduceCtorEq, List.mem_map, false_or] at hf
      obtain ⟨versionId, -, heq⟩ := hf
      obtain rfl := Row.decisionFact.inj heq
      exact decision_new hintact
    · exact absurd hf List.not_mem_nil
  · exact absurd hf List.not_mem_nil

theorem kept_of_not_writes {rt : Runtime} {w w' : World} {action : Action}
    (h : Stepped rt w action w') (haction : ¬Writes action) :
    w'.db = w.db ∧ w'.recorders = w.recorders := by
  cases h with
  | published hpublished hwrites => exact absurd hwrites haction
  | started => exact ⟨rfl, rfl⟩
  | asked ctx versionId => exact ⟨rfl, rfl⟩
  | read i call phase hcall hphase => exact ⟨rfl, rfl⟩
  | projected i p hp hprojected =>
    cases hprojected with
    | claim batchSize org events hidle hevents => exact ⟨rfl, rfl⟩
    | load events table todo rows hloading => exact ⟨rfl, rfl⟩
    | write events rows hloading => exact ⟨World.writeGraph_db .., by simp only [World.writeGraph]⟩
    | finish events hwritten => exact ⟨rfl, rfl⟩
    | crash => exact ⟨rfl, rfl⟩

theorem grows_step {rt : Runtime} {w w' : World} {e : Event} (h : step rt w e = some w') :
    Grows w.db w'.db := by
  obtain ⟨clock, action⟩ := e
  by_cases haction : Writes action
  · cases haction with
    | record action ids =>
      obtain ⟨r, hr, h⟩ := Option.bind_eq_some_iff.mp h
      rw [(publish_eq_some h).1]
      exact Grows.of_changes (changes_record hr) fun f hf =>
        absurd hf decisionFact_notMem_recordedRows
    | decide action ids =>
      obtain ⟨d, hd, h⟩ := Option.bind_eq_some_iff.mp h
      obtain ⟨hdb, -, hintact⟩ := publish_eq_some h
      rw [hdb]
      exact grows_decide hd hintact
    | register write ids =>
      rw [(publish_eq_some h).1]
      exact Grows.of_changes (changes_provenance write w.db) fun f hf =>
        absurd hf (by simp [ProvenanceWrite.rows])
  · rw [(kept_of_not_writes (step_cases h) haction).1]
    exact Grows.refl w.db

theorem lineage_step {rt : Runtime} {w w' : World} {e : Event} (h : step rt w e = some w')
    (hw : Lineage w.db w.recorders) : Lineage w'.db w'.recorders := by
  obtain ⟨clock, action⟩ := e
  by_cases haction : Writes action
  · cases haction with
    | record action ids =>
      obtain ⟨r, hr, h⟩ := Option.bind_eq_some_iff.mp h
      obtain ⟨hdb, hrecorders, -⟩ := publish_eq_some h
      rw [hdb, hrecorders]
      have htxns : Lineage w.db r.txns := ⟨hw.versions, recorders_step hr hw.recorders⟩
      exact htxns.changes (changes_record hr) fun v hv => older_recordedRows hw hv
    | decide action ids =>
      obtain ⟨d, hd, h⟩ := Option.bind_eq_some_iff.mp h
      obtain ⟨hdb, hrecorders, -⟩ := publish_eq_some h
      rw [hdb, hrecorders]
      exact hw.changes (changes_decide hd) fun v hv => absurd hv factVersion_notMem_decidedRows
    | register write ids =>
      obtain ⟨hdb, hrecorders, -⟩ := publish_eq_some h
      rw [hdb, hrecorders]
      exact hw.changes (changes_provenance write w.db) fun v hv =>
        absurd hv (by simp [ProvenanceWrite.rows])
  · obtain ⟨hdb, hrecorders⟩ := kept_of_not_writes (step_cases h) haction
    rw [hdb, hrecorders]
    exact hw

theorem lineage_start {w : World} (h : Start w) : Lineage w.db w.recorders := by
  have hversions : w.db.versions = [] := by
    have hrows := h.rows
    simp only [rowsOf, List.append_eq_nil_iff, List.map_eq_nil_iff] at hrows
    tauto
  refine ⟨?_, ?_⟩
  · rw [hversions]
    exact fun v hv => absurd hv List.not_mem_nil
  · rw [h.recorders]
    exact fun t ht => absurd ht List.not_mem_nil

end ContextLedger.GraphShown
