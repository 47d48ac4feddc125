import ContextLedger.GraphContents

/-!
Calls whose statements run one after the other, each in a later state of the world. What
the tables had when no event of the organization was pending stays in the graph, with its
properties, whatever happens until the graph is asked.
-/
namespace ContextLedger.GraphReadings

open Values Authorization Schema Facts MergeStore Projection ProjectionOrder Provenance
open GraphWorld GraphCoherence GraphShown GraphImpact GraphContents

/-- What holds of the graph in every state that a run reaches. -/
structure Truthful (rt : Runtime) (w : World) : Prop where
  coherent : Coherent w
  shown : Shown w
  contents : Contents rt w

variable {rt : Runtime}

theorem truthful_start {w : World} (h : Start w) : Truthful rt w :=
  ⟨coherent_start h, shown_start h, contents_start h⟩

theorem truthful_step {w w' : World} {e : Event} (h : step rt w e = some w')
    (hw : Truthful rt w) : Truthful rt w' :=
  ⟨coherent_step h hw.coherent, shown_step h hw.coherent hw.shown,
    contents_step h hw.coherent hw.contents⟩

theorem truthful_of_reachable {w : World} (h : (system rt).Reachable w) : Truthful rt w :=
  (system rt).reachable_invariant (Truthful rt) (fun _ => truthful_start)
    (fun _ _ _ hw hstep => truthful_step hstep hw) h

/-- A property of a row's node is missing or the one of the row. -/
theorem Truthful.prop {w : World} (hw : Truthful rt w) {r : Row} (hr : r ∈ rowsOf w.db)
    {k : NodeKey} (hk : ownKey r = some k) {f : Field} (horg : f ≠ .org) (hend : f ∉ endFields) :
    ((lookup w.graph.nodes k).getD bare) f = none ∨
      ((lookup w.graph.nodes k).getD bare) f = (toGraphRow rt r).get f := by
  cases hlookup : lookup w.graph.nodes k with
  | none => exact Or.inl rfl
  | some props => exact hw.contents.nodes k props hlookup r hr hk f horg hend

/-- A row that has its node filled keeps it. -/
theorem filled_step {w w' : World} {e : Event} (h : step rt w e = some w') (hw : Truthful rt w)
    {r : Row} (hr : r ∈ rowsOf w.db) (hfilled : Filled rt w.graph r) :
    Filled rt w'.graph r := by
  have hsame : w'.graph = w.graph → Filled rt w'.graph r := fun hgraph => hgraph ▸ hfilled
  obtain ⟨clock, action⟩ := e
  cases step_cases h with
  | published hpublished => exact hsame hpublished.graph
  | started => exact hsame rfl
  | asked ctx versionId => exact hsame rfl
  | read i call phase hcall hphase => exact hsame rfl
  | projected i p hp hprojected =>
    cases hprojected with
    | claim batchSize org events hidle hevents => exact hsame rfl
    | load events table todo rows hloading => exact hsame rfl
    | write events rows hloading =>
      subst hloading
      have hok := hw.coherent.loading _ _ _ (List.mem_of_getElem? hp)
      exact hfilled.apply hw.coherent.intact hok.past hr
    | finish events hwritten => exact hsame rfl
    | crash => exact hsame rfl

/-- What the tables had of an organization is in the graph. -/
structure Since (rt : Runtime) (w : World) (org : Uuid) (seen : Database) : Prop where
  intact : intact seen = true
  grows : Grows seen w.db
  told : ∀ r ∈ rowsOf seen, r.org = org →
    ∃ r' ∈ rowsOf w.db, Later r r' ∧ Present w.graph r' ∧ Filled rt w.graph r'

theorem since_of_pending {w : World} (hw : Truthful rt w) {org : Uuid}
    (hpending : pending w.outbox org = 0) : Since rt w org w.db := by
  refine ⟨hw.coherent.intact, Grows.refl w.db, fun r hr horg => ?_⟩
  have hnone : ¬∃ e ∈ w.outbox, Names e r := by
    rintro ⟨e, he, hnames⟩
    have hmem : e ∈ w.outbox.filter fun e => e.organizationId == org :=
      List.mem_filter.mpr ⟨he, beq_iff_eq.mpr (hnames.org.trans horg)⟩
    exact absurd hpending (List.length_pos_of_mem hmem).ne'
  exact ⟨r, hr, Later.refl r, (hw.shown.rows r hr).resolve_right hnone,
    (hw.contents.rows r hr).resolve_right hnone⟩

theorem Since.step {w w' : World} {e : Event} (h : step rt w e = some w') (hw : Truthful rt w)
    {org : Uuid} {seen : Database} (hsince : Since rt w org seen) : Since rt w' org seen := by
  have hadvances := advances_step h
  refine ⟨hsince.intact, hsince.grows.trans hadvances.grows, fun r hr horg => ?_⟩
  obtain ⟨r', hr', hlater, hpresent, hfilled⟩ := hsince.told r hr horg
  obtain ⟨r'', hr'', hlater'⟩ := hadvances.grows.kept r' hr'
  exact ⟨r'', hr'', hlater.trans hlater', (hadvances.present hpresent).alike hlater'.alike,
    (filled_step h hw hr' hfilled).later hlater'⟩

theorem Since.run {w w' : World} {trace : List Event} (h : (system rt).run w trace = some w')
    (hw : Truthful rt w) {org : Uuid} {seen : Database} (hsince : Since rt w org seen) :
    Since rt w' org seen :=
  ((system rt).run_preserves (fun w => Truthful rt w ∧ Since rt w org seen)
    (fun _ _ _ hw hstep => ⟨truthful_step hstep hw.1, hw.2.step hstep hw.1⟩) h
    ⟨hw, hsince⟩).2

section Since

variable {w : World} {org : Uuid} {seen : Database}

theorem Since.related (h : Since rt w org seen) {r : Row} (hr : r ∈ rowsOf seen)
    (horg : r.org = org) {type : RelationshipType} {a b : NodeKey} (hk : (type, a, b) ∈ links r) :
    (a, b) ∈ related w.graph type := by
  obtain ⟨r', -, hlater, hpresent, -⟩ := h.told r hr horg
  exact mem_related.mpr (hpresent.linked _ (hlater.alike.links ▸ hk))

theorem Since.isNode (h : Since rt w org seen) (hw : Truthful rt w) {r : Row}
    (hr : r ∈ rowsOf seen) (horg : r.org = org) {k : NodeKey} (hk : ownKey r = some k) :
    isNode w.graph k.1 org k = true := by
  obtain ⟨r', hr', hlater, hpresent, -⟩ := h.told r hr horg
  have hk' : ownKey r' = some k := hlater.alike.ownKey.symm.trans hk
  rw [← horg, hlater.alike.org]
  exact isNode_of_row hw.shown hr' hk' (hpresent.own k hk')

/-- A property that a row keeps is the one that its node has. -/
theorem Since.prop (h : Since rt w org seen) {r : Row} (hr : r ∈ rowsOf seen)
    (horg : r.org = org) {k : NodeKey} (hk : ownKey r = some k) {f : Field}
    (hf : f ∈ labelFields k.1) (hend : f ∉ endFields) :
    ((lookup w.graph.nodes k).getD bare) f = (toGraphRow rt r).get f := by
  obtain ⟨r', -, hlater, -, hfilled⟩ := h.told r hr horg
  obtain ⟨props, hprops, htold⟩ := hfilled k (hlater.alike.ownKey.symm.trans hk)
  rw [hprops, get_later hlater hend]
  exact htold f hf hend

theorem Since.link (h : Since rt w org seen) (hw : Truthful rt w) {r : Row}
    (hr : r ∈ rowsOf seen) (horg : r.org = org) {k : RelationshipKey} (hk : k ∈ links r) :
    ∃ l ∈ w.graph.relationships, l.key = k ∧ l.props = linkContent rt r k := by
  obtain ⟨r', hr', hlater, hpresent, -⟩ := h.told r hr horg
  have hk' : k ∈ links r' := hlater.alike.links ▸ hk
  obtain ⟨props, hprops⟩ := Option.isSome_iff_exists.mp (hpresent.linked k hk')
  refine ⟨⟨k, props⟩, (mem_iff_lookup hw.coherent.tidy.unique.2).mpr hprops, rfl, ?_⟩
  exact (hw.contents.links k props hprops r' hr' hk').trans (linkContent_later hlater k).symm

end Since

/-- The states in which the statements of one call run. -/
structure Stages where
  permitted : World
  counted : World
  required : World
  asked : World

/-- The statements run in this order; anything may happen in between. -/
structure Reading (rt : Runtime) extends Stages where
  reachable : (system rt).Reachable permitted
  toCounted : ∃ trace, (system rt).run permitted trace = some counted
  toRequired : ∃ trace, (system rt).run counted trace = some required
  toAsked : ∃ trace, (system rt).run required trace = some asked

def Stages.authorize (stages : Stages) (ctx : TenantContext) : Result (MembershipRole × ℕ) := do
  let role ← requirePermission stages.permitted.db ctx .readDecisions
  return (role, pending stages.counted.outbox ctx.organizationId)

def Stages.require (stages : Stages) (ctx : TenantContext) (label : Label) (text : String)
    (id : Uuid) : Result Unit :=
  if «exists» stages.required.graph label ctx.organizationId id then .ok ()
  else notFound (text ++ " not found in the provenance graph")

theorem pending_of_authorize {stages : Stages} {ctx : TenantContext} {role : MembershipRole}
    {n : ℕ} (h : stages.authorize ctx = .ok (role, n)) :
    requirePermission stages.permitted.db ctx .readDecisions = .ok role ∧
      n = pending stages.counted.outbox ctx.organizationId := by
  obtain ⟨role', hrole, h⟩ := bind_eq_ok.mp h
  obtain ⟨rfl, rfl⟩ := Prod.mk.inj (Except.ok.inj h)
  exact ⟨hrole, rfl⟩

theorem Reading.counted_truthful (reading : Reading rt) : Truthful rt reading.counted := by
  obtain ⟨trace, htrace⟩ := reading.toCounted
  exact truthful_of_reachable (reading.reachable.extend (system rt) htrace)

/-- The run from the count to the question. -/
theorem Reading.toAsked' (reading : Reading rt) :
    ∃ trace, (system rt).run reading.counted trace = some reading.asked := by
  obtain ⟨trace, htrace⟩ := reading.toRequired
  obtain ⟨trace', htrace'⟩ := reading.toAsked
  refine ⟨trace ++ trace', ?_⟩
  rw [Transition.System.run_append, htrace]
  exact htrace'

theorem Reading.asked_truthful (reading : Reading rt) : Truthful rt reading.asked := by
  obtain ⟨trace, htrace⟩ := reading.toCounted
  obtain ⟨trace', htrace'⟩ := reading.toAsked'
  exact truthful_of_reachable
    ((reading.reachable.extend (system rt) htrace).extend (system rt) htrace')

theorem Reading.since (reading : Reading rt) {org : Uuid}
    (hpending : pending reading.counted.outbox org = 0) :
    Since rt reading.asked org reading.counted.db := by
  obtain ⟨trace, htrace⟩ := reading.toAsked'
  exact (since_of_pending reading.counted_truthful hpending).run htrace reading.counted_truthful

end ContextLedger.GraphReadings
