import ContextLedger.GraphShown
import ContextLedger.ImpactExactness

/-!
The graph and the tables agree on what depends on a version. Every relationship
comes from a row and every row of the counted database is in the graph when no
event of the organization was pending, so the two sides of the union find the
same decisions as a join of the tables. The trails of superseding versions are
counted by rank. The invariant of a reader says what each of its questions has
found out so far, whatever the writers and projectors did in between.
-/
namespace ContextLedger.GraphImpact

open Values Authorization Schema Facts MergeStore Projection ProjectionOrder Provenance
open GraphWorld GraphCoherence GraphShown Relation

/-- The snapshot of the decision contains the version. -/
def Contains (db : Database) (d : Decision) (versionId : Uuid) : Prop :=
  ∃ i ∈ db.snapshotFacts, i.snapshotId = d.snapshotId ∧ i.factVersionId = versionId

def Relied (db : Database) (d : Decision) (versionId : Uuid) : Prop :=
  ∃ f ∈ db.decisionFacts, f.decisionId = d.id ∧ f.factVersionId = versionId

/-- The first version supersedes the second. -/
def Supersedes (db : Database) (a b : Uuid) : Prop :=
  ∃ v ∈ db.versions, v.id = a ∧ v.supersedesId = some b

theorem nodeKey_inj {label : Label} {a b : Uuid} : nodeKey label a = nodeKey label b ↔ a = b := by
  simp [nodeKey]

theorem links_reliedOn {r : Row} {a b : NodeKey} (h : (.reliedOn, a, b) ∈ links r) :
    ∃ f, r = .decisionFact f ∧ a = nodeKey .decision f.decisionId ∧
      b = nodeKey .factVersion f.factVersionId := by
  cases r <;> simp [links] at h
  exact ⟨_, rfl, h⟩

theorem links_basedOn {r : Row} {a b : NodeKey} (h : (.basedOn, a, b) ∈ links r) :
    ∃ d, r = .decision d ∧ a = nodeKey .decision d.id ∧ b = nodeKey .snapshot d.snapshotId := by
  cases r <;> simp [links] at h
  exact ⟨_, rfl, h⟩

theorem links_included {r : Row} {a b : NodeKey} (h : (.included, a, b) ∈ links r) :
    ∃ i, r = .contextSnapshotFact i ∧ a = nodeKey .snapshot i.snapshotId ∧
      b = nodeKey .factVersion i.factVersionId := by
  cases r <;> simp [links] at h
  exact ⟨_, rfl, h⟩

theorem links_supersedes {r : Row} {a b : NodeKey} (h : (.supersedes, a, b) ∈ links r) :
    ∃ v previous, r = .factVersion v ∧ v.supersedesId = some previous ∧
      a = nodeKey .factVersion v.id ∧ b = nodeKey .factVersion previous := by
  cases r <;> simp [links] at h
  obtain ⟨previous, hprevious, ha, hb⟩ := h
  exact ⟨_, previous, rfl, hprevious, ha.symm, hb.symm⟩

theorem ownKey_decision {r : Row} {k : NodeKey} (h : ownKey r = some k) (hk : k.1 = .decision) :
    ∃ d, r = .decision d ∧ k = nodeKey .decision d.id := by
  cases r <;> simp [ownKey] at h <;> subst h <;> simp at hk
  exact ⟨_, rfl, rfl⟩

theorem ownKey_factVersion {r : Row} {k : NodeKey} (h : ownKey r = some k)
    (hk : k.1 = .factVersion) : ∃ v, r = .factVersion v ∧ k = nodeKey .factVersion v.id := by
  cases r <;> simp [ownKey] at h <;> subst h <;> simp at hk
  exact ⟨_, rfl, rfl⟩

section Graph

variable {w : World}

theorem exists_row_of_related (hw : Coherent w) {type : RelationshipType} {a b : NodeKey}
    (h : (a, b) ∈ related w.graph type) : ∃ r ∈ rowsOf w.db, (type, a, b) ∈ links r :=
  hw.sourced.relationships _ (mem_related.mp h)

/-- A node stands for a row of its organization. -/
theorem exists_row_of_isNode (hw : Coherent w) (hshown : Shown w) {label : Label} {org : Uuid}
    {k : NodeKey} (h : isNode w.graph label org k = true) :
    k.1 = label ∧ ∃ r ∈ rowsOf w.db, ownKey r = some k ∧ r.org = org := by
  obtain ⟨hlabel, props, hprops, horg⟩ := isNode_eq_true.mp h
  have hrow : ∃ r ∈ rowsOf w.db, ownKey r = some k := by
    obtain ⟨r, hr, hk | hk⟩ := hw.sourced.nodes k (by rw [hprops]; rfl)
    · exact ⟨r, hr, hk⟩
    · exact exists_ownKey_of_closed (closed_of_intact hw.intact) hr hk
  obtain ⟨r, hr, hk⟩ := hrow
  have hsame : some (Value.uuid r.org) = some (Value.uuid org) :=
    (hshown.orgs k props hprops r hr hk).symm.trans horg
  exact ⟨hlabel, r, hr, hk, Value.uuid.inj (Option.some.inj hsame)⟩

theorem isNode_of_row (hshown : Shown w) {r : Row} (hr : r ∈ rowsOf w.db) {k : NodeKey}
    (hk : ownKey r = some k) (hpresent : (lookup w.graph.nodes k).isSome) :
    isNode w.graph k.1 r.org k = true := by
  obtain ⟨props, hprops⟩ := Option.isSome_iff_exists.mp hpresent
  exact isNode_eq_true.mpr ⟨rfl, props, hprops, hshown.orgs k props hprops r hr hk⟩

theorem decision_eq (hw : Coherent w) {d d' : Decision} (hd : d ∈ w.db.decisions)
    (hd' : d' ∈ w.db.decisions) (hid : d.id = d'.id) : d = d' :=
  Row.decision.inj (eq_of_key_eq hw.intact (mem_rowsOf.mpr hd) (mem_rowsOf.mpr hd') rfl
    (by rw [Row.key, Row.key, hid]))

theorem version_eq (hw : Coherent w) {v v' : FactVersion} (hv : v ∈ w.db.versions)
    (hv' : v' ∈ w.db.versions) (hid : v.id = v'.id) : v = v' :=
  Row.factVersion.inj (eq_of_key_eq hw.intact (mem_rowsOf.mpr hv) (mem_rowsOf.mpr hv') rfl
    (by rw [Row.key, Row.key, hid]))

/-- A match of the union is a row of the join. -/
theorem contains_of_depends (hw : Coherent w) (hshown : Shown w) {org version : Uuid}
    {k : NodeKey} (h : Depends w.graph org k (nodeKey .factVersion version)) :
    ∃ d ∈ w.db.decisions, k = nodeKey .decision d.id ∧ d.organizationId = org ∧
      Contains w.db d version := by
  obtain ⟨hnode, hpath⟩ := h
  obtain ⟨hlabel, r, hr, hk, horg⟩ := exists_row_of_isNode hw hshown hnode
  obtain ⟨d, rfl, rfl⟩ := ownKey_decision hk hlabel
  have hd : d ∈ w.db.decisions := mem_rowsOf.mp hr
  refine ⟨d, hd, rfl, horg, ?_⟩
  rcases hpath with hrelied | ⟨s, hbased, -, hincluded⟩
  · obtain ⟨r, hr, hlink⟩ := exists_row_of_related hw hrelied
    obtain ⟨f, rfl, hdecision, hversion⟩ := links_reliedOn hlink
    obtain ⟨⟨d', hd', -, hid, hsnapshot⟩, i, hi, hisnapshot, hiversion⟩ :=
      closed_of_intact hw.intact _ hr
    have heq : d' = d := decision_eq hw (mem_rowsOf.mp hd') hd
      (hid.trans (nodeKey_inj.mp hdecision).symm)
    refine ⟨i, mem_rowsOf.mp hi, ?_, ?_⟩
    · rw [hisnapshot, ← hsnapshot, heq]
    · rw [hiversion, nodeKey_inj.mp hversion]
  · obtain ⟨r, hr, hlink⟩ := exists_row_of_related hw hbased
    obtain ⟨d', rfl, hdecision, hsnapshot⟩ := links_basedOn hlink
    obtain ⟨r', hr', hlink'⟩ := exists_row_of_related hw hincluded
    obtain ⟨i, rfl, hisnapshot, hversion⟩ := links_included hlink'
    have heq : d' = d := decision_eq hw (mem_rowsOf.mp hr) hd (nodeKey_inj.mp hdecision).symm
    refine ⟨i, mem_rowsOf.mp hr', ?_, (nodeKey_inj.mp hversion).symm⟩
    rw [← heq]
    exact nodeKey_inj.mp (hisnapshot.symm.trans hsnapshot)

/-- Every listed decision is in the join. -/
def Listed (db : Database) (org version : Uuid) (decisions : List AffectedDecision) : Prop :=
  ∀ a ∈ decisions, ∃ d ∈ db.decisions, d.id = a.decisionId ∧ d.organizationId = org ∧
    Contains db d version

/-- Every decision of the join is listed once, with the way it depends on the version. -/
def Complete (db : Database) (version : Uuid) (decisions : List AffectedDecision) : Prop :=
  ∀ d ∈ db.decisions, Contains db d version →
    (decisions.map AffectedDecision.decisionId).count d.id = 1 ∧
    ∀ a ∈ decisions, a.decisionId = d.id → ∃ via, a.becauseOf = [(version, via)] ∧
      (via = "relied_on" ↔ Relied db d version) ∧ (via = "in_context" ↔ ¬Relied db d version)

/-- Every transitive successor is there once. -/
def Successors (db : Database) (version : Uuid) (later : List Uuid) : Prop :=
  ∀ u, TransGen (Supersedes db) u version → later.count u = 1

/-- What the count of pending events promises for the rest of the call. -/
structure Counted (w : World) (org : Uuid) (n : ℕ) (seen : Database) : Prop where
  intact : intact seen = true
  grows : Grows seen w.db
  present : n = 0 → ∀ r ∈ rowsOf seen, r.org = org → Present w.graph r

def Known (db : Database) (org version : Uuid) : Prop :=
  ∃ v ∈ db.versions, v.id = version ∧ v.organizationId = org

theorem decisionId_of_decisionRef {g : Graph} {id : Uuid} {ref : DecisionRef}
    (h : decisionRef g (nodeKey .decision id) = some ref) : ref.decisionId = id := by
  unfold decisionRef at h
  obtain ⟨id', hid, rfl⟩ := Option.map_eq_some_iff.mp h
  exact (Option.some.inj hid).symm

theorem listed_groupImpact (hw : Coherent w) (hshown : Shown w) (org version : Uuid) :
    Listed w.db org version (groupImpact (impactOfVersion w.graph org version)).2 := by
  intro a ha
  have hid := (groupImpact_ids _).subset (List.mem_map_of_mem ha)
  obtain ⟨ref, href, hrefid⟩ := List.mem_map.mp (List.mem_dedup.mp hid)
  obtain ⟨row, hrow, hdecision⟩ := List.mem_filterMap.mp href
  obtain ⟨-, k, hdepends, rfl⟩ := mem_impactOfVersion.mp hrow
  obtain ⟨d, hd, rfl, horg, hcontains⟩ := contains_of_depends hw hshown hdepends
  exact ⟨d, hd, (decisionId_of_decisionRef hdecision).symm.trans hrefid, horg, hcontains⟩

/-- A decision whose snapshot contains the version belongs to the organization of the version. -/
theorem org_of_contains (hw : Coherent w) {org version : Uuid} (hknown : Known w.db org version)
    {d : Decision} (hd : d ∈ w.db.decisions) {i : ContextSnapshotFact}
    (hi : i ∈ w.db.snapshotFacts) (hsnapshot : i.snapshotId = d.snapshotId)
    (hversion : i.factVersionId = version) :
    i.organizationId = org ∧ d.organizationId = org ∧
      ∃ n ∈ w.db.snapshots, n.id = d.snapshotId ∧ n.organizationId = org := by
  have hclosed := closed_of_intact hw.intact
  obtain ⟨⟨n, hn, hnorg, hnid⟩, v, hv, hvorg, hvid⟩ :=
    hclosed (.contextSnapshotFact i) (mem_rowsOf.mpr hi)
  obtain ⟨n', hn', hnorg', hnid'⟩ := hclosed (.decision d) (mem_rowsOf.mpr hd)
  obtain ⟨v', hv', hvid', hvorg'⟩ := hknown
  have hvv : v = v' :=
    version_eq hw (mem_rowsOf.mp hv) hv' (hvid.trans (hversion.trans hvid'.symm))
  have hiorg : i.organizationId = org := by rw [← hvorg, hvv, hvorg']
  have hnn : Row.contextSnapshot n' = Row.contextSnapshot n :=
    eq_of_key_eq hw.intact hn' hn rfl (by rw [Row.key, Row.key, hnid', hnid, hsnapshot])
  obtain rfl := Row.contextSnapshot.inj hnn
  exact ⟨hiorg, by rw [← hnorg', hnorg, hiorg], n', mem_rowsOf.mp hn', hnid', hnorg.trans hiorg⟩

theorem mem_snapshotFacts_of_grows {db db' : Database} (h : Grows db db')
    {i : ContextSnapshotFact} (hi : i ∈ db.snapshotFacts) : i ∈ db'.snapshotFacts := by
  obtain ⟨r', hr', hlater⟩ := h.kept (.contextSnapshotFact i) (mem_rowsOf.mpr hi)
  rcases hlater with rfl | ⟨v, u, t, hv, -⟩
  · exact mem_rowsOf.mp hr'
  · exact absurd hv (by simp)

/-- A decision of the counted database relies on what the graph says it relies on. -/
theorem related_reliedOn_iff (hw : Coherent w) {org version : Uuid} {n : ℕ} {seen : Database}
    (hcounted : Counted w org n seen) (hn : n = 0) {d : Decision} (hd : d ∈ seen.decisions)
    (horg : d.organizationId = org) :
    (nodeKey .decision d.id, nodeKey .factVersion version) ∈ related w.graph .reliedOn ↔
      Relied seen d version := by
  constructor
  · intro h
    obtain ⟨r, hr, hlink⟩ := exists_row_of_related hw h
    obtain ⟨f, rfl, hdecision, hversion⟩ := links_reliedOn hlink
    have hid : f.decisionId = d.id := (nodeKey_inj.mp hdecision).symm
    rcases hcounted.grows.decided f (mem_rowsOf.mp hr) with hold | hnew
    · exact ⟨f, hold, hid, (nodeKey_inj.mp hversion).symm⟩
    · exact absurd hid.symm (hnew d hd)
  · rintro ⟨f, hf, hid, rfl⟩
    obtain ⟨⟨d', hd', hdorg, hdid, -⟩, -⟩ :=
      closed_of_intact hcounted.intact (.decisionFact f) (mem_rowsOf.mpr hf)
    have hdd : Row.decision d' = Row.decision d := eq_of_key_eq hcounted.intact hd'
      (mem_rowsOf.mpr hd) rfl (by rw [Row.key, Row.key, hdid, hid])
    obtain rfl := Row.decision.inj hdd
    have hpresent := hcounted.present hn (.decisionFact f) (mem_rowsOf.mpr hf)
      (hdorg.symm.trans horg)
    rw [mem_related, ← hid]
    exact hpresent.linked _ List.mem_cons_self

theorem depends_of_contains (hw : Coherent w) (hshown : Shown w) {org version : Uuid} {n : ℕ}
    {seen : Database} (hcounted : Counted w org n seen) (hn : n = 0)
    (hknown : Known w.db org version) {d : Decision} (hd : d ∈ seen.decisions)
    (hcontains : Contains seen d version) : d.organizationId = org ∧
      Depends w.graph org (nodeKey .decision d.id) (nodeKey .factVersion version) := by
  obtain ⟨i, hi, hsnapshot, hversion⟩ := hcontains
  have hd' := hcounted.grows.mem_decisions hd
  have hi' := mem_snapshotFacts_of_grows hcounted.grows hi
  obtain ⟨hiorg, hdorg, s, hs, hsid, hsorg⟩ :=
    org_of_contains hw hknown hd' hi' hsnapshot hversion
  have hdecision := hcounted.present hn (.decision d) (mem_rowsOf.mpr hd) hdorg
  have hincluded := hcounted.present hn (.contextSnapshotFact i) (mem_rowsOf.mpr hi) hiorg
  have hnode : isNode w.graph .decision org (nodeKey .decision d.id) = true := by
    rw [← hdorg]
    exact isNode_of_row (r := .decision d) hshown (mem_rowsOf.mpr hd') rfl (hdecision.own _ rfl)
  have hsnapshotNode : isNode w.graph .snapshot org (nodeKey .snapshot d.snapshotId) = true := by
    rw [← hsorg]
    refine isNode_of_row (r := .contextSnapshot s) hshown (mem_rowsOf.mpr hs) ?_
      (hdecision.far _ List.mem_cons_self)
    rw [ownKey, hsid]
    rfl
  refine ⟨hdorg, hnode, Or.inr ⟨nodeKey .snapshot d.snapshotId, ?_, hsnapshotNode, ?_⟩⟩
  · exact mem_related.mpr (hdecision.linked _ List.mem_cons_self)
  · rw [mem_related, ← hsnapshot, ← hversion]
    exact hincluded.linked _ List.mem_cons_self

theorem complete_groupImpact (hw : Coherent w) (hshown : Shown w) {org version : Uuid} {n : ℕ}
    {seen : Database} (hcounted : Counted w org n seen) (hn : n = 0)
    (hknown : Known w.db org version)
    (hexists : «exists» w.graph .factVersion org version = true) :
    Complete seen version (groupImpact (impactOfVersion w.graph org version)).2 := by
  intro d hd hcontains
  obtain ⟨horg, hdepends⟩ := depends_of_contains hw hshown hcounted hn hknown hd hcontains
  obtain ⟨ref, href⟩ : ∃ ref, decisionRef w.graph (nodeKey .decision d.id) = some ref :=
    ⟨_, rfl⟩
  have hid : ref.decisionId = d.id := decisionId_of_decisionRef href
  have hrow := mem_impactOfVersion.mpr ⟨hexists, nodeKey .decision d.id, hdepends, rfl⟩
  refine ⟨?_, ?_⟩
  · rw [(groupImpact_ids _).count_eq]
    refine List.count_eq_one_of_mem (List.nodup_dedup _) (List.mem_dedup.mpr ?_)
    exact List.mem_map.mpr ⟨ref, List.mem_filterMap.mpr ⟨_, hrow, href⟩, hid⟩
  · intro a ha haid
    refine ⟨viaOf w.graph (nodeKey .decision d.id) (nodeKey .factVersion version), ?_, ?_⟩
    · rw [becauseOf_of_mem_groupImpact ha, haid]
      refine reasons_eq_singleton ⟨_, hrow, by simp [href, hid]⟩ ?_
      intro row hrow' hsame
      obtain ⟨-, k, hdepends', rfl⟩ := mem_impactOfVersion.mp hrow'
      obtain ⟨d', -, rfl, -, -⟩ := contains_of_depends hw hshown hdepends'
      obtain ⟨ref', href', hid'⟩ := (Option.any_eq_true _ _).mp hsame
      have hdd : d'.id = d.id :=
        (decisionId_of_decisionRef href').symm.trans (beq_iff_eq.mp hid')
      rw [hdd]
    · have hiff : (nodeKey .decision d.id, nodeKey .factVersion version) ∈
          related w.graph .reliedOn ↔ Relied _ d version :=
        related_reliedOn_iff hw hcounted hn hd horg
      rw [← hiff, viaOf]
      by_cases hrelied : (nodeKey .decision d.id, nodeKey .factVersion version) ∈
          related w.graph .reliedOn
      · simp [hrelied]
      · simp [hrelied]

/-- The number of the version that a node stands for. -/
def rank (db : Database) (k : NodeKey) : ℕ :=
  (db.versions.find? fun v => k = nodeKey .factVersion v.id).elim 0 FactVersion.version

theorem rank_eq (hw : Coherent w) {v : FactVersion} (hv : v ∈ w.db.versions) :
    rank w.db (nodeKey .factVersion v.id) = v.version := by
  have hfound : (w.db.versions.find? fun v' =>
      decide (nodeKey .factVersion v.id = nodeKey .factVersion v'.id)).isSome := by
    rw [List.find?_isSome]
    exact ⟨v, hv, decide_eq_true rfl⟩
  obtain ⟨v', hfind⟩ := Option.isSome_iff_exists.mp hfound
  have hkey := List.find?_some hfind
  simp only [decide_eq_true_eq] at hkey
  have heq : v = v' :=
    version_eq hw hv (List.mem_of_find?_eq_some hfind) (nodeKey_inj.mp hkey)
  rw [rank, hfind, heq]
  rfl

theorem ranked_supersedes (hw : Coherent w) (hlineage : Lineage w.db w.recorders) :
    Trails.Ranked (related w.graph .supersedes) (rank w.db) := by
  refine ⟨?_, ?_⟩
  · refine (nodup_related hw.tidy.unique .supersedes).map_on ?_
    rintro ⟨a, b⟩ hab ⟨a', b'⟩ hab' heq
    obtain rfl : a = a' := heq
    obtain ⟨r, hr, hlink⟩ := exists_row_of_related hw hab
    obtain ⟨r', hr', hlink'⟩ := exists_row_of_related hw hab'
    obtain ⟨v, previous, rfl, hprevious, rfl, rfl⟩ := links_supersedes hlink
    obtain ⟨v', previous', rfl, hprevious', ha, rfl⟩ := links_supersedes hlink'
    have hvv := version_eq hw (mem_rowsOf.mp hr) (mem_rowsOf.mp hr') (nodeKey_inj.mp ha)
    rw [hvv, hprevious'] at hprevious
    rw [Option.some.inj hprevious]
  · rintro ⟨a, b⟩ hab
    obtain ⟨r, hr, hlink⟩ := exists_row_of_related hw hab
    obtain ⟨v, previous, rfl, hprevious, rfl, rfl⟩ := links_supersedes hlink
    have hv : v ∈ w.db.versions := mem_rowsOf.mp hr
    obtain ⟨u, hu, rfl, hlt⟩ := hlineage.versions v hv previous hprevious
    show rank w.db (nodeKey .factVersion u.id) < rank w.db (nodeKey .factVersion v.id)
    rw [rank_eq hw hu, rank_eq hw hv]
    exact hlt

theorem org_of_supersedes {db : Database} (hdb : intact db = true) {v u : FactVersion}
    (hv : v ∈ db.versions) (hu : u ∈ db.versions) (h : v.supersedesId = some u.id) :
    v.organizationId = u.organizationId := by
  have hfar : nodeKey .factVersion u.id ∈ farKeys (.factVersion v) := by
    simp [farKeys, nodeKey, h]
  have hv' : Row.factVersion v ∈ rowsOf db := mem_rowsOf.mpr hv
  have hu' : Row.factVersion u ∈ rowsOf db := mem_rowsOf.mpr hu
  exact (org_of_farKeys hdb hv' hu' hfar rfl).symm

/-- A version of the counted database is of the organization that it is known to be of. -/
theorem org_of_known (hw : Coherent w) {org version : Uuid} {n : ℕ} {seen : Database}
    (hcounted : Counted w org n seen) (hknown : Known w.db org version) {v : FactVersion}
    (hv : v ∈ seen.versions) (hid : v.id = version) : v.organizationId = org := by
  obtain ⟨v', hv', hid', horg'⟩ := hknown
  obtain ⟨r, hr, hlater⟩ := hcounted.grows.kept (.factVersion v) (mem_rowsOf.mpr hv)
  have hsame : r = .factVersion v' := by
    refine eq_of_key_eq hw.intact hr (mem_rowsOf.mpr hv') hlater.alike.table.symm ?_
    rw [← hlater.alike.key, Row.key, Row.key, hid, hid']
  have horg : r.org = v.organizationId := hlater.alike.org.symm
  rw [← horg, hsame]
  exact horg'

theorem transGen_related (hw : Coherent w) {org version : Uuid} {n : ℕ} {seen : Database}
    (hcounted : Counted w org n seen) (hn : n = 0) (hknown : Known w.db org version) {u : Uuid}
    (hu : TransGen (Supersedes seen) u version) :
    (∃ v ∈ seen.versions, v.id = u ∧ v.organizationId = org) ∧
      TransGen (Trails.Edge (related w.graph .supersedes)) (nodeKey .factVersion u)
        (nodeKey .factVersion version) := by
  have hedge : ∀ {v : FactVersion} {previous : Uuid}, v ∈ seen.versions →
      v.supersedesId = some previous → v.organizationId = org →
      Trails.Edge (related w.graph .supersedes) (nodeKey .factVersion v.id)
        (nodeKey .factVersion previous) := by
    intro v previous hv hprevious horg
    have hpresent := hcounted.present hn (.factVersion v) (mem_rowsOf.mpr hv) horg
    refine mem_related.mpr (hpresent.linked _ ?_)
    simp [links, nodeKey, hprevious]
  induction hu using TransGen.head_induction_on with
  | single h =>
    obtain ⟨v, hv, rfl, hprevious⟩ := h
    obtain ⟨-, -, hreferred⟩ :=
      closed_of_intact hcounted.intact (.factVersion v) (mem_rowsOf.mpr hv)
    obtain ⟨v₀, hv₀, -, rfl⟩ := hreferred version hprevious
    have horg : v.organizationId = org :=
      (org_of_supersedes hcounted.intact hv (mem_rowsOf.mp hv₀) hprevious).trans
        (org_of_known hw hcounted hknown (mem_rowsOf.mp hv₀) rfl)
    exact ⟨⟨v, hv, rfl, horg⟩, TransGen.single (hedge hv hprevious horg)⟩
  | head h _ ih =>
    obtain ⟨v, hv, rfl, hprevious⟩ := h
    obtain ⟨⟨v₀, hv₀, rfl, horg₀⟩, hrest⟩ := ih
    have horg : v.organizationId = org :=
      (org_of_supersedes hcounted.intact hv hv₀ hprevious).trans horg₀
    exact ⟨⟨v, hv, rfl, horg⟩, TransGen.head (hedge hv hprevious horg) hrest⟩

theorem eq_nodeKey {k : NodeKey} {label : Label} {id : Uuid} (hlabel : k.1 = label)
    (hid : uuidOf k.2 = some id) : k = nodeKey label id := by
  obtain ⟨label', value⟩ := k
  obtain rfl : label' = label := hlabel
  rcases value with _ | value
  · exact absurd hid (by simp [uuidOf])
  · cases value with
    | uuid id' =>
      obtain rfl := Option.some.inj hid
      rfl
    | _ => exact absurd hid (by simp [uuidOf])

theorem successors_supersededBy (hw : Coherent w) (hshown : Shown w)
    (hlineage : Lineage w.db w.recorders) {org version : Uuid} {n : ℕ} {seen : Database}
    (hcounted : Counted w org n seen) (hn : n = 0) (hknown : Known w.db org version)
    (hexists : «exists» w.graph .factVersion org version = true) :
    Successors seen version (supersededBy w.graph org version) := by
  intro u hu
  obtain ⟨⟨v, hv, rfl, horg⟩, htrail⟩ := transGen_related hw hcounted hn hknown hu
  have hnode : isNode w.graph .factVersion org (nodeKey .factVersion v.id) = true := by
    have hpresent := hcounted.present hn (.factVersion v) (mem_rowsOf.mpr hv) horg
    obtain ⟨r, hr, hlater⟩ := hcounted.grows.kept (.factVersion v) (mem_rowsOf.mpr hv)
    have hrorg : r.org = org := hlater.alike.org.symm.trans horg
    rw [← hrorg]
    exact isNode_of_row hshown hr (hlater.alike.ownKey.symm.trans rfl) (hpresent.own _ rfl)
  have hsame : ∀ k : NodeKey, (uuidOf k.2 == some v.id && isNode w.graph .factVersion org k) =
      decide (k = nodeKey .factVersion v.id) := by
    intro k
    rw [Bool.eq_iff_iff, Bool.and_eq_true, beq_iff_eq, decide_eq_true_eq]
    constructor
    · rintro ⟨hid, hk⟩
      exact eq_nodeKey (isNode_eq_true.mp hk).1 hid
    · rintro rfl
      exact ⟨rfl, hnode⟩
  have hcount := (ranked_supersedes hw hlineage).count_trailStarts htrail
  rw [supersededBy, if_pos hexists, (List.perm_insertionSort _ _).count_eq, List.count_filterMap,
    List.countP_filter]
  simp only [hsame]
  exact hcount

end Graph

/-- Rows stay, and nothing is taken out of the graph. -/
structure Advances (w w' : World) : Prop where
  grows : Grows w.db w'.db
  nodes : ∀ k, (lookup w.graph.nodes k).isSome → (lookup w'.graph.nodes k).isSome
  relationships : ∀ k, (lookup w.graph.relationships k).isSome →
    (lookup w'.graph.relationships k).isSome

theorem Advances.present {w w' : World} (h : Advances w w') {r : Row} (hr : Present w.graph r) :
    Present w'.graph r :=
  ⟨fun k hk => h.nodes k (hr.own k hk), fun k hk => h.nodes k (hr.far k hk),
    fun k hk => h.relationships k (hr.linked k hk)⟩

theorem advances_step {rt : Runtime} {w w' : World} {e : Event} (h : step rt w e = some w') :
    Advances w w' := by
  have hgrows := grows_step h
  have hsame : w'.graph = w.graph → Advances w w' := by
    intro hgraph
    refine ⟨hgrows, ?_, ?_⟩
    · rw [hgraph]
      exact fun k hk => hk
    · rw [hgraph]
      exact fun k hk => hk
  obtain ⟨clock, action⟩ := e
  cases step_cases h with
  | published hpublished => exact hsame hpublished.graph
  | started => exact hsame rfl
  | asked ctx versionId => exact hsame rfl
  | read i call phase hcall hphase => exact hsame rfl
  | projected i p hp hprojected =>
    cases hprojected with
    | claim batchSize org events hidle hevents => exact hsame rfl
    | load events table todo rows hloading => exact hsame rfl
    | write events rows hloading =>
      refine ⟨hgrows, ?_, ?_⟩
      · intro k hk
        rw [World.writeGraph, apply_eq, executeAll_nodes, lookup_mergeAll_isSome]
        exact Or.inl hk
      · intro k hk
        rw [World.writeGraph, apply_eq, executeAll_relationships, lookup_mergeAll_isSome]
        exact Or.inl hk
    | finish events hwritten => exact hsame rfl
    | crash => exact hsame rfl

theorem Counted.advances {w w' : World} {org : Uuid} {n : ℕ} {seen : Database}
    (h : Counted w org n seen) (hadvances : Advances w w') : Counted w' org n seen :=
  ⟨h.intact, h.grows.trans hadvances.grows,
    fun hn r hr horg => hadvances.present (h.present hn r hr horg)⟩

theorem exists_advances {w w' : World} (hw : Coherent w) (hshown : Shown w) (hshown' : Shown w')
    (hadvances : Advances w w') {org version : Uuid}
    (h : «exists» w.graph .factVersion org version = true) :
    «exists» w'.graph .factVersion org version = true := by
  obtain ⟨-, props, hprops, -⟩ := isNode_eq_true.mp h
  obtain ⟨-, r, hr, hk, rfl⟩ := exists_row_of_isNode hw hshown h
  obtain ⟨r', hr', hlater⟩ := hadvances.grows.kept r hr
  rw [hlater.alike.org]
  exact isNode_of_row hshown' hr' (hlater.alike.ownKey.symm.trans hk)
    (hadvances.nodes _ (by rw [hprops]; rfl))

theorem Listed.grows {db db' : Database} {org version : Uuid} {decisions : List AffectedDecision}
    (h : Listed db org version decisions) (hgrows : Grows db db') :
    Listed db' org version decisions := by
  intro a ha
  obtain ⟨d, hd, hid, horg, i, hi, hsnapshot, hversion⟩ := h a ha
  exact ⟨d, hgrows.mem_decisions hd, hid, horg, i, mem_snapshotFacts_of_grows hgrows hi,
    hsnapshot, hversion⟩

theorem known_of_exists {w : World} (hw : Coherent w) (hshown : Shown w) {org version : Uuid}
    (h : «exists» w.graph .factVersion org version = true) : Known w.db org version := by
  obtain ⟨hlabel, r, hr, hk, horg⟩ := exists_row_of_isNode hw hshown h
  obtain ⟨v, rfl, hid⟩ := ownKey_factVersion hk hlabel
  exact ⟨v, mem_rowsOf.mp hr, (nodeKey_inj.mp hid).symm, horg⟩

/-- What a reader has found out. -/
def ReadOk (w : World) (call : ReadCall) : Prop :=
  let org := call.ctx.organizationId
  match call.phase with
  | .counted n seen => Counted w org n seen
  | .found n seen =>
    Counted w org n seen ∧ «exists» w.graph .factVersion org call.versionId = true
  | .traversed n seen decisions =>
    (Counted w org n seen ∧ «exists» w.graph .factVersion org call.versionId = true) ∧
      Listed w.db org call.versionId decisions ∧ (n = 0 → Complete seen call.versionId decisions)
  | .answered seen report =>
    Listed w.db org call.versionId report.decisions ∧
      (report.pendingEvents = 0 → Complete seen call.versionId report.decisions ∧
        Successors seen call.versionId report.supersededBy)
  | _ => True

theorem readOk_advances {w w' : World} (hw : Coherent w) (hshown : Shown w) (hshown' : Shown w')
    (hadvances : Advances w w') {call : ReadCall} (h : ReadOk w call) : ReadOk w' call := by
  obtain ⟨ctx, versionId, phase⟩ := call
  cases phase with
  | counted n seen => exact Counted.advances h hadvances
  | found n seen => exact ⟨h.1.advances hadvances, exists_advances hw hshown hshown' hadvances h.2⟩
  | traversed n seen decisions =>
    obtain ⟨⟨hcounted, hexists⟩, hlisted, hcomplete⟩ := h
    exact ⟨⟨hcounted.advances hadvances, exists_advances hw hshown hshown' hadvances hexists⟩,
      hlisted.grows hadvances.grows, hcomplete⟩
  | answered seen report => exact ⟨h.1.grows hadvances.grows, h.2⟩
  | begun => trivial
  | permitted => trivial
  | failed failure => trivial

/-- An organization without pending events has all its rows in the graph. -/
theorem counted_pending {w : World} (hw : Coherent w) (hshown : Shown w) (org : Uuid) :
    Counted w org (pending w.outbox org) w.db := by
  refine ⟨hw.intact, Grows.refl w.db, ?_⟩
  intro hn r hr horg
  rcases hshown.rows r hr with hpresent | ⟨e, he, hnames⟩
  · exact hpresent
  · have hpending : e ∈ w.outbox.filter fun e => e.organizationId == org :=
      List.mem_filter.mpr ⟨he, beq_iff_eq.mpr (hnames.org.trans horg)⟩
    exact absurd hn (List.length_pos_of_mem hpending).ne'

theorem readOk_stepRead {w : World} (hw : Coherent w) (hshown : Shown w)
    (hlineage : Lineage w.db w.recorders) {call : ReadCall} {phase : ReadPhase}
    (h : stepRead w call = some phase) (hcall : ReadOk w call) :
    ReadOk w { call with phase } := by
  obtain ⟨ctx, versionId, before⟩ := call
  cases before with
  | begun =>
    simp only [stepRead] at h
    split at h
    · obtain rfl := Option.some.inj h
      trivial
    · obtain rfl := Option.some.inj h
      trivial
  | permitted =>
    obtain rfl := Option.some.inj h
    exact counted_pending hw hshown ctx.organizationId
  | counted n seen =>
    simp only [stepRead] at h
    split at h
    · rename_i hexists
      obtain rfl := Option.some.inj h
      exact ⟨hcall, hexists⟩
    · obtain rfl := Option.some.inj h
      trivial
  | found n seen =>
    obtain rfl := Option.some.inj h
    obtain ⟨hcounted, hexists⟩ := hcall
    exact ⟨⟨hcounted, hexists⟩, listed_groupImpact hw hshown ctx.organizationId versionId,
      fun hn => complete_groupImpact hw hshown hcounted hn (known_of_exists hw hshown hexists)
        hexists⟩
  | traversed n seen decisions =>
    obtain rfl := Option.some.inj h
    obtain ⟨⟨hcounted, hexists⟩, hlisted, hcomplete⟩ := hcall
    exact ⟨hlisted, fun hn => ⟨hcomplete hn, successors_supersededBy hw hshown hlineage hcounted
      hn (known_of_exists hw hshown hexists) hexists⟩⟩
  | answered seen report => exact absurd h (by simp [stepRead])
  | failed failure => exact absurd h (by simp [stepRead])

structure Informed (w : World) : Prop where
  coherent : Coherent w
  shown : Shown w
  lineage : Lineage w.db w.recorders
  reads : ∀ call ∈ w.reads, ReadOk w call

theorem informed_start {w : World} (h : Start w) : Informed w := by
  refine ⟨coherent_start h, shown_start h, lineage_start h, ?_⟩
  rw [h.reads]
  exact fun call hcall => absurd hcall List.not_mem_nil

theorem informed_step {rt : Runtime} {w w' : World} {e : Event} (h : step rt w e = some w')
    (hw : Informed w) : Informed w' := by
  have hshown' := shown_step h hw.coherent hw.shown
  have hadvances := advances_step h
  have hkept : ∀ {call : ReadCall}, ReadOk w call → ReadOk w' call :=
    fun hcall => readOk_advances hw.coherent hw.shown hshown' hadvances hcall
  refine ⟨coherent_step h hw.coherent, hshown', lineage_step h hw.lineage, ?_⟩
  have hsame : w'.reads = w.reads → ∀ call ∈ w'.reads, ReadOk w' call := by
    intro hreads call hcall
    exact hkept (hw.reads call (hreads ▸ hcall))
  obtain ⟨clock, action⟩ := e
  cases step_cases h with
  | published hpublished => exact hsame hpublished.reads
  | started => exact hsame rfl
  | asked ctx versionId =>
    intro call hcall
    rcases List.mem_append.mp hcall with hcall | hcall
    · exact hkept (hw.reads call hcall)
    · obtain rfl := List.mem_singleton.mp hcall
      trivial
  | read i before phase hbefore hphase =>
    intro call hcall
    rcases Processes.mem_set_cases hcall with rfl | ⟨j, -, hj⟩
    · exact hkept (readOk_stepRead hw.coherent hw.shown hw.lineage hphase
        (hw.reads before (List.mem_of_getElem? hbefore)))
    · exact hkept (hw.reads call (List.mem_of_getElem? hj))
  | projected i p hp hprojected =>
    cases hprojected with
    | claim batchSize org events hidle hevents => exact hsame rfl
    | load events table todo rows hloading => exact hsame rfl
    | write events rows hloading => exact hsame (by simp only [World.writeGraph])
    | finish events hwritten => exact hsame rfl
    | crash => exact hsame rfl

/-- A report without pending events lists what a join of the tables lists: every decision
of the counted database whose snapshot contains the version once, with the way it depends
on the version, no decision that is not in the join, and every successor once. -/
theorem impact_agrees (rt : Runtime) (w : World) (hw : (system rt).Reachable w)
    (call : ReadCall) (hcall : call ∈ w.reads) (seen : Database) (report : ImpactReport)
    (hanswered : call.phase = .answered seen report) (hpending : report.pendingEvents = 0) :
    Complete seen call.versionId report.decisions ∧
      Listed w.db call.ctx.organizationId call.versionId report.decisions ∧
      Successors seen call.versionId report.supersededBy := by
  have hinformed : Informed w := (system rt).reachable_invariant Informed
    (fun _ => informed_start) (fun _ _ _ hw hstep => informed_step hstep hw) hw
  have hread := hinformed.reads call hcall
  rw [ReadOk, hanswered] at hread
  obtain ⟨hlisted, hrest⟩ := hread
  obtain ⟨hcomplete, hsuccessors⟩ := hrest hpending
  exact ⟨hcomplete, hlisted, hsuccessors⟩

/-- One round of a projector: eight tables to load. -/
def exampleProjecting : List Action :=
  .claim 0 100 none :: List.replicate 8 (.load 0) ++ [.write 0]

/-- A decision relies on a version that is superseded later; the projector crashes after
its first write to the graph. -/
def exampleEvents : List Event :=
  [⟨0, .register ⟨[⟨3, 1, "crm", .systemOfRecord, none, 50, 0⟩], [], []⟩ [1]⟩] ++
    exampleRecording 0 true 10 ⟨10, 11, 12⟩ [2, 3, 4] ++
    exampleDeciding (ImpactExactness.exampleCapture 0 30 40) [5, 6] ++
    exampleDeciding (ImpactExactness.exampleDecide 1 32) [] ++
    exampleDeciding (ImpactExactness.exampleDecided 1 33 50) [7, 8] ++
    exampleRecording 1 false 40 ⟨20, 21, 22⟩ [9, 10] ++
    ([.startProjector] ++ exampleProjecting ++ [.crash 0] ++ exampleProjecting ++ [.finish 0] ++
      [.beginRead exampleContext 12] ++ List.replicate 5 (.read 0) : List Action).map (⟨50, ·⟩)

/-- Whether the answer is what the example expects. -/
def exampleAnswer : ReadPhase → Bool
  | .answered _ report => decide (report.pendingEvents = 0 ∧
      (report.decisions.map fun a => (a.decisionId, a.becauseOf)) = [(50, [(12, "relied_on")])] ∧
      report.supersededBy = [22])
  | _ => false

theorem exampleEvents_answered : ((system exampleRuntime).run exampleStart exampleEvents).any
    (fun w => w.reads.any fun call => exampleAnswer call.phase) = true := by
  decide +kernel

theorem impact_agrees_example : ∃ w, (system exampleRuntime).Reachable w ∧ ∃ call ∈ w.reads,
    ∃ seen report, call.phase = .answered seen report ∧
      (report.decisions.map fun a => (a.decisionId, a.becauseOf)) = [(50, [(12, "relied_on")])] ∧
      report.supersededBy = [22] ∧ Complete seen call.versionId report.decisions ∧
      Listed w.db call.ctx.organizationId call.versionId report.decisions ∧
      Successors seen call.versionId report.supersededBy := by
  obtain ⟨w, hrun, hany⟩ := (Option.any_eq_true _ _).mp exampleEvents_answered
  obtain ⟨call, hcall, hanswer⟩ := List.any_eq_true.mp hany
  have hw : (system exampleRuntime).Reachable w :=
    ⟨exampleStart, exampleEvents, exampleStart_start, hrun⟩
  cases hphase : call.phase with
  | answered seen report =>
    rw [hphase] at hanswer
    obtain ⟨hpending, hdecisions, hlater⟩ := of_decide_eq_true hanswer
    exact ⟨w, hw, call, hcall, seen, report, hphase, hdecisions, hlater,
      impact_agrees exampleRuntime w hw call hcall seen report hphase hpending⟩
  | _ => exact absurd hanswer (by simp [hphase, exampleAnswer])

end ContextLedger.GraphImpact
