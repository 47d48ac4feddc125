import ContextLedger.Ledger

/-!
What later calls do to the rows a receipt is made of. The decision, its snapshot
and the versions in it stay; a version may be closed by a later write, which
changes neither its identity nor its value nor how it looked before that write.
-/
namespace ContextLedger.ReceiptRows

open Values Authorization Schema Facts VersionTable Recording Reference Revocations Knowledge
open Retrieval Decisions Ledger

/-- A row whose version was closed by a later write, or not. -/
def withVersion (advance : FactVersion → FactVersion) (row : SnapshotFactRow) : SnapshotFactRow :=
  { row with version := advance row.version }

/-- What a later call may do to a version: nothing a reader could have known before
`clock` changes. -/
structure Advances (db : Database) (clock : Instant) (advance : FactVersion → FactVersion) :
    Prop where
  id : ∀ v ∈ db.versions, (advance v).id = v.id
  value : ∀ v ∈ db.versions, (advance v).value = v.value
  privacyScope : ∀ v ∈ db.versions, (advance v).privacyScope = v.privacyScope
  asKnown : ∀ v ∈ db.versions, ∀ k < clock,
    asKnown (some k) (toSnapshot (advance v)) = asKnown (some k) (toSnapshot v)

theorem advances_self (db : Database) (clock : Instant) : Advances db clock fun v => v :=
  ⟨fun _ _ => rfl, fun _ _ => rfl, fun _ _ => rfl, fun _ _ _ _ => rfl⟩

theorem touched_sourceId (write : VersionWrite) (v : FactVersion) :
    (touched write v).sourceId = v.sourceId := by
  rcases touched_cases write v with h | ⟨-, c, -, -, h⟩ <;> simp [h, FactVersion.close]

/-- A write closes one version, at the end of what was known before. -/
theorem advances_touched {db : Database} (h : Sound db) {write : VersionWrite} {clock : Instant}
    (hclock : clock ≤ write.version.recordedAt) : Advances db clock (touched write) := by
  refine ⟨fun v _ => touched_id write v, ?_, ?_, ?_⟩
  · intro v _
    rcases touched_cases write v with hsame | ⟨-, c, -, -, hclosed⟩
    · rw [hsame]
    · rw [hclosed]
      rfl
  · intro v _
    rcases touched_cases write v with hsame | ⟨-, c, -, -, hclosed⟩
    · rw [hsame]
    · rw [hclosed]
      rfl
  · intro v hv k hk
    exact asKnown_touched h (lt_of_lt_of_le hk hclock) hv

section Recorded

variable {db : Database} {write : VersionWrite}

theorem facts_apply_filter (h : Intact db) (happ : Appends db write) {v : FactVersion}
    (hv : v ∈ db.versions) :
    ((write.apply db).facts.filter fun f =>
      f.organizationId == v.organizationId && f.id == v.factId) =
      db.facts.filter fun f => f.organizationId == v.organizationId && f.id == v.factId := by
  rw [apply_facts, List.filter_append]
  have hnone : (write.fact.toList.filter fun f =>
      f.organizationId == v.organizationId && f.id == v.factId) = [] := by
    rw [List.filter_eq_nil_iff]
    intro f hf hmatch
    obtain ⟨g, hg, -, hgid⟩ := h.sound.factOf v hv
    simp only [Bool.and_eq_true, beq_iff_eq] at hmatch
    rcases happ.target with ⟨hold, -⟩ | ⟨new, hnew, -, -, hfresh⟩
    · simp [hold] at hf
    · obtain rfl : f = new := by simpa [hnew] using hf
      exact hfresh g hg (hgid.trans hmatch.2.symm)
  rw [hnone, List.append_nil]

theorem entities_apply_filter (h : Intact db) (hplaced : Placed db write) {f : Fact}
    (hf : f ∈ db.facts) :
    ((write.apply db).entities.filter fun e =>
      e.organizationId == f.organizationId && e.id == f.entityId) =
      db.entities.filter fun e => e.organizationId == f.organizationId && e.id == f.entityId := by
  rw [apply_entities, List.filter_append]
  have hnone : (write.entity.toList.filter fun e =>
      e.organizationId == f.organizationId && e.id == f.entityId) = [] := by
    rw [List.filter_eq_nil_iff]
    intro e he hmatch
    obtain ⟨g, hg, -, hgid⟩ := h.entityOf f hf
    simp only [Bool.and_eq_true, beq_iff_eq] at hmatch
    exact hplaced.entityFresh e (Option.mem_toList.mp he) g hg (hgid.trans hmatch.2.symm)
  rw [hnone, List.append_nil]

/-- A write adds rows but gives no version another fact or entity. -/
theorem joinedTo_apply (h : Intact db) (happ : Appends db write) (hplaced : Placed db write)
    {v : FactVersion} (hv : v ∈ db.versions) :
    joinedTo (write.apply db) (touched write v) = joinedTo db v := by
  unfold joinedTo
  rw [touched_organizationId, touched_factId, facts_apply_filter h happ hv]
  apply List.flatMap_congr
  intro f hf
  rw [entities_apply_filter h hplaced (List.mem_of_mem_filter hf)]

theorem versionRows_apply (h : Intact db) (happ : Appends db write) (hplaced : Placed db write)
    (s : ContextSnapshotFact) {v : FactVersion} (hv : v ∈ db.versions) :
    versionRows (write.apply db) s (touched write v) =
      (versionRows db s v).map (withVersion (touched write)) := by
  unfold versionRows
  rw [joinedTo_apply h happ hplaced hv, List.map_flatMap, apply_sources, touched_organizationId,
    touched_sourceId]
  apply List.flatMap_congr
  intro row _
  rw [List.map_map]
  rfl

/-- The new version is in no snapshot, so a snapshot has the same rows as before. -/
theorem snapshotRows_apply (h : Intact db) (happ : Appends db write) (hplaced : Placed db write)
    (org snapshotId : Uuid) : snapshotRows (write.apply db) org snapshotId =
      (snapshotRows db org snapshotId).map (withVersion (touched write)) := by
  have hsort (rows : List SnapshotFactRow) :
      (rows.insertionSort fun a b => a.snapshotFact.position ≤ b.snapshotFact.position).map
        (withVersion (touched write)) = (rows.map (withVersion (touched write))).insertionSort
          fun a b => a.snapshotFact.position ≤ b.snapshotFact.position :=
    List.map_insertionSort _ _ _ _ fun _ _ _ _ => Iff.rfl
  unfold snapshotRows
  rw [hsort, apply_snapshotFacts, List.map_flatMap]
  congr 1
  apply List.flatMap_congr
  intro s hs
  obtain ⟨old, hold, -, holdId⟩ := h.versionOf s (List.mem_of_mem_filter hs)
  have hnew : ([write.version].filter fun v =>
      v.organizationId == s.organizationId && v.id == s.factVersionId) = [] := by
    rw [List.filter_eq_nil_iff]
    intro v hv hmatch
    obtain rfl := List.mem_singleton.mp hv
    simp only [Bool.and_eq_true, beq_iff_eq] at hmatch
    exact happ.fresh old hold (holdId.trans hmatch.2.symm)
  rw [apply_versions, List.filter_append, hnew, List.append_nil, List.filter_map, List.flatMap_map,
    List.map_flatMap]
  have hfilter : (db.versions.filter ((fun v : FactVersion =>
      v.organizationId == s.organizationId && v.id == s.factVersionId) ∘ touched write)) =
      db.versions.filter fun v =>
        v.organizationId == s.organizationId && v.id == s.factVersionId := by
    apply List.filter_congr
    intro v _
    simp
  rw [hfilter]
  apply List.flatMap_congr
  intro v hv
  exact versionRows_apply h happ hplaced s (List.mem_of_mem_filter hv)

end Recorded

theorem getSnapshot_mem {db : Database} {org id : Uuid} {snapshot : ContextSnapshot}
    (h : getSnapshot db org id = some snapshot) :
    snapshot ∈ db.snapshots ∧ snapshot.organizationId = org ∧ snapshot.id = id := by
  have hkey := List.find?_some h
  simp only [Bool.and_eq_true, beq_iff_eq] at hkey
  exact ⟨List.mem_of_find?_eq_some h, hkey⟩

theorem getDecision_mem {db : Database} {org id : Uuid} {decision : Decision}
    (h : getDecision db org id = some decision) :
    decision ∈ db.decisions ∧ decision.organizationId = org ∧ decision.id = id := by
  have hkey := List.find?_some h
  simp only [Bool.and_eq_true, beq_iff_eq] at hkey
  exact ⟨List.mem_of_find?_eq_some h, hkey⟩

/-- A snapshot shows versions that are in the table. -/
theorem snapshotRows_version_mem {db : Database} {org snapshotId : Uuid} {row : SnapshotFactRow}
    (h : row ∈ snapshotRows db org snapshotId) : row.version ∈ db.versions := by
  unfold snapshotRows at h
  rw [List.mem_insertionSort] at h
  obtain ⟨s, -, hrow⟩ := List.mem_flatMap.mp h
  obtain ⟨v, hv, hrow⟩ := List.mem_flatMap.mp hrow
  obtain ⟨joined, -, hrow⟩ := List.mem_flatMap.mp hrow
  obtain ⟨source, -, rfl⟩ := List.mem_map.mp hrow
  exact List.mem_of_mem_filter hv

section Later

variable {db db' : Database} {clock : Instant} {org : Uuid}

theorem getSnapshot_effect {id : Uuid} {snapshot : ContextSnapshot}
    (he : Effect db clock db') (h : getSnapshot db org id = some snapshot) :
    getSnapshot db' org id = some snapshot := by
  unfold getSnapshot at h ⊢
  cases he with
  | recorded write happ hplaced hclock hlinks =>
    rw [apply_snapshots]
    exact h
  | linked links hlinks => exact h
  | revoked write => exact h
  | captured new facts hfresh hfacts => rw [List.find?_append, h, Option.some_or]
  | decided decision relied hfresh => exact h

theorem getDecision_effect {id : Uuid} {decision : Decision}
    (he : Effect db clock db') (h : getDecision db org id = some decision) :
    getDecision db' org id = some decision := by
  unfold getDecision at h ⊢
  cases he with
  | recorded write happ hplaced hclock hlinks =>
    rw [apply_decisions]
    exact h
  | linked links hlinks => exact h
  | revoked write => exact h
  | captured new facts hfresh hfacts => exact h
  | decided new relied hfresh =>
    show (db.decisions ++ [new]).find? _ = some decision
    rw [List.find?_append, h, Option.some_or]

theorem reliedOn_effect {id : Uuid} {decision : Decision} (he : Effect db clock db')
    (h : getDecision db org id = some decision) : reliedOn db' org id = reliedOn db org id := by
  cases he with
  | recorded write happ hplaced hclock hlinks =>
    unfold reliedOn
    rw [apply_decisionFacts]
  | linked links hlinks => rfl
  | revoked write => rfl
  | captured new facts hfresh hfacts => rfl
  | decided new relied hfresh =>
    obtain ⟨hmem, -, hid⟩ := getDecision_mem h
    have hnone : ((relied.map fun versionId => (⟨new.organizationId, new.id, new.snapshotId,
        versionId⟩ : DecisionFact)).filter fun r =>
          r.organizationId == org && r.decisionId == id) = [] := by
      rw [List.filter_eq_nil_iff]
      intro r hr hmatch
      obtain ⟨versionId, -, rfl⟩ := List.mem_map.mp hr
      simp only [Bool.and_eq_true, beq_iff_eq] at hmatch
      exact hfresh decision hmem (hid.trans hmatch.2.symm)
    unfold reliedOn
    show ((db.decisionFacts ++ _).filter _).map _ = _
    rw [List.filter_append, hnone, List.append_nil]

/-- Whatever a call does, a snapshot keeps its rows; their versions may be closed. -/
theorem snapshotRows_effect {id : Uuid} {snapshot : ContextSnapshot} (h : Intact db)
    (he : Effect db clock db') (hs : getSnapshot db org id = some snapshot) :
    ∃ advance, Advances db clock advance ∧
      snapshotRows db' org id = (snapshotRows db org id).map (withVersion advance) := by
  have hsame (rows : List SnapshotFactRow) : rows = rows.map (withVersion fun v => v) :=
    (List.map_id rows).symm
  cases he with
  | recorded write happ hplaced hclock hlinks =>
    exact ⟨touched write, advances_touched h.sound hclock,
      snapshotRows_apply h happ hplaced org id⟩
  | linked links hlinks => exact ⟨_, advances_self db clock, hsame _⟩
  | revoked write => exact ⟨_, advances_self db clock, hsame _⟩
  | captured new facts hfresh hfacts =>
    refine ⟨_, advances_self db clock, ?_⟩
    rw [← hsame]
    obtain ⟨hmem, -, hid⟩ := getSnapshot_mem hs
    have hnone : (facts.filter fun f => f.organizationId == org && f.snapshotId == id) = [] := by
      rw [List.filter_eq_nil_iff]
      intro f hf hmatch
      simp only [Bool.and_eq_true, beq_iff_eq] at hmatch
      apply hfresh snapshot hmem
      rw [hid, ← hmatch.2, (hfacts f hf).1]
    unfold snapshotRows
    simp only [List.filter_append, hnone, List.append_nil]
    rfl
  | decided new relied hfresh => exact ⟨_, advances_self db clock, hsame _⟩

end Later

end ContextLedger.ReceiptRows
