import ContextLedger.VersionChain

/-!
The version table as a whole. Every version belongs to a fact, identifiers are
not reused, and the rows of each fact form a chain whose last version can only
have an end that was given when it was recorded. `Appends` says everything a
write does to the fact it is made for; each such write keeps the table sound.
-/
namespace ContextLedger.VersionTable

open Values FactRules Schema Facts Bitemporal VersionChain

/-- A chain whose last version has not been closed by a successor. -/
structure History (vs : List FactVersion) : Prop extends Chain vs where
  lastEnd : ∀ v u, vs.getLast? = some v → v.validUntil = some u →
    v.validUntilRecordedAt = some v.recordedAt

structure Sound (db : Database) : Prop where
  factIds : (db.facts.map Fact.id).Nodup
  versionIds : (db.versions.map FactVersion.id).Nodup
  factOf : ∀ v ∈ db.versions, ∃ f ∈ db.facts,
    f.organizationId = v.organizationId ∧ f.id = v.factId
  rowsChecked : ∀ v ∈ db.versions, ∀ c ∈ versionRowChecks v, c.2 = false
  histories : ∀ org factId, History (versionsOf db org factId)

/-- What a write does to the version it supersedes. -/
structure AppendsTo (v : FactVersion) (write : VersionWrite) : Prop where
  number : write.version.version = v.version + 1
  supersedes : write.version.supersedesId = some v.id
  starts : v.validFrom < write.version.validFrom
  recorded : v.recordedAt < write.version.recordedAt
  closing : (v.validUntil = none ∧ write.closing = some (v.id, write.version.validFrom)) ∨
    ∃ u, v.validUntil = some u ∧ u ≤ write.version.validFrom ∧ write.closing = none

structure BeginsHistory (write : VersionWrite) : Prop where
  number : write.version.version = 1
  supersedes : write.version.supersedesId = none
  closing : write.closing = none

def newFactOf (db : Database) (write : VersionWrite) : Prop :=
  ∃ f, write.fact = some f ∧ f.organizationId = write.version.organizationId ∧
    f.id = write.version.factId ∧ ∀ g ∈ db.facts, g.id ≠ f.id

def oldFactOf (db : Database) (write : VersionWrite) : Prop :=
  write.fact = none ∧ ∃ f ∈ db.facts, f.organizationId = write.version.organizationId ∧
    f.id = write.version.factId

/-- The write appends one version to the fact it is made for. -/
structure Appends (db : Database) (write : VersionWrite) : Prop where
  target : oldFactOf db write ∨ newFactOf db write
  fresh : ∀ v ∈ db.versions, v.id ≠ write.version.id
  ordered : ∀ u, write.version.validUntil = some u → write.version.validFrom < u
  ownEnd : write.version.validUntilRecordedAt =
    write.version.validUntil.map fun _ => write.version.recordedAt
  rowChecked : ∀ c ∈ versionRowChecks write.version, c.2 = false
  source : ∃ s ∈ db.sources, s.organizationId = write.version.organizationId ∧
    s.id = write.version.sourceId
  begins : latestVersion db write.version.organizationId write.version.factId = none →
    BeginsHistory write
  continues : ∀ v, latestVersion db write.version.organizationId write.version.factId = some v →
    AppendsTo v write

theorem Appends.wellFormed {db : Database} {write : VersionWrite} (h : Appends db write) :
    (span write.version).WellFormed := by
  refine ⟨h.ordered, ?_⟩
  show write.version.validUntil = none ↔ write.version.validUntilRecordedAt = none
  rw [h.ownEnd, Option.map_eq_none_iff]

/-- An existing row after the write: closed if it is the open version superseded. -/
def touched (write : VersionWrite) (v : FactVersion) : FactVersion :=
  match write.closing with
  | none => v
  | some c =>
    if v.organizationId = write.version.organizationId ∧ v.id = c.1 ∧ v.validUntil = none then
      v.close c.2 write.version.recordedAt
    else v

theorem touched_cases (write : VersionWrite) (v : FactVersion) :
    touched write v = v ∨
      (v.validUntil = none ∧ ∃ c, write.closing = some c ∧ v.id = c.1 ∧
        touched write v = v.close c.2 write.version.recordedAt) := by
  unfold touched
  cases hclosing : write.closing with
  | none => exact Or.inl rfl
  | some c =>
    simp only
    split
    · rename_i h
      exact Or.inr ⟨h.2.2, c, rfl, h.2.1, rfl⟩
    · exact Or.inl rfl

@[simp] theorem touched_id (write : VersionWrite) (v : FactVersion) :
    (touched write v).id = v.id := by
  rcases touched_cases write v with h | ⟨-, c, -, -, h⟩ <;> simp [h, FactVersion.close]

@[simp] theorem touched_organizationId (write : VersionWrite) (v : FactVersion) :
    (touched write v).organizationId = v.organizationId := by
  rcases touched_cases write v with h | ⟨-, c, -, -, h⟩ <;> simp [h, FactVersion.close]

@[simp] theorem touched_factId (write : VersionWrite) (v : FactVersion) :
    (touched write v).factId = v.factId := by
  rcases touched_cases write v with h | ⟨-, c, -, -, h⟩ <;> simp [h, FactVersion.close]

theorem touched_of_id_ne {write : VersionWrite} {v : FactVersion}
    (h : ∀ c, write.closing = some c → v.id ≠ c.1) : touched write v = v := by
  rcases touched_cases write v with h' | ⟨-, c, hc, hid, -⟩
  · exact h'
  · exact absurd hid (h c hc)

theorem withPlace_versions (write : VersionWrite) (db : Database) :
    (write.withPlace db).versions = db.versions := by
  unfold VersionWrite.withPlace
  cases write.entity <;> cases write.fact <;> rfl

theorem withPlace_facts (write : VersionWrite) (db : Database) :
    (write.withPlace db).facts = db.facts ++ write.fact.toList := by
  unfold VersionWrite.withPlace
  cases write.entity <;> cases write.fact <;> simp [Database.addEntity, Database.addFact]

theorem withPlace_sources (write : VersionWrite) (db : Database) :
    (write.withPlace db).sources = db.sources := by
  unfold VersionWrite.withPlace
  cases write.entity <;> cases write.fact <;> rfl

theorem withClose_versions (write : VersionWrite) (db : Database) :
    (write.withClose db).versions = db.versions.map (touched write) := by
  unfold VersionWrite.withClose
  cases hclosing : write.closing with
  | none =>
    have hid : touched write = id := by
      funext v
      simp [touched, hclosing]
    simp [hid]
  | some c =>
    have hfun : touched write = fun v =>
        if v.organizationId = write.version.organizationId ∧ v.id = c.1 ∧ v.validUntil = none then
          v.close c.2 write.version.recordedAt else v := by
      funext v
      simp [touched, hclosing]
    rw [hfun]
    rfl

theorem withClose_facts (write : VersionWrite) (db : Database) :
    (write.withClose db).facts = db.facts := by
  unfold VersionWrite.withClose
  cases write.closing <;> rfl

theorem withClose_sources (write : VersionWrite) (db : Database) :
    (write.withClose db).sources = db.sources := by
  unfold VersionWrite.withClose
  cases write.closing <;> rfl

@[simp] theorem apply_versions (write : VersionWrite) (db : Database) :
    (write.apply db).versions = db.versions.map (touched write) ++ [write.version] := by
  show ((write.withClose (write.withPlace db)).versions ++ [write.version]) = _
  rw [withClose_versions, withPlace_versions]

@[simp] theorem apply_facts (write : VersionWrite) (db : Database) :
    (write.apply db).facts = db.facts ++ write.fact.toList := by
  show (write.withClose (write.withPlace db)).facts = _
  rw [withClose_facts, withPlace_facts]

theorem apply_sources (write : VersionWrite) (db : Database) :
    (write.apply db).sources = db.sources := by
  show (write.withClose (write.withPlace db)).sources = db.sources
  rw [withClose_sources, withPlace_sources]

theorem apply_entities (write : VersionWrite) (db : Database) :
    (write.apply db).entities = db.entities ++ write.entity.toList := by
  show (write.withClose (write.withPlace db)).entities = _
  unfold VersionWrite.withClose VersionWrite.withPlace
  cases write.entity <;> cases write.fact <;> cases write.closing <;>
    simp [Database.addEntity, Database.addFact, Database.closeVersion]

theorem versionsOf_apply (write : VersionWrite) (db : Database) (org factId : Uuid) :
    versionsOf (write.apply db) org factId = (versionsOf db org factId).map (touched write) ++
      if write.version.organizationId = org ∧ write.version.factId = factId
        then [write.version] else [] := by
  unfold versionsOf
  rw [apply_versions, List.filter_append, List.filter_map]
  congr 1
  · congr 1
    apply List.filter_congr
    intro v _
    simp
  · by_cases h : write.version.organizationId = org ∧ write.version.factId = factId
    · rw [if_pos h]
      simp [h.1, h.2]
    · rw [if_neg h]
      simpa [List.filter_cons] using h

theorem mem_versionsOf {db : Database} {org factId : Uuid} {v : FactVersion} :
    v ∈ versionsOf db org factId ↔
      v ∈ db.versions ∧ v.organizationId = org ∧ v.factId = factId := by
  simp [versionsOf]

namespace Sound

variable {db : Database}

theorem latest_eq (h : Sound db) (org factId : Uuid) :
    latestVersion db org factId = (versionsOf db org factId).getLast? :=
  (h.histories org factId).argmax_version

theorem eq_of_id (h : Sound db) {v w : FactVersion} (hv : v ∈ db.versions) (hw : w ∈ db.versions)
    (hid : v.id = w.id) : v = w :=
  List.inj_on_of_nodup_map h.versionIds hv hw hid

/-- The version a write closes is the latest one of its own fact. -/
theorem closing_mem {write : VersionWrite} (happ : Appends db write) {c : Uuid × Instant}
    (hc : write.closing = some c) : ∃ v,
      latestVersion db write.version.organizationId write.version.factId = some v ∧ v.id = c.1 := by
  cases hlatest : latestVersion db write.version.organizationId write.version.factId with
  | none =>
    have hnone := (happ.begins hlatest).closing
    rw [hc] at hnone
    exact absurd hnone (by simp)
  | some v =>
    refine ⟨v, rfl, ?_⟩
    rcases (happ.continues v hlatest).closing with ⟨-, hclosing⟩ | ⟨-, -, -, hclosing⟩
    · rw [hc] at hclosing
      exact congrArg Prod.fst (Option.some.inj hclosing).symm
    · rw [hc] at hclosing
      exact absurd hclosing (by simp)

theorem latest_mem {org factId : Uuid} {v : FactVersion}
    (hv : latestVersion db org factId = some v) : v ∈ versionsOf db org factId :=
  List.argmax_mem hv

theorem one_le_version (h : Sound db) {v : FactVersion} (hv : v ∈ db.versions) :
    1 ≤ v.version := by
  have hcheck := h.rowsChecked v hv
    ("ck_fact_versions_version_positive", !decide (1 ≤ v.version)) (by simp [versionRowChecks])
  simpa using hcheck

/-- A fact belongs to one organization, so its rows are one history. -/
theorem mem_history (h : Sound db) {v w : FactVersion} (hv : v ∈ db.versions)
    (hw : w ∈ db.versions) (hfact : v.factId = w.factId) :
    v ∈ versionsOf db w.organizationId w.factId := by
  obtain ⟨f, hf, hforg, hfid⟩ := h.factOf v hv
  obtain ⟨g, hg, hgorg, hgid⟩ := h.factOf w hw
  have hfg : f = g := by
    apply List.inj_on_of_nodup_map h.factIds hf hg
    rw [hfid, hgid, hfact]
  refine mem_versionsOf.mpr ⟨hv, ?_, hfact⟩
  rw [← hforg, ← hgorg, hfg]

theorem mem_own (_ : Sound db) {v : FactVersion} (hv : v ∈ db.versions) :
    v ∈ versionsOf db v.organizationId v.factId := mem_versionsOf.mpr ⟨hv, rfl, rfl⟩

theorem eq_of_version (h : Sound db) {v w : FactVersion} (hv : v ∈ db.versions)
    (hw : w ∈ db.versions) (hfact : v.factId = w.factId) (hnumber : v.version = w.version) :
    v = w :=
  (h.histories w.organizationId w.factId).eq_of_version (h.mem_history hv hw hfact)
    (h.mem_own hw) hnumber

theorem superseded_mem (h : Sound db) {v : FactVersion} (hv : v ∈ db.versions) {p : Uuid}
    (hp : v.supersedesId = some p) :
    ∃ u ∈ db.versions, u.id = p ∧ u.factId = v.factId ∧ v.version = u.version + 1 := by
  obtain ⟨u, hu, hup, hnumber⟩ :=
    (h.histories v.organizationId v.factId).superseded_mem (h.mem_own hv) hp
  have hmem := mem_versionsOf.mp hu
  exact ⟨u, hmem.1, hup, hmem.2.2, hnumber⟩

/-- A version is superseded at most once. -/
theorem eq_of_supersedes (h : Sound db) {v w : FactVersion} (hv : v ∈ db.versions)
    (hw : w ∈ db.versions) {p : Uuid} (hvp : v.supersedesId = some p)
    (hwp : w.supersedesId = some p) : v = w := by
  obtain ⟨u, hu, hup, hufact, hunumber⟩ := h.superseded_mem hv hvp
  obtain ⟨x, hx, hxp, hxfact, hxnumber⟩ := h.superseded_mem hw hwp
  obtain rfl : u = x := h.eq_of_id hu hx (hup.trans hxp.symm)
  exact h.eq_of_version hv hw (hufact.symm.trans hxfact) (hunumber.trans hxnumber.symm)

private theorem not_overlap_of_precedes {v w : FactVersion} (hvw : (span v).Precedes (span w)) :
    rangesOverlap v w = false ∧ rangesOverlap w v = false := by
  obtain ⟨-, -, u, e, hu, -, hle, -⟩ := hvw
  have huv : v.validUntil = some u := hu
  have hnot : ¬ w.validFrom < u := not_lt.mpr hle
  simp [rangesOverlap, huv, hnot]

theorem not_overlap (h : Sound db) {v w : FactVersion} (hv : v ∈ db.versions)
    (hw : w ∈ db.versions) (hfact : v.factId = w.factId) (hne : v ≠ w) :
    rangesOverlap v w ≠ true := by
  rcases (h.histories w.organizationId w.factId).precedes_or (h.mem_history hv hw hfact)
    (h.mem_own hw) hne with hvw | hwv
  · rw [(not_overlap_of_precedes hvw).1]
    simp
  · rw [(not_overlap_of_precedes hwv).2]
    simp

/-- Rows of other facts keep their ends. -/
theorem map_touched_other (h : Sound db) {write : VersionWrite} (happ : Appends db write)
    {org factId : Uuid}
    (hother : ¬ (write.version.organizationId = org ∧ write.version.factId = factId)) :
    (versionsOf db org factId).map (touched write) = versionsOf db org factId := by
  refine (List.map_congr_left (g := id) ?_).trans (List.map_id _)
  intro v hv
  apply touched_of_id_ne
  intro c hc hid
  obtain ⟨w, hw, hwid⟩ := closing_mem happ hc
  have hwmem := mem_versionsOf.mp (latest_mem hw)
  have hvmem := mem_versionsOf.mp hv
  obtain rfl := h.eq_of_id hvmem.1 hwmem.1 (hid.trans hwid.symm)
  exact hother ⟨hwmem.2.1.symm.trans hvmem.2.1, hwmem.2.2.symm.trans hvmem.2.2⟩

/-- Versions before the last keep their ends. -/
theorem map_touched_init (h : Sound db) {write : VersionWrite} (happ : Appends db write)
    {init : List FactVersion} {v : FactVersion}
    (hvs : versionsOf db write.version.organizationId write.version.factId = init ++ [v]) :
    init.map (touched write) = init := by
  have hsub : (init ++ [v]).Sublist db.versions := hvs ▸ List.filter_sublist
  have hnodup : ((init ++ [v]).map FactVersion.id).Nodup := (hsub.map _).nodup h.versionIds
  have hlatest : latestVersion db write.version.organizationId write.version.factId = some v := by
    rw [h.latest_eq, hvs, List.getLast?_concat]
  refine (List.map_congr_left (g := id) ?_).trans (List.map_id _)
  intro w hw
  apply touched_of_id_ne
  intro c hc hid
  obtain ⟨v', hv', hv'id⟩ := closing_mem happ hc
  obtain rfl : v = v' := Option.some.inj (hlatest.symm.trans hv')
  rw [List.map_append, List.nodup_append] at hnodup
  exact hnodup.2.2 w.id (List.mem_map_of_mem hw) v.id (by simp) (hid.trans hv'id.symm)

end Sound

private theorem history_first {write : VersionWrite} {db : Database} (happ : Appends db write)
    (hbegin : BeginsHistory write) : History [write.version] := by
  refine ⟨chain_singleton hbegin.number hbegin.supersedes happ.wellFormed, ?_⟩
  intro v u hv hu
  obtain rfl : write.version = v := by simpa using hv
  rw [happ.ownEnd, hu]
  rfl

private theorem successor_of_appends {v v' w : FactVersion} (hid : v'.id = v.id)
    (hnumber : w.version = v'.version + 1) (hsup : w.supersedesId = some v.id)
    (hfollows : (span v').Follows (span w)) : Successor v' w :=
  ⟨hnumber, by rw [hsup, hid], hfollows⟩

private theorem history_next {write : VersionWrite} {db : Database} (happ : Appends db write)
    {init : List FactVersion} {v : FactVersion} (h : History (init ++ [v]))
    (hmem : v.organizationId = write.version.organizationId) (hto : AppendsTo v write) :
    History (init ++ [touched write v] ++ [write.version]) := by
  have hlast : ∀ w u, (init ++ [touched write v] ++ [write.version]).getLast? = some w →
      w.validUntil = some u → w.validUntilRecordedAt = some w.recordedAt := by
    intro w u hw hu
    obtain rfl : write.version = w := by simpa using hw
    rw [happ.ownEnd, hu]
    rfl
  refine ⟨?_, hlast⟩
  rcases hto.closing with ⟨hopen, hclosing⟩ | ⟨u, hu, hle, hclosing⟩
  · have htouched : touched write v =
        v.close write.version.validFrom write.version.recordedAt := by
      simp [touched, hclosing, hmem, hopen]
    rw [htouched]
    refine (h.toChain.close_last hto.starts).snoc ?_ happ.wellFormed
    refine successor_of_appends (v := v) rfl hto.number hto.supersedes ?_
    exact ⟨hto.starts, hto.recorded, write.version.validFrom, rfl, le_refl _, Or.inr ⟨rfl, rfl⟩⟩
  · have htouched : touched write v = v := by
      simp [touched, hclosing]
    rw [htouched]
    refine h.toChain.snoc ?_ happ.wellFormed
    refine successor_of_appends (v := v) rfl hto.number hto.supersedes ?_
    refine ⟨hto.starts, hto.recorded, u, hu, hle, Or.inl ?_⟩
    exact h.lastEnd v u (by simp) hu

/-- Closing keeps the constraints of the row, since the end lies after the start. -/
private theorem touched_rowChecked {write : VersionWrite} {db : Database} (h : Sound db)
    (happ : Appends db write) {v : FactVersion} (hv : v ∈ db.versions) :
    ∀ c ∈ versionRowChecks (touched write v), c.2 = false := by
  rcases touched_cases write v with htouched | ⟨hopen, c, hc, hid, htouched⟩
  · rw [htouched]
    exact h.rowsChecked v hv
  · obtain ⟨w, hlatest, hwid⟩ := Sound.closing_mem happ hc
    have hw := mem_versionsOf.mp (Sound.latest_mem hlatest)
    obtain rfl : v = w := h.eq_of_id hv hw.1 (hid.trans hwid.symm)
    have hto := happ.continues v hlatest
    have hfinish : c.2 = write.version.validFrom := by
      rcases hto.closing with ⟨-, hclosing⟩ | ⟨-, -, -, hclosing⟩
      · exact congrArg Prod.snd (Option.some.inj (hc.symm.trans hclosing))
      · exact absurd (hc.symm.trans hclosing) (by simp)
    have hchecks := h.rowsChecked v hv
    rw [htouched]
    simp only [versionRowChecks, List.mem_cons, List.not_mem_nil, or_false, forall_eq_or_imp,
      forall_eq] at hchecks ⊢
    obtain ⟨h1, h2, -, -, h5, h6, h7⟩ := hchecks
    refine ⟨h1, h2, ?_, by simp [FactVersion.close], h5, h6, h7⟩
    simpa [FactVersion.close, hfinish] using hto.starts

/-- Appending a version keeps every history. -/
theorem Sound.apply {db : Database} (h : Sound db) {write : VersionWrite}
    (happ : Appends db write) : Sound (write.apply db) := by
  refine ⟨?_, ?_, ?_, ?_, ?_⟩
  · rw [apply_facts]
    rcases happ.target with ⟨hnone, -⟩ | ⟨f, hsome, -, -, hfresh⟩
    · rw [hnone]
      simpa using h.factIds
    · rw [hsome, Option.toList_some, List.map_append, List.nodup_append]
      refine ⟨h.factIds, by simp, ?_⟩
      intro a ha b hb
      obtain ⟨g, hg, rfl⟩ := List.mem_map.mp ha
      obtain rfl : b = f.id := by simpa using hb
      exact hfresh g hg
  · rw [apply_versions, List.map_append, List.map_map, List.nodup_append]
    have hids : FactVersion.id ∘ touched write = FactVersion.id := by
      funext v
      simp
    rw [hids]
    refine ⟨h.versionIds, by simp, ?_⟩
    intro a ha b hb
    obtain ⟨v, hv, rfl⟩ := List.mem_map.mp ha
    obtain rfl : b = write.version.id := by simpa using hb
    exact happ.fresh v hv
  · intro v hv
    rw [apply_versions, List.mem_append] at hv
    rw [apply_facts]
    rcases hv with hv | hv
    · obtain ⟨w, hw, rfl⟩ := List.mem_map.mp hv
      obtain ⟨f, hf, hforg, hfid⟩ := h.factOf w hw
      exact ⟨f, List.mem_append_left _ hf, by simpa using hforg, by simpa using hfid⟩
    · obtain rfl : v = write.version := by simpa using hv
      rcases happ.target with ⟨-, f, hf, hforg, hfid⟩ | ⟨f, hsome, hforg, hfid, -⟩
      · exact ⟨f, List.mem_append_left _ hf, hforg, hfid⟩
      · exact ⟨f, List.mem_append_right _ (by simp [hsome]), hforg, hfid⟩
  · intro v hv
    rw [apply_versions, List.mem_append] at hv
    rcases hv with hv | hv
    · obtain ⟨w, hw, rfl⟩ := List.mem_map.mp hv
      exact touched_rowChecked h happ hw
    · obtain rfl : v = write.version := by simpa using hv
      exact happ.rowChecked
  · intro org factId
    rw [versionsOf_apply]
    split
    · rename_i heq
      obtain ⟨rfl, rfl⟩ := heq
      have hhist := h.histories write.version.organizationId write.version.factId
      have hlatest := h.latest_eq write.version.organizationId write.version.factId
      rcases List.eq_nil_or_concat
        (versionsOf db write.version.organizationId write.version.factId) with hnil | ⟨init, v, hvs⟩
      · rw [hnil] at hlatest ⊢
        exact history_first happ (happ.begins hlatest)
      · rw [List.concat_eq_append] at hvs
        rw [hvs, List.getLast?_concat] at hlatest
        have hmem := (mem_versionsOf.mp (Sound.latest_mem hlatest)).2.1
        rw [hvs] at hhist ⊢
        rw [List.map_append, h.map_touched_init happ hvs, List.map_singleton]
        exact history_next happ hhist hmem (happ.continues v hlatest)
    · rename_i hother
      rw [h.map_touched_other happ hother, List.append_nil]
      exact h.histories org factId

end ContextLedger.VersionTable
