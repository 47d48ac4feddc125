import ContextLedger.EmbeddingLeases
import ContextLedger.Recording

/-!
Where the vectors of the embedding rows come from. A worker carries the texts of
its batch, the vectors it found in the organizations of its jobs and the vectors
that the provider returned; each of them is tied to the text it stands for by the
hash, so that neither a text sent once for several jobs, nor a chunk, nor a vector
reused from an older row can put the vector of one text beside another.
-/
namespace ContextLedger.EmbeddingProvenance

open JsonText Values Schema Facts VersionTable Recording Retrieval Decisions Transition Processes
open EmbeddingQueue EmbeddingLeases
open DecisionWorld (Keyed)

/-- The text of a version with the fact and the entity it joins. -/
def versionText (v : FactVersion) (row : Fact × Entity) : String :=
  renderFactDocument row.2.entityType row.2.externalId row.1.property (Jsonb.load v.value)

/-- The version with this identifier, in this organization, renders to the text. -/
def HasText (db : Database) (id org : Uuid) (text : String) : Prop :=
  ∃ v ∈ db.versions, v.id = id ∧ v.organizationId = org ∧
    ∃ row ∈ joinedTo db v, versionText v row = text

section Texts

variable {db : Database}

/-- Keys leave one fact and one entity for a version. -/
theorem joinedTo_unique (hkeyed : Keyed db) {v : FactVersion} {row other : Fact × Entity}
    (hrow : row ∈ joinedTo db v) (hother : other ∈ joinedTo db v) : row = other := by
  obtain ⟨⟨hfact, -, hfactId⟩, hentity, -, hentityId⟩ := mem_joinedTo.mp hrow
  obtain ⟨⟨hfact', -, hfactId'⟩, hentity', -, hentityId'⟩ := mem_joinedTo.mp hother
  have hfst : row.1 = other.1 :=
    List.inj_on_of_nodup_map hkeyed.facts hfact hfact' (hfactId.trans hfactId'.symm)
  have hsnd : row.2 = other.2 := List.inj_on_of_nodup_map hkeyed.entities hentity hentity'
    (by rw [hentityId, hentityId', hfst])
  exact Prod.ext hfst hsnd

theorem joinedTo_ne_nil (hkeyed : Keyed db) {v : FactVersion} (hv : v ∈ db.versions) :
    ∃ row, row ∈ joinedTo db v := by
  obtain ⟨f, hf, hforg, hfid⟩ := hkeyed.factOf v hv
  obtain ⟨e, he, heorg, heid⟩ := hkeyed.entityOf f hf
  exact ⟨(f, e), mem_joinedTo.mpr ⟨⟨hf, hforg, hfid⟩, he, heorg, heid⟩⟩

theorem hasText_of_mem (hkeyed : Keyed db) {v : FactVersion} (hv : v ∈ db.versions) :
    ∃ text, HasText db v.id v.organizationId text := by
  obtain ⟨row, hrow⟩ := joinedTo_ne_nil hkeyed hv
  exact ⟨versionText v row, v, hv, rfl, rfl, row, hrow, rfl⟩

/-- A version has one text. -/
theorem HasText.eq_versionText (hkeyed : Keyed db) {id org : Uuid} {text : String}
    (h : HasText db id org text) {v : FactVersion} (hv : v ∈ db.versions) (hid : v.id = id)
    {row : Fact × Entity} (hrow : row ∈ joinedTo db v) : text = versionText v row := by
  obtain ⟨v', hv', hid', -, row', hrow', rfl⟩ := h
  obtain rfl : v' = v := List.inj_on_of_nodup_map hkeyed.versions hv' hv (hid'.trans hid.symm)
  rw [joinedTo_unique hkeyed hrow' hrow]

theorem versionText_touched (write : VersionWrite) (v : FactVersion) (row : Fact × Entity) :
    versionText (touched write v) row = versionText v row := by
  rcases touched_cases write v with h | ⟨-, c, -, -, h⟩
  · rw [h]
  · rw [h]
    rfl

/-- A write adds rows and closes versions; the texts of the old versions stay. -/
theorem HasText.apply {id org : Uuid} {text : String} (h : HasText db id org text)
    (write : VersionWrite) : HasText (write.apply db) id org text := by
  obtain ⟨v, hv, hid, horg, row, hrow, htext⟩ := h
  refine ⟨touched write v, ?_, by rw [touched_id, hid], by rw [touched_organizationId, horg], row,
    ?_, by rw [versionText_touched, htext]⟩
  · rw [apply_versions]
    exact List.mem_append_left _ (List.mem_map_of_mem hv)
  · obtain ⟨⟨hfact, hforg, hfid⟩, hentity, hentityRest⟩ := mem_joinedTo.mp hrow
    refine mem_joinedTo.mpr ⟨⟨?_, ?_, ?_⟩, ?_, hentityRest⟩
    · rw [apply_facts]
      exact List.mem_append_left _ hfact
    · rw [touched_organizationId, hforg]
    · rw [touched_factId, hfid]
    · rw [apply_entities]
      exact List.mem_append_left _ hentity

theorem nodup_append_toList {α : Type} {f : α → Uuid} {rows : List α} (h : (rows.map f).Nodup)
    {new : Option α} (hnew : ∀ r, new = some r → ∀ old ∈ rows, f old ≠ f r) :
    ((rows ++ new.toList).map f).Nodup := by
  cases new with
  | none => simpa using h
  | some r =>
    rw [Option.toList_some, List.map_append, List.map_singleton, ← List.concat_eq_append]
    refine h.concat fun hmem => ?_
    obtain ⟨old, hold, heq⟩ := List.mem_map.mp hmem
    exact hnew r rfl old hold heq

/-- The constraints that an accepted write meets. -/
structure Accepted (db : Database) (write : VersionWrite) : Prop where
  entity : ∀ e, write.entity = some e → ∀ old ∈ db.entities, old.id ≠ e.id
  fact : ∀ f, write.fact = some f → (∀ old ∈ db.facts, old.id ≠ f.id) ∧
    ∃ e ∈ db.entities ++ write.entity.toList, e.organizationId = f.organizationId ∧ e.id = f.entityId
  version : ∀ v ∈ db.versions, v.id ≠ write.version.id
  factOf : ∃ f ∈ db.facts ++ write.fact.toList,
    f.organizationId = write.version.organizationId ∧ f.id = write.version.factId

/-- What the constraints on the entity, the fact and the version of a write say. -/
theorem accepted_iff_parts {write : VersionWrite} (h : accepted db write = true) :
    (∀ e, write.entity = some e → firstBroken (entityChecks db.entities e) = none) ∧
      (∀ f, write.fact = some f → firstBroken (factChecks db.facts f) = none ∧
        ∃ e ∈ (write.withPlace db).entities,
          e.organizationId = f.organizationId ∧ e.id = f.entityId) ∧
      write.rejectedBy db = none := by
  simp only [accepted, Bool.and_eq_true, Option.all_eq_true, Option.isNone_iff_eq_none,
    List.any_eq_true, beq_iff_eq] at h
  exact ⟨h.1.1, h.1.2, h.2⟩

theorem accepted_of {write : VersionWrite} (h : accepted db write = true) : Accepted db write := by
  obtain ⟨hentity, hfact, hversion⟩ := accepted_iff_parts h
  have hplaced : (write.withPlace db).entities = db.entities ++ write.entity.toList := by
    unfold VersionWrite.withPlace
    cases write.entity <;> cases write.fact <;> simp [Database.addEntity, Database.addFact]
  refine ⟨fun e he old hold hid => ?_, fun f hf => ⟨fun old hold hid => ?_, ?_⟩,
    fresh_of_accepted hversion, ?_⟩
  · have hpass := firstBroken_eq_none.mp (hentity e he) _ List.mem_cons_self
    exact absurd (List.any_eq_false.mp hpass old hold) (by simp [hid])
  · have hpass := firstBroken_eq_none.mp (hfact f hf).1 _ List.mem_cons_self
    exact absurd (List.any_eq_false.mp hpass old hold) (by simp [hid])
  · rw [← hplaced]
    exact (hfact f hf).2
  · unfold VersionWrite.rejectedBy at hversion
    have hpass := firstBroken_eq_none.mp hversion
      ("fk_fact_versions_organization_id_facts",
        !(write.withClose (write.withPlace db)).facts.any fun f =>
          f.organizationId == write.version.organizationId && f.id == write.version.factId)
      (by simp [versionReferenceChecks])
    rw [withClose_facts, withPlace_facts, Bool.not_eq_false'] at hpass
    obtain ⟨f, hf, hkey⟩ := List.any_eq_true.mp hpass
    rw [Bool.and_eq_true, beq_iff_eq, beq_iff_eq] at hkey
    exact ⟨f, hf, hkey⟩

theorem keyed_apply (hkeyed : Keyed db) {write : VersionWrite} (h : Accepted db write) :
    Keyed (write.apply db) := by
  refine ⟨?_, ?_, ?_, fun f hf => ?_, fun v hv => ?_⟩
  · rw [apply_entities]
    exact nodup_append_toList hkeyed.entities h.entity
  · rw [apply_facts]
    exact nodup_append_toList hkeyed.facts fun f hf => (h.fact f hf).1
  · have hids : (db.versions.map (touched write)).map FactVersion.id =
        db.versions.map FactVersion.id := by
      rw [List.map_map]
      exact List.map_congr_left fun v _ => touched_id write v
    rw [apply_versions, List.map_append, hids, List.map_singleton, ← List.concat_eq_append]
    refine hkeyed.versions.concat fun hmem => ?_
    obtain ⟨v, hv, hid⟩ := List.mem_map.mp hmem
    exact h.version v hv hid
  · rw [apply_facts] at hf
    rw [apply_entities]
    rcases List.mem_append.mp hf with hold | hnew
    · obtain ⟨e, he, horg, hid⟩ := hkeyed.entityOf f hold
      exact ⟨e, List.mem_append_left _ he, horg, hid⟩
    · exact (h.fact f (Option.mem_toList.mp hnew)).2
  · rw [apply_versions] at hv
    rw [apply_facts]
    rcases List.mem_append.mp hv with hold | hnew
    · obtain ⟨v', hv', rfl⟩ := List.mem_map.mp hold
      obtain ⟨f, hf, horg, hid⟩ := hkeyed.factOf v' hv'
      exact ⟨f, List.mem_append_left _ hf, by rw [touched_organizationId, horg],
        by rw [touched_factId, hid]⟩
    · obtain rfl := List.mem_singleton.mp hnew
      exact h.factOf

end Texts

section Dictionaries

variable {κ ν : Type} [DecidableEq κ]

/-- Filling a dictionary adds no entry of its own and loses no key. -/
theorem dictOf_spec (entries : List (κ × ν)) :
    (∀ e ∈ dictOf entries, e ∈ entries) ∧
      ∀ e ∈ entries, e.1 ∈ (dictOf entries).map Prod.fst := by
  suffices hfold : ∀ (entries dict : List (κ × ν)),
      (∀ e ∈ entries.foldl (fun dict e =>
        if dict.any fun old => old.1 = e.1 then dict.map fun old => if old.1 = e.1 then e else old
        else dict ++ [e]) dict, e ∈ dict ∨ e ∈ entries) ∧
      ∀ key, key ∈ dict.map Prod.fst ∨ key ∈ entries.map Prod.fst →
        key ∈ (entries.foldl (fun dict e =>
          if dict.any fun old => old.1 = e.1 then dict.map fun old => if old.1 = e.1 then e else old
          else dict ++ [e]) dict).map Prod.fst by
    obtain ⟨hmem, hkeys⟩ := hfold entries []
    refine ⟨fun e he => (hmem e he).resolve_left List.not_mem_nil, fun e he => ?_⟩
    exact hkeys e.1 (Or.inr (List.mem_map_of_mem he))
  intro entries
  induction entries with
  | nil => exact fun dict => ⟨fun e he => Or.inl he, fun key hkey => by simpa using hkey⟩
  | cons entry entries ih =>
    intro dict
    rw [List.foldl_cons]
    by_cases hany : (dict.any fun old => decide (old.1 = entry.1)) = true
    · rw [if_pos hany]
      obtain ⟨hmem, hkeys⟩ := ih (dict.map fun old => if old.1 = entry.1 then entry else old)
      refine ⟨fun e he => ?_, fun key hkey => hkeys key ?_⟩
      · rcases hmem e he with hold | hnew
        · obtain ⟨old, hdict, heq⟩ := List.mem_map.mp hold
          by_cases hkey : old.1 = entry.1
          · rw [if_pos hkey] at heq
            exact Or.inr (heq ▸ List.mem_cons_self)
          · rw [if_neg hkey] at heq
            exact Or.inl (heq ▸ hdict)
        · exact Or.inr (List.mem_cons_of_mem _ hnew)
      · have hsame : (dict.map fun old => if old.1 = entry.1 then entry else old).map Prod.fst =
            dict.map Prod.fst := by
          rw [List.map_map]
          refine List.map_congr_left fun old _ => ?_
          by_cases hold : old.1 = entry.1
          · simp [hold]
          · simp [hold]
        rw [hsame]
        rcases hkey with hold | hnew
        · exact Or.inl hold
        · rw [List.map_cons, List.mem_cons] at hnew
          rcases hnew with rfl | hnew
          · obtain ⟨old, hold, heq⟩ := List.any_eq_true.mp hany
            exact Or.inl (List.mem_map.mpr ⟨old, hold, of_decide_eq_true heq⟩)
          · exact Or.inr hnew
    · rw [if_neg hany]
      obtain ⟨hmem, hkeys⟩ := ih (dict ++ [entry])
      refine ⟨fun e he => ?_, fun key hkey => hkeys key ?_⟩
      · rcases hmem e he with hold | hnew
        · rcases List.mem_append.mp hold with hold | hlast
          · exact Or.inl hold
          · exact Or.inr (by simp [List.mem_singleton.mp hlast])
        · exact Or.inr (List.mem_cons_of_mem _ hnew)
      · rcases hkey with hold | hnew
        · exact Or.inl (by simp only [List.map_append]; exact List.mem_append_left _ hold)
        · rw [List.map_cons, List.mem_cons] at hnew
          rcases hnew with rfl | hnew
          · exact Or.inl (by simp)
          · exact Or.inr hnew

end Dictionaries

section Lookups

variable {κ ν : Type} [BEq κ] [LawfulBEq κ]

theorem mem_of_lookup {entries : List (κ × ν)} {key : κ} {value : ν}
    (h : entries.lookup key = some value) : (key, value) ∈ entries := by
  obtain ⟨before, after, heq, -⟩ := List.lookup_eq_some_iff.mp h
  rw [heq]
  exact List.mem_append_right _ List.mem_cons_self

theorem exists_lookup {entries : List (κ × ν)} {key : κ} (h : key ∈ entries.map Prod.fst) :
    ∃ value, entries.lookup key = some value := by
  obtain ⟨e, he, rfl⟩ := List.mem_map.mp h
  refine Option.isSome_iff_exists.mp (List.lookup_isSome_iff.mpr ⟨e, he, ?_⟩)
  simp

end Lookups

section Workers

variable {V : Type} (rt : Runtime) (vectors : Vectors V)

/-- The row holds the hash and the vector of the text of its own version. -/
def Faithful (db : Database) (e : FactEmbedding V) : Prop :=
  ∃ text, HasText db e.factVersionId e.organizationId text ∧
    e.contentSha256 = documentHash rt text ∧
    e.embedding = vectors.stored (vectors.vectorOf e.model text)

/-- A cached vector is the one of a row of the organization, for the model and the hash. -/
def Reused (embeddings : List (FactEmbedding V)) (model : String)
    (entry : (Uuid × String) × V) : Prop :=
  ∃ e ∈ embeddings, e.organizationId = entry.1.1 ∧ e.model = model ∧
    e.contentSha256 = entry.1.2 ∧ e.embedding = entry.2

def ItemText (db : Database) (item : Item) : Prop :=
  HasText db item.1.factVersionId item.1.organizationId item.2

/-- The texts to send and the vectors that came back, with their hashes. -/
structure Embedded (model : String) (items : List Item) (cache : Cache V)
    (rest : List (String × String)) (fresh : List (String × V)) : Prop where
  hashed : ∀ t ∈ rest, t.1 = documentHash rt t.2
  returned : ∀ f ∈ fresh, ∃ text, f = (documentHash rt text, vectors.vectorOf model text)
  covered : ∀ item ∈ items,
    cache.lookup (item.1.organizationId, documentHash rt item.2) = none →
      documentHash rt item.2 ∈ rest.map Prod.fst ∨ documentHash rt item.2 ∈ fresh.map Prod.fst

/-- What a worker has in hand is what the tables say; no lookup of its own has failed. -/
def PhaseSound (db : Database) (embeddings : List (FactEmbedding V)) (model : String) :
    Phase V → Prop
  | .idle => True
  | .found rows => ∀ row ∈ rows, ∃ text, HasText db row.2 row.1 text
  | .enqueued => True
  | .claimed _ => True
  | .looking items _ cache =>
    (∀ item ∈ items, ItemText db item) ∧ ∀ entry ∈ cache, Reused embeddings model entry
  | .embedding items cache rest fresh =>
    (∀ item ∈ items, ItemText db item) ∧ (∀ entry ∈ cache, Reused embeddings model entry) ∧
      Embedded rt vectors model items cache rest fresh
  | .failing _ _ => True
  | .raised _ => False

/-- The tables and the workers of a queue whose vectors are in their place. -/
structure InPlace (w : World V) : Prop where
  keyed : Keyed w.db
  jobs : ∀ j ∈ w.jobs, ∃ text, HasText w.db j.factVersionId j.organizationId text
  embeddings : ∀ e ∈ w.embeddings, Faithful rt vectors w.db e
  phases : ∀ worker ∈ w.workers,
    PhaseSound rt vectors w.db w.embeddings worker.config.model worker.phase

theorem Reused.mono {embeddings more : List (FactEmbedding V)} {model : String}
    {entry : (Uuid × String) × V} (h : Reused embeddings model entry)
    (hmore : ∀ e ∈ embeddings, e ∈ more) : Reused more model entry := by
  obtain ⟨e, he, hrest⟩ := h
  exact ⟨e, hmore e he, hrest⟩

/-- Soundness of a phase survives later texts and later rows. -/
theorem PhaseSound.mono {db db' : Database} {embeddings more : List (FactEmbedding V)}
    {model : String} {phase : Phase V} (h : PhaseSound rt vectors db embeddings model phase)
    (hdb : ∀ id org text, HasText db id org text → HasText db' id org text)
    (hmore : ∀ e ∈ embeddings, e ∈ more) : PhaseSound rt vectors db' more model phase := by
  cases phase with
  | found rows =>
    intro row hrow
    obtain ⟨text, htext⟩ := h row hrow
    exact ⟨text, hdb _ _ _ htext⟩
  | looking items orgs cache =>
    exact ⟨fun item hitem => hdb _ _ _ (h.1 item hitem),
      fun entry hentry => (h.2 entry hentry).mono hmore⟩
  | embedding items cache rest fresh =>
    exact ⟨fun item hitem => hdb _ _ _ (h.1 item hitem),
      fun entry hentry => (h.2.1 entry hentry).mono hmore, h.2.2⟩
  | raised failure => exact h
  | _ => trivial

theorem mem_documents {db : Database} {jobs : List ClaimedJob} {d : FactDocumentSource} :
    d ∈ documents db jobs ↔ ∃ v ∈ db.versions, v.id ∈ jobs.map ClaimedJob.factVersionId ∧
      ∃ row ∈ joinedTo db v, d = ⟨v.organizationId, v.id, row.2.entityType, row.2.externalId,
        row.1.property, Jsonb.load v.value⟩ := by
  simp only [documents, List.mem_flatMap, List.mem_filter, List.contains_iff_mem, List.mem_map]
  constructor
  · rintro ⟨v, ⟨hv, hid⟩, row, hrow, rfl⟩
    exact ⟨v, hv, hid, row, hrow, rfl⟩
  · rintro ⟨v, hv, hid, row, hrow, rfl⟩
    exact ⟨v, ⟨hv, hid⟩, row, hrow, rfl⟩

/-- The text that is loaded for a job is the one of its version. -/
theorem sourceOf_text {db : Database} (hkeyed : Keyed db) {jobs : List ClaimedJob}
    {job : ClaimedJob} {s : FactDocumentSource} (hs : sourceOf (documents db jobs) job = some s)
    {text : String} (htext : HasText db job.factVersionId job.organizationId text) :
    s.text = text := by
  have hid : s.factVersionId = job.factVersionId := by simpa using List.find?_some hs
  obtain ⟨v, hv, -, row, hrow, rfl⟩ :=
    mem_documents.mp (List.mem_reverse.mp (List.mem_of_find?_eq_some hs))
  exact (htext.eq_versionText hkeyed hv hid hrow).symm

/-- The version of a claimed job is among the documents. -/
theorem sourceOf_isSome {db : Database} {jobs : List ClaimedJob} {job : ClaimedJob}
    (hjob : job ∈ jobs) {text : String}
    (htext : HasText db job.factVersionId job.organizationId text) :
    ∃ s, sourceOf (documents db jobs) job = some s := by
  obtain ⟨v, hv, hid, -, row, hrow, -⟩ := htext
  have hmem : (⟨v.organizationId, v.id, row.2.entityType, row.2.externalId, row.1.property,
      Jsonb.load v.value⟩ : FactDocumentSource) ∈ documents db jobs :=
    mem_documents.mpr ⟨v, hv, hid ▸ List.mem_map_of_mem hjob, row, hrow, rfl⟩
  refine Option.isSome_iff_exists.mp (List.find?_isSome.mpr ⟨_, List.mem_reverse.mpr hmem, ?_⟩)
  simpa using hid

theorem exists_mapM {α β : Type} {f : α → Option β} (items : List α)
    (h : ∀ item ∈ items, ∃ v, f item = some v) : ∃ values, items.mapM f = some values := by
  induction items with
  | nil => exact ⟨[], by simp⟩
  | cons item items ih =>
    obtain ⟨v, hv⟩ := h item List.mem_cons_self
    obtain ⟨values, hvalues⟩ := ih fun other hother => h other (List.mem_cons_of_mem _ hother)
    exact ⟨v :: values, by simp [List.mapM_cons, hv, hvalues]⟩

theorem loadPhase_sound {w : World V} (hkeyed : Keyed w.db) (embeddings : List (FactEmbedding V))
    (model : String) {jobs : List ClaimedJob}
    (hjobs : ∀ job ∈ jobs, ∃ text, HasText w.db job.factVersionId job.organizationId text) :
    PhaseSound rt vectors w.db embeddings model (loadPhase w jobs) := by
  obtain ⟨items, hitems⟩ := exists_mapM jobs
    (f := fun job => (sourceOf (documents w.db jobs) job).map fun s => (job, s.text)) (by
      intro job hjob
      obtain ⟨text, htext⟩ := hjobs job hjob
      obtain ⟨s, hs⟩ := sourceOf_isSome hjob htext
      exact ⟨(job, s.text), by rw [hs]; rfl⟩)
  simp only [loadPhase]
  rw [hitems]
  refine ⟨fun item hitem => ?_, by simp⟩
  obtain ⟨hfst, hall⟩ := mapM_tagged (by
    intro job e he
    obtain ⟨s, -, rfl⟩ := Option.map_eq_some_iff.mp he
    rfl) hitems
  obtain ⟨s, hs, heq⟩ := Option.map_eq_some_iff.mp (hall item hitem)
  have hjob : item.1 ∈ jobs := hfst ▸ List.mem_map_of_mem hitem
  obtain ⟨text, htext⟩ := hjobs item.1 hjob
  have hsnd : item.2 = text := by
    rw [← sourceOf_text hkeyed hs htext]
    exact (congrArg Prod.snd heq).symm
  unfold ItemText
  rw [hsnd]
  exact htext

theorem candidates_sound {w : World V} (hkeyed : Keyed w.db) (c : EmbeddingWorker) :
    ∀ row ∈ candidates w c, ∃ text, HasText w.db row.2 row.1 text := by
  intro row hrow
  unfold candidates at hrow
  obtain ⟨v, hv, rfl⟩ := List.mem_map.mp hrow
  have hmem := (List.mem_insertionSort _).mp (List.mem_of_mem_take hv)
  exact hasText_of_mem hkeyed (List.mem_filter.mp hmem).1

theorem cachedVectors_reused (embeddings : List (FactEmbedding V)) (model : String) (org : Uuid)
    (hashes : List String) :
    ∀ entry ∈ cachedVectors embeddings model org hashes, Reused embeddings model entry := by
  intro entry hentry
  obtain ⟨digest, -, hdigest⟩ := List.mem_filterMap.mp hentry
  obtain ⟨e, he, rfl⟩ := Option.map_eq_some_iff.mp hdigest
  have hkey := List.find?_some he
  simp only [Bool.and_eq_true, beq_iff_eq] at hkey
  exact ⟨e, List.mem_of_find?_eq_some he, hkey.1.1, hkey.1.2, hkey.2, rfl⟩

/-- Each text without a cached vector is to be sent, under its hash. -/
theorem embedded_toEmbed (model : String) (items : List Item) (cache : Cache V) :
    Embedded rt vectors model items cache (toEmbed rt items cache) [] := by
  obtain ⟨hmem, hkeys⟩ := dictOf_spec ((items.filter fun item =>
    (cache.lookup (item.1.organizationId, documentHash rt item.2)).isNone).map
      fun item => (documentHash rt item.2, item.2))
  refine ⟨fun t ht => ?_, by simp, fun item hitem hnone => Or.inl ?_⟩
  · obtain ⟨item, -, rfl⟩ := List.mem_map.mp (hmem t ht)
    rfl
  · refine hkeys (documentHash rt item.2, item.2) (List.mem_map.mpr ⟨item, ?_, rfl⟩)
    exact List.mem_filter.mpr ⟨hitem, by rw [hnone]; rfl⟩

theorem lookupPhase_sound {w : World V} (c : EmbeddingWorker) {items : List Item}
    {orgs : List Uuid} {cache : Cache V}
    (h : PhaseSound rt vectors w.db w.embeddings c.model (.looking items orgs cache)) (org : Uuid) :
    PhaseSound rt vectors w.db w.embeddings c.model
      (lookupPhase rt w c items orgs cache org) := by
  have hcache : ∀ entry ∈ cache ++ cachedVectors w.embeddings c.model org
      ((items.filter fun item => item.1.organizationId == org).map
        fun item => documentHash rt item.2), Reused w.embeddings c.model entry := by
    intro entry hentry
    rcases List.mem_append.mp hentry with hold | hnew
    · exact h.2 entry hold
    · exact cachedVectors_reused _ _ _ _ entry hnew
  simp only [lookupPhase]
  cases orgs.erase org with
  | nil => exact ⟨h.1, hcache, embedded_toEmbed rt vectors c.model items _⟩
  | cons next orgs => exact ⟨h.1, hcache⟩

/-- The vectors of a chunk stand beside the hashes of its texts. -/
theorem zip_vectors (model : String) (chunk : List (String × String)) :
    (chunk.map Prod.fst).zip ((chunk.map Prod.snd).map (vectors.vectorOf model)) =
      chunk.map fun t => (t.1, vectors.vectorOf model t.2) := by
  rw [List.map_map, List.zip_map']
  rfl

theorem embedded_send {model : String} {items : List Item} {cache : Cache V}
    {rest : List (String × String)} {fresh : List (String × V)}
    (h : Embedded rt vectors model items cache rest fresh) (n : ℕ) :
    Embedded rt vectors model items cache (rest.drop n)
      (dictOf (fresh ++ ((rest.take n).map Prod.fst).zip
        (((rest.take n).map Prod.snd).map (vectors.vectorOf model)))) := by
  rw [zip_vectors]
  obtain ⟨hmem, hkeys⟩ := dictOf_spec
    (fresh ++ (rest.take n).map fun t => (t.1, vectors.vectorOf model t.2))
  refine ⟨fun t ht => h.hashed t (List.mem_of_mem_drop ht), fun f hf => ?_,
    fun item hitem hnone => ?_⟩
  · rcases List.mem_append.mp (hmem f hf) with hold | hnew
    · exact h.returned f hold
    · obtain ⟨t, ht, rfl⟩ := List.mem_map.mp hnew
      exact ⟨t.2, by rw [h.hashed t (List.mem_of_mem_take ht)]⟩
  · rcases h.covered item hitem hnone with hrest | hfresh
    · obtain ⟨t, ht, hdigest⟩ := List.mem_map.mp hrest
      rw [← List.take_append_drop n rest] at ht
      rcases List.mem_append.mp ht with hsent | hleft
      · refine Or.inr (hdigest ▸ hkeys (t.1, vectors.vectorOf model t.2) ?_)
        exact List.mem_append_right _ (List.mem_map.mpr ⟨t, hsent, rfl⟩)
      · exact Or.inl (List.mem_map.mpr ⟨t, hleft, hdigest⟩)
    · obtain ⟨f, hf, hdigest⟩ := List.mem_map.mp hfresh
      exact Or.inr (hdigest ▸ hkeys f (List.mem_append_left _ hf))

/-- When nothing is left to send, every job has a vector. -/
theorem vectorFor_isSome {model : String} {items : List Item} {cache : Cache V}
    {fresh : List (String × V)} (h : Embedded rt vectors model items cache [] fresh)
    {item : Item} (hitem : item ∈ items) : ∃ v, vectorFor rt cache fresh item = some v := by
  unfold vectorFor
  cases hcached : cache.lookup (item.1.organizationId, documentHash rt item.2) with
  | some v => exact ⟨v, rfl⟩
  | none =>
    exact exists_lookup ((h.covered item hitem hcached).resolve_left (by simp))

theorem inPlace_record {w : World V} (hw : InPlace rt vectors w) {write : VersionWrite}
    (h : accepted w.db write = true) : InPlace rt vectors { w with db := write.apply w.db } := by
  refine ⟨keyed_apply hw.keyed (accepted_of h), fun j hj => ?_, fun e he => ?_, fun p hp => ?_⟩
  · obtain ⟨text, htext⟩ := hw.jobs j hj
    exact ⟨text, htext.apply write⟩
  · obtain ⟨text, htext, hrest⟩ := hw.embeddings e he
    exact ⟨text, htext.apply write, hrest⟩
  · exact (hw.phases p hp).mono rt vectors (fun _ _ _ htext => htext.apply write) fun _ he => he

theorem inPlace_start {w : World V} (h : Start w) : InPlace rt vectors w where
  keyed := h.keyed
  jobs := by simp [h.jobs]
  embeddings := by simp [h.embeddings]
  phases := by simp [h.workers]

section Injective

variable (hhash : Function.Injective rt.sha256)

include hhash

/-- The vector of a job is, once stored, the one of its own text. -/
theorem stored_vectorFor {w : World V} (hw : InPlace rt vectors w) {model : String}
    {items : List Item} {cache : Cache V} {rest : List (String × String)}
    {fresh : List (String × V)}
    (h : PhaseSound rt vectors w.db w.embeddings model (.embedding items cache rest fresh))
    {item : Item} {v : V} (hv : vectorFor rt cache fresh item = some v) :
    vectors.stored v = vectors.stored (vectors.vectorOf model item.2) := by
  unfold vectorFor at hv
  cases hcached : cache.lookup (item.1.organizationId, documentHash rt item.2) with
  | some vector =>
    rw [hcached] at hv
    obtain rfl : vector = v := Option.some.inj hv
    obtain ⟨e, he, -, hmodel, hdigest, hvector⟩ := h.2.1 _ (mem_of_lookup hcached)
    obtain ⟨text, -, hown, hembedding⟩ := hw.embeddings e he
    have htext : text = item.2 := hhash (hown.symm.trans hdigest)
    calc
      vectors.stored vector = vectors.stored (vectors.stored (vectors.vectorOf e.model text)) := by
        rw [← hembedding, hvector]
      _ = vectors.stored (vectors.vectorOf model item.2) := by
        rw [vectors.stored_stored, hmodel, htext]
  | none =>
    rw [hcached] at hv
    obtain ⟨text, heq⟩ := h.2.2.returned _ (mem_of_lookup hv)
    obtain ⟨hdigest, hvector⟩ := Prod.mk.inj heq
    have htext : item.2 = text := hhash hdigest
    rw [htext, hvector]

/-- The last transaction of a batch fails no lookup and stores rows of their own texts. -/
theorem finishMove_sound {w : World V} (hw : InPlace rt vectors w) (c : EmbeddingWorker)
    {items : List Item} {cache : Cache V} {fresh : List (String × V)}
    (h : PhaseSound rt vectors w.db w.embeddings c.model (.embedding items cache [] fresh)) :
    (finishMove rt vectors w c items cache fresh).phase = .idle ∧
      ∀ e ∈ (finishMove rt vectors w c items cache fresh).embeddings,
        Faithful rt vectors w.db e := by
  obtain ⟨entries, hentries⟩ := exists_mapM items
    (f := fun item => (vectorFor rt cache fresh item).map fun v => (item, v)) (by
      intro item hitem
      obtain ⟨v, hv⟩ := vectorFor_isSome rt vectors h.2.2 hitem
      exact ⟨(item, v), by rw [hv]; rfl⟩)
  obtain ⟨hfst, hall⟩ := mapM_tagged (vectorFor_tagged rt cache fresh) hentries
  unfold finishMove
  rw [hentries]
  refine ⟨rfl, fun e he => ?_⟩
  obtain ⟨new, heq, hnew, -, -⟩ := foldl_saveEmbedding vectors c.model
    (entries.map fun entry => (entry.1.1, entry.2, documentHash rt entry.1.2)) w.embeddings
  simp only [foldl_writeJob, heq] at he
  rcases List.mem_append.mp he with hold | hadded
  · exact hw.embeddings e hold
  · obtain ⟨saved, hsaved, rfl⟩ := hnew e hadded
    obtain ⟨entry, hentry, rfl⟩ := List.mem_map.mp hsaved
    have hitem : entry.1 ∈ items := hfst ▸ List.mem_map_of_mem hentry
    obtain ⟨v, hv, hpair⟩ := Option.map_eq_some_iff.mp (hall entry hentry)
    have hsnd : entry.2 = v := (congrArg Prod.snd hpair).symm
    refine ⟨entry.1.2, h.1 entry.1 hitem, rfl, ?_⟩
    show vectors.stored entry.2 = vectors.stored (vectors.vectorOf c.model entry.1.2)
    rw [hsnd]
    exact stored_vectorFor rt vectors hhash hw h hv

/-- A move of a worker keeps every vector in its place. -/
theorem inPlace_withMove {w : World V} (horderly : Orderly w) (hw : InPlace rt vectors w) {i : ℕ}
    {worker : Worker V} (hi : w.workers[i]? = some worker) {move : Move} {moved : Moved V}
    (h : Moves rt vectors w worker move moved) : InPlace rt vectors (w.withMove i worker moved) := by
  have hworker := List.mem_of_getElem? hi
  have hsound := hw.phases worker hworker
  obtain ⟨f, new, hjobs, hbecomes, hadded⟩ :=
    effect_jobs rt vectors horderly hworker (h.effect rt vectors)
  obtain ⟨rows, hgrown, -⟩ := effect_embeddings rt vectors horderly (h.effect rt vectors)
  have hmore : ∀ e ∈ w.embeddings, e ∈ moved.embeddings := fun e he =>
    hgrown ▸ List.mem_append_left _ he
  have hhand : ∀ job ∈ worker.phase.jobs,
      ∃ text, HasText w.db job.factVersionId job.organizationId text := by
    intro job hjob
    obtain ⟨j, hj, hwork⟩ := horderly.inHand worker hworker job hjob
    rw [← hwork.factVersionId, ← hwork.organizationId]
    exact hw.jobs j hj
  have hmoved : PhaseSound rt vectors w.db w.embeddings worker.config.model moved.phase ∧
      ∀ e ∈ moved.embeddings, Faithful rt vectors w.db e := by
    cases h with
    | select => exact ⟨candidates_sound hw.keyed worker.config, hw.embeddings⟩
    | insert => exact ⟨trivial, hw.embeddings⟩
    | rest => exact ⟨trivial, hw.embeddings⟩
    | claim => exact ⟨trivial, hw.embeddings⟩
    | load jobs hphase =>
      rw [hphase] at hhand
      exact ⟨loadPhase_sound rt vectors hw.keyed _ _ hhand, hw.embeddings⟩
    | lookup items orgs cache hphase =>
      rw [hphase] at hsound
      exact ⟨lookupPhase_sound rt vectors worker.config hsound _, hw.embeddings⟩
    | send items cache rest fresh hphase =>
      rw [hphase] at hsound
      exact ⟨⟨hsound.1, hsound.2.1, embedded_send rt vectors hsound.2.2 _⟩, hw.embeddings⟩
    | refuse => exact ⟨trivial, hw.embeddings⟩
    | finish items cache fresh hphase =>
      rw [hphase] at hsound
      obtain ⟨hidle, hrows⟩ := finishMove_sound rt vectors hhash hw worker.config hsound
      rw [hidle]
      exact ⟨trivial, hrows⟩
    | recordFailure => exact ⟨trivial, hw.embeddings⟩
    | crash => exact ⟨trivial, hw.embeddings⟩
  refine ⟨hw.keyed, fun j' hj' => ?_, hmoved.2, fun p hp => ?_⟩
  · change j' ∈ moved.jobs at hj'
    rw [hjobs] at hj'
    rcases List.mem_append.mp hj' with hold | hnew
    · obtain ⟨j, hj, rfl⟩ := List.mem_map.mp hold
      rw [(hbecomes j hj).sameWork.factVersionId, (hbecomes j hj).sameWork.organizationId]
      exact hw.jobs j hj
    · obtain ⟨rows, hphase, hrow⟩ := hadded.found j' hnew
      rw [hphase] at hsound
      exact hsound _ hrow
  · rcases mem_set_cases hp with rfl | ⟨k, -, hk⟩
    · exact hmoved.1.mono rt vectors (fun _ _ _ htext => htext) hmore
    · exact (hw.phases p (List.mem_of_getElem? hk)).mono rt vectors (fun _ _ _ htext => htext) hmore

theorem inPlace_step {w w' : World V} {a : Action} (horderly : Orderly w)
    (hw : InPlace rt vectors w) (h : step rt vectors w a = some w') : InPlace rt vectors w' := by
  rcases step_cases rt vectors h with ⟨c, -, rfl⟩ | ⟨i, worker, move, moved, -, hi, -, hmoved, rfl⟩ |
    ⟨write, -, haccepted, rfl⟩ | ⟨now, -, rfl⟩
  · refine ⟨hw.keyed, hw.jobs, hw.embeddings, fun p hp => ?_⟩
    rcases List.mem_append.mp hp with hold | hnew
    · exact hw.phases p hold
    · obtain rfl := List.mem_singleton.mp hnew
      trivial
  · exact inPlace_withMove rt vectors hhash horderly hw hi hmoved
  · exact inPlace_record rt vectors hw haccepted
  · exact { hw with }

theorem inPlace_reachable {w : World V} (h : (system rt vectors).Reachable w) :
    InPlace rt vectors w :=
  ((system rt vectors).reachable_invariant (fun w => Orderly w ∧ InPlace rt vectors w)
    (fun _ hstart => ⟨orderly_start hstart, inPlace_start rt vectors hstart⟩)
    (fun _ _ _ hinv hstep => ⟨orderly_step rt vectors hinv.1 hstep,
      inPlace_step rt vectors hhash hinv.1 hinv.2 hstep⟩) h).2

end Injective

/-- The row belongs to a version of its organization and holds the hash and, as the column
keeps it, the vector of what that version's entity, property and value render to. -/
structure OwnText (db : Database) (e : FactEmbedding V) : Prop where
  known : ∃ v ∈ db.versions, v.id = e.factVersionId ∧ v.organizationId = e.organizationId ∧
    joinedTo db v ≠ []
  own : ∀ v ∈ db.versions, v.id = e.factVersionId → ∀ row ∈ joinedTo db v,
    e.contentSha256 = documentHash rt (renderFactDocument row.2.entityType row.2.externalId
        row.1.property (Jsonb.load v.value)) ∧
      e.embedding = vectors.stored (vectors.vectorOf e.model (renderFactDocument
        row.2.entityType row.2.externalId row.1.property (Jsonb.load v.value)))

theorem Faithful.ownText {db : Database} (hkeyed : Keyed db) {e : FactEmbedding V}
    (h : Faithful rt vectors db e) : OwnText rt vectors db e := by
  obtain ⟨text, htext, hdigest, hvector⟩ := h
  refine ⟨?_, fun v hv hid row hrow => ?_⟩
  · obtain ⟨v, hv, hid, horg, row, hrow, -⟩ := htext
    exact ⟨v, hv, hid, horg, List.ne_nil_of_mem hrow⟩
  · have heq := htext.eq_versionText hkeyed hv hid hrow
    rw [heq] at hdigest hvector
    exact ⟨hdigest, hvector⟩

/-- In every reachable state every embedding row holds the hash and the vector of its own
text, no lookup of a worker has failed, and a vector that a worker found for a job is that
of a row of the job's organization with the same hash. -/
theorem vectors_in_place (hhash : Function.Injective rt.sha256) {w : World V}
    (h : (system rt vectors).Reachable w) :
    (∀ e ∈ w.embeddings, OwnText rt vectors w.db e) ∧
      (∀ worker ∈ w.workers, ∀ failure, worker.phase ≠ .raised failure) ∧
      ∀ worker ∈ w.workers, ∀ items cache rest fresh,
        worker.phase = .embedding items cache rest fresh → ∀ item ∈ items, ∀ vector,
          cache.lookup (item.1.organizationId, documentHash rt item.2) = some vector →
            ∃ e ∈ w.embeddings, e.organizationId = item.1.organizationId ∧
              e.model = worker.config.model ∧ e.contentSha256 = documentHash rt item.2 ∧
              e.embedding = vector := by
  have hw := inPlace_reachable rt vectors hhash h
  refine ⟨fun e he => (hw.embeddings e he).ownText rt vectors hw.keyed, ?_, ?_⟩
  · intro worker hworker failure hphase
    have hsound := hw.phases worker hworker
    rw [hphase] at hsound
    exact hsound
  · intro worker hworker items cache rest fresh hphase item _ vector hvector
    have hsound := hw.phases worker hworker
    rw [hphase] at hsound
    exact hsound.2.1 _ (mem_of_lookup hvector)

end Workers

/-- The late worker stores its vector; the one that took over finds it in its organization. -/
def exampleShared : List Action :=
  exampleLate ++ [.move 0 .finish, .move 1 .load, .move 1 (.lookup 1)]

theorem exampleShared_runs :
    ((system hashingRuntime exampleVectors).run exampleStart exampleShared).any (fun w =>
      w.embeddings.any (fun e => e.contentSha256 ==
        "4e4fcfd01f22ef151f6595c1d24e35f0332c6aea7125a2dbef5cc6c24c4c2a56") &&
      w.workers[1]?.any fun p => match p.phase with
        | .embedding _ cache rest _ => cache.length == 1 && rest.isEmpty
        | _ => false) = true := by
  decide +kernel

theorem vectors_in_place_example :
    ∃ w, (system hashingRuntime exampleVectors).run exampleStart exampleShared = some w ∧
      ∃ e ∈ w.embeddings, OwnText hashingRuntime exampleVectors w.db e ∧ e.contentSha256 =
        "4e4fcfd01f22ef151f6595c1d24e35f0332c6aea7125a2dbef5cc6c24c4c2a56" := by
  obtain ⟨w, hrun, hw⟩ := (Option.any_eq_true _ _).mp exampleShared_runs
  simp only [Bool.and_eq_true, List.any_eq_true, beq_iff_eq] at hw
  obtain ⟨⟨e, he, hdigest⟩, -⟩ := hw
  have hplace := vectors_in_place hashingRuntime exampleVectors (digesting exampleDigests).injective
    ⟨exampleStart, exampleShared, exampleStart_start, hrun⟩
  exact ⟨w, hrun, e, he, hplace.1 e he, hdigest⟩

end ContextLedger.EmbeddingProvenance
