import ContextLedger.Isolation

/-!
What holds of the histories in every state that concurrent writers can reach,
whatever the database clock reads: the rows of a fact form one chain, no
constraint has refused a write, at most one version is valid at any instant as
known at any instant, and the SQL engine answers as the reference does.
-/
namespace ContextLedger.Histories

open Values Authorization Schema Facts Bitemporal VersionChain VersionTable Reference
open TemporalEngine Concurrent Isolation

/-- The rules of one fact's history, oldest version first. -/
structure ChainLaws (vs : List FactVersion) : Prop where
  numbers : vs.map FactVersion.version = List.range' 1 vs.length
  firstSupersedes : ∀ v, vs.head? = some v → v.supersedesId = none
  supersedes : ∀ (i : ℕ) (p n : FactVersion), vs[i]? = some p → vs[i + 1]? = some n →
    n.supersedesId = some p.id
  validFrom : vs.Pairwise fun p n => p.validFrom < n.validFrom
  disjoint : vs.Pairwise fun p n => ∀ t, (span p).Contains t → ¬ (span n).Contains t
  recordedAt : vs.Pairwise fun p n => p.recordedAt < n.recordedAt
  endRecorded : ∀ v ∈ vs, v.validUntil = none ↔ v.validUntilRecordedAt = none
  ends : ∀ (i : ℕ) (p n : FactVersion), vs[i]? = some p → vs[i + 1]? = some n →
    ∃ finish learned, p.validUntil = some finish ∧ finish ≤ n.validFrom ∧
      p.validUntilRecordedAt = some learned ∧
      (learned = p.recordedAt ∨ (learned = n.recordedAt ∧ finish = n.validFrom))

theorem successor_getElem {vs : List FactVersion} (h : vs.IsChain Successor) {i : ℕ}
    {p n : FactVersion} (hp : vs[i]? = some p) (hn : vs[i + 1]? = some n) : Successor p n := by
  obtain ⟨hi, rfl⟩ := List.getElem?_eq_some_iff.mp hp
  obtain ⟨hi', rfl⟩ := List.getElem?_eq_some_iff.mp hn
  exact List.isChain_iff_getElem.mp h i hi'

theorem chainLaws_of_chain {vs : List FactVersion} (h : Chain vs) : ChainLaws vs := by
  refine ⟨h.numbers, fun v hv => (h.first v hv).2, ?_, ?_, ?_, ?_, ?_, ?_⟩
  · intro i p n hp hn
    exact (successor_getElem h.successors hp hn).supersedes
  · exact h.pairwise_precedes.imp fun hpn => hpn.1
  · refine h.pairwise_precedes.imp ?_
    intro p n hpn t hp hn
    exact hpn.disjoint t hp hn
  · exact h.pairwise_precedes.imp fun hpn => hpn.2.1
  · intro v hv
    exact (h.wellFormed v hv).together
  · intro i p n hp hn
    obtain ⟨-, -, finish, hfinish, hle, hlearned⟩ := (successor_getElem h.successors hp hn).follows
    rcases hlearned with hown | ⟨hnext, hat⟩
    · exact ⟨finish, p.recordedAt, hfinish, hle, hown, Or.inl rfl⟩
    · exact ⟨finish, n.recordedAt, hfinish, hle, hnext, Or.inr ⟨rfl, hat⟩⟩

/-- In every reachable state the rows of each fact are a chain, and no transaction
was rolled back by a constraint. -/
theorem reachable_chains (rt : Runtime) (w : World) (h : (system rt).Reachable w) :
    (∀ org factId, ChainLaws (versionsOf w.db org factId)) ∧
      ∀ t ∈ w.txns, ∀ name, t ≠ .rolledBack (some (.integrity name)) := by
  have hw := reachable_consistent h
  constructor
  · intro org factId
    exact chainLaws_of_chain (hw.sound.histories org factId).toChain
  · rintro t ht name rfl
    exact hw.established _ ht name rfl

theorem reachable_chains_example :
    (versionsOf exampleFinal.db 1 11).map FactVersion.recordedAt = [14, 15] ∧
      ChainLaws (versionsOf exampleFinal.db 1 11) :=
  ⟨by decide +kernel, (reachable_chains exampleRuntime exampleFinal exampleFinal_reachable).1 1 11⟩

/-- At most one version is valid at T as known at K, so resolving never fails. -/
theorem reachable_resolves (rt : Runtime) (w : World) (h : (system rt).Reachable w)
    (org factId : Uuid) (t : Instant) (k : Option Instant) :
    (matchesAt ((versionsOf w.db org factId).map toSnapshot) t k).length ≤ 1 ∧
      (∃ found, resolve ((versionsOf w.db org factId).map toSnapshot) t k = .ok found) ∧
      ∀ start finish message,
        changeBetween ((versionsOf w.db org factId).map toSnapshot) start finish k ≠
          .error (.domain (.invariantViolation message)) := by
  have hordered := ordered_of_chain ((reachable_consistent h).sound.histories org factId).toChain
  refine ⟨length_matchesAt_le_one hordered t k, ⟨_, resolve_ordered hordered t k⟩, ?_⟩
  intro start finish message hchange
  by_cases hlt : start < finish
  · obtain ⟨change, hok⟩ := changeBetween_ordered hordered hlt k
    rw [hok] at hchange
    exact absurd hchange (by simp)
  · rw [changeBetween, if_pos (not_lt.mp hlt)] at hchange
    exact absurd hchange (by simp [validationFailed])

theorem reachable_resolves_example :
    (versionsOf exampleFinal.db 1 11).length = 2 ∧
      (matchesAt ((versionsOf exampleFinal.db 1 11).map toSnapshot) 7 (some 14)).length ≤ 1 :=
  ⟨by decide +kernel,
    (reachable_resolves exampleRuntime exampleFinal exampleFinal_reachable 1 11 7 (some 14)).1⟩

/-- The rows of other facts do not appear for an entity. -/
theorem factsValidAt_fact {db : Database} {org entityId : Uuid} {t : Instant}
    {k : Option Instant} {row : FactVersion × String}
    (h : row ∈ factsValidAt db org entityId t k) :
    ∃ f ∈ db.facts, f.organizationId = org ∧ f.entityId = entityId ∧ f.id = row.1.factId ∧
      f.property = row.2 := by
  have hmem : ∀ rows : List (FactVersion × String), ∀ r ∈ distinctOnFact rows, r ∈ rows := by
    intro rows
    induction rows with
    | nil => intro r hr; exact hr
    | cons a rows ih =>
      intro r hr
      rcases List.mem_cons.mp hr with rfl | hr
      · simp
      · exact List.mem_cons_of_mem a (ih r (List.mem_of_mem_filter hr))
  exact (mem_entityRows (List.mem_of_mem_filter ((List.mem_insertionSort _).mp
    (hmem _ row h)))).2

/-- For each fact of the entity the engine shows what the reference resolves from
the versions not revoked as known at K, and it shows no other fact. -/
theorem engine_eq_reference (rt : Runtime) (w : World) (h : (system rt).Reachable w)
    (org entityId : Uuid) (t : Instant) (k : Option Instant) :
    (∀ f ∈ w.db.facts, f.organizationId = org → f.entityId = entityId →
      ∃ found, resolve (unrevokedSnapshots w.db org f.id k) t k = .ok found ∧
        ((factsValidAt w.db org entityId t k).filter fun row => row.1.factId == f.id).map
          (fun row => asKnown k (toSnapshot row.1)) = found.toList) ∧
      ∀ row ∈ factsValidAt w.db org entityId t k, ∃ f ∈ w.db.facts, f.organizationId = org ∧
        f.entityId = entityId ∧ f.id = row.1.factId ∧ f.property = row.2 := by
  have hsound := (reachable_consistent h).sound
  constructor
  · rintro f hf rfl rfl
    have hordered := unrevokedSnapshots_ordered hsound f.organizationId f.id k
    have hone := length_matchesAt_le_one hordered t k
    refine ⟨_, resolve_ordered hordered t k, ?_⟩
    have hanswer := answerFor_eq_matchesAt hsound hf t k
    rw [answerFor] at hanswer
    rw [hanswer]
    cases hfound : matchesAt (unrevokedSnapshots w.db f.organizationId f.id k) t k with
    | nil => rfl
    | cons v rest =>
      have hrest : rest = [] := by
        rw [hfound] at hone
        exact List.eq_nil_of_length_eq_zero (by simpa using hone)
      rw [hrest]
      rfl
  · intro row hrow
    exact factsValidAt_fact hrow

theorem engine_eq_reference_example :
    (factsValidAt exampleFinal.db 1 10 7 (some 14)).map (fun row => row.1.id) = [12] ∧
      ∀ f ∈ exampleFinal.db.facts, f.organizationId = 1 → f.entityId = 10 →
        ∃ found, resolve (unrevokedSnapshots exampleFinal.db 1 f.id (some 14)) 7 (some 14) =
            .ok found ∧
          ((factsValidAt exampleFinal.db 1 10 7 (some 14)).filter fun row =>
            row.1.factId == f.id).map (fun row => asKnown (some 14) (toSnapshot row.1)) =
              found.toList :=
  ⟨by decide +kernel,
    (engine_eq_reference exampleRuntime exampleFinal exampleFinal_reachable 1 10 7 (some 14)).1⟩

end ContextLedger.Histories
