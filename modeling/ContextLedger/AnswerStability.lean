import ContextLedger.Histories

/-!
Whether an answer about K can still change. A transaction fixes its time before
it commits, at its begin when it revokes and under the lock when it records, so
a commit can bring in a time at or before the K of an answer already given.
These commits are the only ones that change an answer: when every commit carries
a time after each K that was asked of its fact, every question has one answer.
-/
namespace ContextLedger.AnswerStability

open Values Authorization Schema Facts VersionChain VersionTable Reference
open TemporalEngine Revocations Knowledge Concurrent Isolation Histories

/-- The fact and transaction time that the transaction makes visible when it commits. -/
def effectOf : Txn → Option (Uuid × Instant)
  | .record _ _ _ (.written write) => some (write.version.factId, write.version.recordedAt)
  | .revoke _ now request (.written _) => some (request.factId, now)
  | _ => none

def committing (w : World) : Action → Option (Uuid × Instant)
  | .commit i => w.txns[i]?.bind effectOf
  | _ => none

/-- No question about the fact was answered for a knowledge time at or after `time`. -/
def unanswered (w : World) (factId : Uuid) (time : Instant) : Bool :=
  w.answers.all fun a => a.factId != factId || decide (a.knownAt < time)

/-- A transaction commits only a time later than the answers given about its fact. -/
def CommitsAhead (w : World) (e : Event) : Prop :=
  ((committing w e.action).all fun effect => unanswered w effect.1 effect.2) = true

instance (w : World) (e : Event) : Decidable (CommitsAhead w e) :=
  inferInstanceAs (Decidable (_ = true))

theorem answerFor_eq_nil {db : Database} {org entityId factId : Uuid} {t : Instant}
    {k : Option Instant} (h : ∀ f ∈ db.facts, f.organizationId = org → f.entityId = entityId →
      f.id ≠ factId) : answerFor db org entityId factId t k = [] := by
  unfold answerFor
  rw [List.map_eq_nil_iff, List.filter_eq_nil_iff]
  intro row hrow hfact
  obtain ⟨f, hf, horg, hentity, hid, -⟩ := factsValidAt_fact hrow
  exact h f hf horg hentity (hid.trans (beq_iff_eq.mp hfact))

theorem versionsOf_eq_nil {db : Database} (h : Sound db) {org factId : Uuid}
    (hnone : ∀ f ∈ db.facts, f.organizationId = org → f.id ≠ factId) :
    versionsOf db org factId = [] := by
  rw [List.eq_nil_iff_forall_not_mem]
  intro v hv
  obtain ⟨hmem, horg, hfact⟩ := mem_versionsOf.mp hv
  obtain ⟨f, hf, hforg, hfid⟩ := h.factOf v hmem
  exact hnone f hf (hforg.trans horg) (hfid.trans hfact)

/-- A write to another fact does not touch this one. -/
theorem unrevokedSnapshots_apply_other {db : Database} (h : Sound db) {write : VersionWrite}
    (happ : Appends db write) (org : Uuid) {factId : Uuid}
    (hother : factId ≠ write.version.factId) (k : Option Instant) :
    unrevokedSnapshots (write.apply db) org factId k = unrevokedSnapshots db org factId k := by
  have hnot : ¬ (write.version.organizationId = org ∧ write.version.factId = factId) :=
    fun hsame => hother hsame.2.symm
  unfold unrevokedSnapshots
  rw [versionsOf_apply, if_neg hnot, List.append_nil, h.map_touched_other happ hnot]
  congr 1
  apply List.filter_congr
  intro v _
  exact notRevoked_apply db write k v

theorem matchesAt_apply_ahead {db : Database} (h : Sound db) {write : VersionWrite}
    (happ : Appends db write) {factId : Uuid} {k : Instant}
    (hahead : factId = write.version.factId → k < write.version.recordedAt) (org : Uuid)
    (t : Instant) :
    matchesAt (unrevokedSnapshots (write.apply db) org factId (some k)) t (some k) =
      matchesAt (unrevokedSnapshots db org factId (some k)) t (some k) := by
  by_cases hfact : factId = write.version.factId
  · exact matchesAt_apply h happ (hahead hfact) org factId t
  · rw [unrevokedSnapshots_apply_other h happ org hfact]

/-- Recording after K leaves every answer about K as it was, also where the fact
itself is new. -/
theorem answerFor_apply {db : Database} (h : Sound db) {write : VersionWrite}
    (happ : Appends db write) {factId : Uuid} {k : Instant}
    (hahead : factId = write.version.factId → k < write.version.recordedAt)
    (org entityId : Uuid) (t : Instant) :
    answerFor (write.apply db) org entityId factId t (some k) =
      answerFor db org entityId factId t (some k) := by
  by_cases hold : ∃ f ∈ db.facts, f.organizationId = org ∧ f.entityId = entityId ∧ f.id = factId
  · obtain ⟨f, hf, rfl, rfl, rfl⟩ := hold
    have hf' : f ∈ (write.apply db).facts := by
      rw [apply_facts]
      exact List.mem_append_left _ hf
    rw [answerFor_eq_matchesAt (h.apply happ) hf', answerFor_eq_matchesAt h hf,
      matchesAt_apply_ahead h happ hahead]
  · have hnil : answerFor db org entityId factId t (some k) = [] := by
      apply answerFor_eq_nil
      intro f hf horg hentity hid
      exact hold ⟨f, hf, horg, hentity, hid⟩
    rw [hnil]
    by_cases hnew : ∃ f ∈ (write.apply db).facts,
        f.organizationId = org ∧ f.entityId = entityId ∧ f.id = factId
    · obtain ⟨f, hf, rfl, rfl, rfl⟩ := hnew
      have hnone : ∀ g ∈ db.facts, g.organizationId = f.organizationId → g.id ≠ f.id := by
        intro g hg _ hid
        have hg' : g ∈ (write.apply db).facts := by
          rw [apply_facts]
          exact List.mem_append_left _ hg
        obtain rfl := List.inj_on_of_nodup_map (h.apply happ).factIds hg' hf hid
        exact hold ⟨g, hg, rfl, rfl, rfl⟩
      rw [answerFor_eq_matchesAt (h.apply happ) hf, matchesAt_apply_ahead h happ hahead,
        matchesAt_unrevoked_eq h, versionsOf_eq_nil h hnone]
      rfl
    · apply answerFor_eq_nil
      intro f hf horg hentity hid
      exact hnew ⟨f, hf, horg, hentity, hid⟩

/-- A revoke of another fact names none of this fact's versions. -/
theorem unrevokedSnapshots_revoke_other {db : Database} (h : Sound db) {ctx : TenantContext}
    {request : RevokeRequest} {now : Instant} {write : RevokeWrite}
    (hrevokes : Revokes db ctx request now write) (org : Uuid) {factId : Uuid}
    (hother : factId ≠ request.factId) (k : Option Instant) :
    unrevokedSnapshots (write.apply db) org factId k = unrevokedSnapshots db org factId k := by
  obtain ⟨u, hu, huid⟩ := hrevokes.version
  obtain ⟨humem, -, hufact⟩ := mem_versionsOf.mp hu
  unfold unrevokedSnapshots
  rw [versionsOf_revoke]
  congr 1
  apply List.filter_congr
  intro v hv
  obtain ⟨hvmem, -, hvfact⟩ := mem_versionsOf.mp hv
  have hne : write.revocation.factVersionId ≠ v.id := by
    intro hid
    have huv := List.inj_on_of_nodup_map h.versionIds humem hvmem (huid.trans hid)
    apply hother
    rw [← hvfact, ← huv, hufact]
  simp [notRevoked, RevokeWrite.apply, Database.addRevocation, hne]

theorem answerFor_revoke {db : Database} (h : Sound db) {ctx : TenantContext}
    {request : RevokeRequest} {now : Instant} {write : RevokeWrite}
    (hrevokes : Revokes db ctx request now write) {factId : Uuid} {k : Instant}
    (hahead : factId = request.factId → k < now) (org entityId : Uuid) (t : Instant) :
    answerFor (write.apply db) org entityId factId t (some k) =
      answerFor db org entityId factId t (some k) := by
  have hsame : unrevokedSnapshots (write.apply db) org factId (some k) =
      unrevokedSnapshots db org factId (some k) := by
    by_cases hfact : factId = request.factId
    · apply unrevokedSnapshots_revoke
      rw [hrevokes.revokedAt]
      exact hahead hfact
    · exact unrevokedSnapshots_revoke_other h hrevokes org hfact (some k)
  by_cases hold : ∃ f ∈ db.facts, f.organizationId = org ∧ f.entityId = entityId ∧ f.id = factId
  · obtain ⟨f, hf, rfl, rfl, rfl⟩ := hold
    have hf' : f ∈ (write.apply db).facts := hf
    rw [answerFor_eq_matchesAt (Sound.revoke h write) hf', answerFor_eq_matchesAt h hf, hsame]
  · have hnone : ∀ f ∈ db.facts, f.organizationId = org → f.entityId = entityId →
        f.id ≠ factId := fun f hf horg hentity hid => hold ⟨f, hf, horg, hentity, hid⟩
    have hnone' : ∀ f ∈ (write.apply db).facts, f.organizationId = org → f.entityId = entityId →
        f.id ≠ factId := hnone
    rw [answerFor_eq_nil hnone, answerFor_eq_nil hnone']

/-- Asking again now would give every answer once more. -/
def Reproducible (w : World) : Prop :=
  ∀ a ∈ w.answers,
    answerFor w.db a.org a.entityId a.factId a.validAt (some a.knownAt) = a.shown

theorem ahead_of_unanswered {w : World} {factId : Uuid} {time : Instant}
    (h : unanswered w factId time = true) {a : Answer} (ha : a ∈ w.answers)
    (hfact : a.factId = factId) : a.knownAt < time := by
  have hall := List.all_eq_true.mp h a ha
  simp only [hfact, bne_self_eq_false, Bool.false_or] at hall
  exact of_decide_eq_true hall

theorem reproducible_commit {w : World} (hw : Consistent w) (hanswers : Reproducible w)
    {t : Txn} {db : Database} (ht : t ∈ w.txns) (hcommit : t.commit w.db = some db)
    (hahead : ((effectOf t).all fun effect => unanswered w effect.1 effect.2) = true) :
    ∀ a ∈ w.answers,
      answerFor db a.org a.entityId a.factId a.validAt (some a.knownAt) = a.shown := by
  have hest := hw.established t ht
  intro a ha
  unfold Txn.commit at hcommit
  split at hcommit
  · rename_i ctx now d write
    obtain rfl := Option.some.inj hcommit
    have happ : Appends w.db write := hest
    rw [answerFor_apply hw.sound happ, hanswers a ha]
    exact ahead_of_unanswered hahead ha
  · rename_i ctx now request write
    obtain rfl := Option.some.inj hcommit
    have hrevokes : Revokes w.db ctx request now write := hest
    rw [answerFor_revoke hw.sound hrevokes, hanswers a ha]
    exact ahead_of_unanswered hahead ha
  · exact absurd hcommit (by simp)

/-- Only a commit changes an answer, and a permitted one does not. -/
theorem reproducible_step {rt : Runtime} {w w' : World} {e : Event} (hw : Consistent w)
    (hanswers : Reproducible w) (hallowed : CommitsAhead w e) (h : step rt w e = some w') :
    Reproducible w' := by
  cases step_cases h with
  | recording ctx command haction => exact hanswers
  | revoking ctx factId versionId reason haction => exact hanswers
  | moved i m t t' haction ht hready hstep => exact hanswers
  | committed i t db haction ht hcommit =>
    refine reproducible_commit hw hanswers (List.mem_of_getElem? ht) hcommit ?_
    simpa [CommitsAhead, committing, haction, ht] using hallowed
  | answered org entityId factId validAt knownAt haction hle =>
    intro a ha
    rcases List.mem_append.mp ha with ha | ha
    · exact hanswers a ha
    · obtain rfl := List.mem_singleton.mp ha
      rfl

/-- When commits stay ahead of the answers, one question has one answer. -/
theorem answers_stable (rt : Runtime) (start w : World) (trace : List Event)
    (hstart : Start start) (hrun : (system rt).run start trace = some w)
    (hmeets : (system rt).RunMeets CommitsAhead start trace) :
    ∀ a ∈ w.answers, ∀ b ∈ w.answers, a.org = b.org → a.entityId = b.entityId →
      a.factId = b.factId → a.validAt = b.validAt → a.knownAt = b.knownAt →
      a.shown = b.shown := by
  have hinv : Consistent w ∧ Reproducible w :=
    (system rt).run_preserves_of_meets CommitsAhead (fun w => Consistent w ∧ Reproducible w)
      (fun s e s' hs hallowed hstep => ⟨consistent_step hs.1 hstep,
        reproducible_step hs.1 hs.2 hallowed hstep⟩) hrun hmeets
      ⟨Isolation.Start.consistent hstart, by simp [Reproducible, hstart.answers]⟩
  intro a ha b hb horg hentity hfact hvalid hknown
  rw [← hinv.2 a ha, ← hinv.2 b hb, horg, hentity, hfact, hvalid, hknown]

/-- A question asked before and after a second version is recorded. -/
def asksTwice : List Event :=
  exampleRecord 0 (exampleCommand true 0) 10 ⟨10, 11, 12⟩ ++
    [⟨18, .read 1 10 11 7 17⟩] ++
    exampleRecord 1 (exampleCommand false 5) 20 ⟨20, 21, 22⟩ ++
    [⟨30, .read 1 10 11 7 17⟩]

theorem answers_stable_example :
    ∃ w, (system exampleRuntime).run exampleWorld asksTwice = some w ∧
      w.answers.map (fun a => a.shown.map VersionSnapshot.id) = [[12], [12]] ∧
      ∀ a ∈ w.answers, ∀ b ∈ w.answers, a.org = b.org → a.entityId = b.entityId →
        a.factId = b.factId → a.validAt = b.validAt → a.knownAt = b.knownAt →
        a.shown = b.shown := by
  have hruns : ((system exampleRuntime).run exampleWorld asksTwice).map
      (fun w => w.answers.map fun a => a.shown.map VersionSnapshot.id) = some [[12], [12]] := by
    decide +kernel
  obtain ⟨w, hrun, hshown⟩ := Option.map_eq_some_iff.mp hruns
  exact ⟨w, hrun, hshown, answers_stable exampleRuntime exampleWorld w asksTwice
    ⟨⟨rfl, rfl, rfl⟩, rfl, rfl, rfl⟩ hrun (by decide +kernel)⟩

/-- A reader asks about 25 while a version stamped at 24 is not committed yet, and
asks again when it is. -/
def asksWhileStamped : List Event :=
  exampleRecord 0 (exampleCommand true 0) 10 ⟨10, 11, 12⟩ ++
    [⟨20, .beginRecord exampleContext (exampleCommand false 5)⟩,
     ⟨21, .move 1 (.locate 20 21)⟩,
     ⟨22, .move 1 .lock⟩,
     ⟨23, .move 1 .plan⟩,
     ⟨24, .move 1 .stamp⟩,
     ⟨25, .move 1 (.write 22)⟩,
     ⟨26, .read 1 10 11 7 25⟩,
     ⟨27, .commit 1⟩,
     ⟨28, .read 1 10 11 7 25⟩]

/-- An answer can change, even over a strictly increasing clock. -/
theorem answers_change :
    ¬ ∀ (rt : Runtime) (start w : World) (trace : List Event), Start start →
      (system rt).run start trace = some w →
      (system rt).RunMeets (fun w e => w.clock < e.clock) start trace →
      ∀ a ∈ w.answers, ∀ b ∈ w.answers, a.org = b.org → a.entityId = b.entityId →
        a.factId = b.factId → a.validAt = b.validAt → a.knownAt = b.knownAt →
        a.shown = b.shown := by
  intro h
  have hruns : ((system exampleRuntime).run exampleWorld asksWhileStamped).any (fun w =>
      w.answers.any fun a => w.answers.any fun b => a.org == b.org && a.entityId == b.entityId &&
        a.factId == b.factId && a.validAt == b.validAt && a.knownAt == b.knownAt &&
        a.shown.map VersionSnapshot.id != b.shown.map VersionSnapshot.id) = true := by
    decide +kernel
  obtain ⟨w, hrun, hw⟩ := (Option.any_eq_true _ _).mp hruns
  obtain ⟨a, ha, hanswer⟩ := List.any_eq_true.mp hw
  obtain ⟨b, hb, hpair⟩ := List.any_eq_true.mp hanswer
  simp only [Bool.and_eq_true, beq_iff_eq, bne_iff_ne] at hpair
  obtain ⟨⟨⟨⟨⟨horg, hentity⟩, hfact⟩, hvalid⟩, hknown⟩, hdiffer⟩ := hpair
  have hsame := h exampleRuntime exampleWorld w asksWhileStamped
    ⟨⟨rfl, rfl, rfl⟩, rfl, rfl, rfl⟩ hrun (by decide +kernel) a ha b hb horg hentity hfact hvalid
    hknown
  rw [hsame] at hdiffer
  exact hdiffer rfl

end ContextLedger.AnswerStability
