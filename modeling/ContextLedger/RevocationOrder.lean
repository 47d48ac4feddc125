import ContextLedger.Histories

/-!
Whether a revocation is later than what it revokes. The time of a revocation is
read when its transaction begins, the time of a version under the lock, so a
revoke of the latest version that waits for a writer can revoke a version that
is stamped later than the revoke began. Over a clock that strictly increases
this is the only way: when no writer stamps a fact while such a revoke of it is
open, every revocation lies after the version it revokes.
-/
namespace ContextLedger.RevocationOrder

open Values Authorization Schema Facts VersionChain VersionTable Recording Reference
open TemporalEngine Revocations Knowledge Concurrent Isolation

/-- An open revoke of whatever is the latest version of the fact when it gets the lock. -/
def revokesLatestOf (factId : Uuid) : Txn → Bool
  | .revoke _ _ request _ => request.factId == factId && request.versionId.isNone
  | _ => false

/-- The fact for which the action takes a transaction time. -/
def stampingFact (w : World) : Action → Option Uuid
  | .move i .stamp =>
    match w.txns[i]? with
    | some (.record _ _ _ (.planned place _ _)) => some place.fact.id
    | _ => none
  | _ => none

/-- The clock moves forward, and a writer reads its transaction time only while no
revoke of the latest version of its fact is open. -/
def StampsAlone (w : World) (e : Event) : Prop :=
  w.clock < e.clock ∧ ((stampingFact w e.action).all fun factId =>
    w.txns.all fun t => !revokesLatestOf factId t) = true

instance (w : World) (e : Event) : Decidable (StampsAlone w e) :=
  inferInstanceAs (Decidable (_ ∧ _))

/-- The fact and transaction time of a version that is stamped but not committed,
with its identifier once it has one. -/
def stampOf : Txn → Option (Uuid × Instant × Option Uuid)
  | .record _ _ _ (.stamped place _ _ recordedAt) => some (place.fact.id, recordedAt, none)
  | .record _ _ _ (.written write) =>
    some (write.version.factId, write.version.recordedAt, some write.version.id)
  | _ => none

/-- The revoke may come to revoke this version. -/
def Targets (request : RevokeRequest) (factId : Uuid) (id : Option Uuid) : Prop :=
  request.factId = factId ∧ (request.versionId = none ∨ (id.isSome ∧ request.versionId = id))

/-- Every version that an open revoke may come to revoke was stamped before it began. -/
structure Later (w : World) : Prop where
  recorded : ∀ v ∈ w.db.versions, v.recordedAt ≤ w.clock
  stamped : ∀ t ∈ w.txns, ∀ f r id, stampOf t = some (f, r, id) → r ≤ w.clock
  committed : ∀ ctx now request phase, Txn.revoke ctx now request phase ∈ w.txns →
    ∀ v ∈ w.db.versions, Targets request v.factId (some v.id) → v.recordedAt < now
  pending : ∀ ctx now request phase, Txn.revoke ctx now request phase ∈ w.txns →
    ∀ t ∈ w.txns, ∀ f r id, stampOf t = some (f, r, id) → Targets request f id → r < now
  named : ∀ ctx now request phase, Txn.revoke ctx now request phase ∈ w.txns →
    ∀ id, request.versionId = some id → id ∈ w.drawn
  revoked : ∀ r ∈ w.db.revocations, ∃ v ∈ w.db.versions, v.id = r.factVersionId ∧
    v.organizationId = r.organizationId ∧ v.recordedAt < r.revokedAt
  once : w.db.revocations.Pairwise fun a b =>
    a.organizationId = b.organizationId → a.factVersionId ≠ b.factVersionId

theorem Start.later {w : World} (h : Start w) : Later w := by
  refine ⟨?_, ?_, ?_, ?_, ?_, ?_, ?_⟩
  · simp [h.db.versions]
  · simp [h.txns]
  · simp [h.txns]
  · simp [h.txns]
  · simp [h.txns]
  · simp [h.db.revocations]
  · simp [h.db.revocations]

/-- What a step can do to the stamp of its transaction: keep it, take it from the
clock under the lock, or give it a new identifier. -/
theorem stampOf_stepTxn {db : Database} {clock : Instant} {t t' : Txn} {m : Move}
    (h : stepTxn db clock t m = some t') {f : Uuid} {r : Instant} {id : Option Uuid}
    (hstamp : stampOf t' = some (f, r, id)) :
    (m = .stamp ∧ id = none ∧ ∃ ctx now d place latest plan,
      t = .record ctx now d (.planned place latest plan) ∧ f = place.fact.id ∧
        r = nextTransactionTime latest clock) ∨
      (stampOf t = some (f, r, none) ∧ ∃ new ∈ m.ids, id = some new) := by
  unfold stepTxn at h
  split at h
  · rename_i ctx now d entityId factId
    obtain rfl := Option.some.inj h
    cases hlocate : locate db ctx d entityId factId with
    | ok place => simp [orRollBack, hlocate, stampOf] at hstamp
    | error failure => simp [orRollBack, hlocate, stampOf] at hstamp
  · obtain rfl := Option.some.inj h
    simp [stampOf] at hstamp
  · rename_i ctx now d place
    obtain rfl := Option.some.inj h
    cases hplan : planVersion (latestVersion db ctx.organizationId place.fact.id) d with
    | ok plan => simp [orRollBack, hplan, stampOf] at hstamp
    | error failure => simp [orRollBack, hplan, stampOf] at hstamp
  · rename_i ctx now d place latest plan
    obtain rfl := Option.some.inj h
    simp only [stampOf, Option.some.injEq, Prod.mk.injEq] at hstamp
    obtain ⟨rfl, rfl, rfl⟩ := hstamp
    exact Or.inl ⟨rfl, rfl, ctx, now, d, place, latest, plan, rfl, rfl, rfl⟩
  · rename_i ctx now d place latest plan recordedAt newId
    obtain rfl := Option.some.inj h
    cases hwrite : writeVersion db ctx d place latest plan recordedAt now newId with
    | error failure => simp [orRollBack, hwrite, stampOf] at hstamp
    | ok write =>
      obtain ⟨value, -, hversion⟩ := (writeVersion_eq_ok hwrite).1.version
      simp only [orRollBack, hwrite, stampOf, hversion, newVersion, Option.some.injEq,
        Prod.mk.injEq] at hstamp
      obtain ⟨rfl, rfl, rfl⟩ := hstamp
      exact Or.inr ⟨rfl, newId, by simp [Move.ids], rfl⟩
  · rename_i ctx now request _ _
    obtain rfl := Option.some.inj h
    cases hrole : authorizeRevoke db ctx request with
    | ok role => simp [orRollBack, hrole, stampOf] at hstamp
    | error failure => simp [orRollBack, hrole, stampOf] at hstamp
  · obtain rfl := Option.some.inj h
    simp [stampOf] at hstamp
  · rename_i ctx now request role newId
    obtain rfl := Option.some.inj h
    cases hwrite : writeRevocation db ctx request role now newId with
    | ok write => simp [orRollBack, hwrite, stampOf] at hstamp
    | error failure => simp [orRollBack, hwrite, stampOf] at hstamp
  · obtain rfl := Option.some.inj h
    simp [stampOf] at hstamp
  · obtain rfl := Option.some.inj h
    simp [stampOf] at hstamp
  · exact absurd h (by simp)

/-- A revoke keeps its request and begin time through its phases. -/
theorem revoke_stepTxn {db : Database} {clock : Instant} {t : Txn} {m : Move}
    {ctx : TenantContext} {now : Instant} {request : RevokeRequest} {phase : RevokePhase}
    (h : stepTxn db clock t m = some (.revoke ctx now request phase)) :
    ∃ old, t = .revoke ctx now request old := by
  unfold stepTxn at h
  split at h
  · rename_i ctx' now' d entityId factId
    cases hlocate : locate db ctx' d entityId factId <;> simp [orRollBack, hlocate] at h
  · simp at h
  · rename_i ctx' now' d place
    cases hplan : planVersion (latestVersion db ctx'.organizationId place.fact.id) d <;>
      simp [orRollBack, hplan] at h
  · simp at h
  · rename_i ctx' now' d place latest plan recordedAt newId
    cases hwrite : writeVersion db ctx' d place latest plan recordedAt now' newId <;>
      simp [orRollBack, hwrite] at h
  · rename_i ctx' now' request' _ _
    cases hrole : authorizeRevoke db ctx' request' with
    | ok role =>
      simp only [orRollBack, hrole, Option.some.injEq, Txn.revoke.injEq] at h
      obtain ⟨rfl, rfl, rfl, -⟩ := h
      exact ⟨_, rfl⟩
    | error failure => simp [orRollBack, hrole] at h
  · simp only [Option.some.injEq, Txn.revoke.injEq] at h
    obtain ⟨rfl, rfl, rfl, -⟩ := h
    exact ⟨_, rfl⟩
  · rename_i ctx' now' request' role newId
    cases hwrite : writeRevocation db ctx' request' role now' newId with
    | ok write =>
      simp only [orRollBack, hwrite, Option.some.injEq, Txn.revoke.injEq] at h
      obtain ⟨rfl, rfl, rfl, -⟩ := h
      exact ⟨_, rfl⟩
    | error failure => simp [orRollBack, hwrite] at h
  · simp at h
  · simp at h
  · simp at h

/-- Under a clock past every earlier stamp, the transaction time is the clock. -/
theorem nextTransactionTime_eq {latest : Option FactVersion} {clock : Instant}
    (h : ∀ v, latest = some v → v.recordedAt < clock) :
    nextTransactionTime latest clock = clock := by
  cases latest with
  | none => rfl
  | some v => simp [nextTransactionTime, not_le.mpr (h v rfl)]

/-- An open revoke of the new world was open before the step. -/
theorem revoke_mem_set {w : World} {i : ℕ} {t t' : Txn} {m : Move} {clock : Instant}
    (ht : w.txns[i]? = some t) (hstep : stepTxn w.db clock t m = some t') {ctx : TenantContext}
    {now : Instant} {request : RevokeRequest} {phase : RevokePhase}
    (h : Txn.revoke ctx now request phase ∈ w.txns.set i t') :
    ∃ old, Txn.revoke ctx now request old ∈ w.txns := by
  rcases (List.mem_or_eq_of_mem_set h).symm with heq | h
  · obtain ⟨old, rfl⟩ := revoke_stepTxn (heq ▸ hstep)
    exact ⟨old, List.mem_of_getElem? ht⟩
  · exact ⟨phase, h⟩

theorem later_move {w : World} {e : Event} (hw : Consistent w) (hlater : Later w)
    (hallowed : StampsAlone w e) {i : ℕ} {t t' : Txn} {m : Move} (haction : e.action = .move i m)
    (ht : w.txns[i]? = some t) (hready : w.ready i t m = true)
    (hstep : stepTxn w.db e.clock t m = some t') :
    Later { w with txns := w.txns.set i t', drawn := m.ids ++ w.drawn, clock := e.clock } := by
  have hmem : t ∈ w.txns := List.mem_of_getElem? ht
  have htick : w.clock ≤ e.clock := le_of_lt hallowed.1
  have hfresh := fresh_of_ready hready
  refine ⟨?_, ?_, ?_, ?_, ?_, hlater.revoked, hlater.once⟩
  · exact fun v hv => le_trans (hlater.recorded v hv) htick
  · intro u hu f r id hstamp
    rcases (List.mem_or_eq_of_mem_set hu).symm with rfl | hu
    · rcases stampOf_stepTxn hstep hstamp with
        ⟨-, -, ctx, now, d, place, latest, plan, rfl, -, rfl⟩ | ⟨hold, -⟩
      · obtain ⟨-, hlatest, -⟩ := hw.established _ hmem
        rw [nextTransactionTime_eq]
        intro v hv
        rw [hv] at hlatest
        have hv' := (mem_versionsOf.mp (Sound.latest_mem hlatest)).1
        exact lt_of_le_of_lt (hlater.recorded v hv') hallowed.1
      · exact le_trans (hlater.stamped t hmem f r none hold) htick
    · exact le_trans (hlater.stamped u hu f r id hstamp) htick
  · intro ctx now request phase hrevoke v hv htargets
    obtain ⟨old, hold⟩ := revoke_mem_set ht hstep hrevoke
    exact hlater.committed ctx now request old hold v hv htargets
  · intro ctx now request phase hrevoke u hu f r id hstamp htargets
    obtain ⟨old, hold⟩ := revoke_mem_set ht hstep hrevoke
    rcases (List.mem_or_eq_of_mem_set hu).symm with rfl | hu
    · rcases stampOf_stepTxn hstep hstamp with
        ⟨rfl, rfl, ctx', now', d, place, latest, plan, rfl, rfl, -⟩ | ⟨hstamped, new, hnew, rfl⟩
      · have hnone : request.versionId = none := by
          rcases htargets.2 with hnone | ⟨hsome, -⟩
          · exact hnone
          · exact absurd hsome (by simp)
        have hstamping : stampingFact w e.action = some place.fact.id := by
          simp [haction, stampingFact, ht]
        have halone := hallowed.2
        rw [hstamping, Option.all_some, List.all_eq_true] at halone
        exact absurd (halone _ hold) (by simp [revokesLatestOf, htargets.1, hnone])
      · rcases htargets.2 with hnone | ⟨-, hsome⟩
        · exact hlater.pending ctx now request old hold t hmem f r none hstamped
            ⟨htargets.1, Or.inl hnone⟩
        · exact absurd (hlater.named ctx now request old hold new hsome) (hfresh new hnew)
    · exact hlater.pending ctx now request old hold u hu f r id hstamp htargets
  · intro ctx now request phase hrevoke id hid
    obtain ⟨old, hold⟩ := revoke_mem_set ht hstep hrevoke
    exact List.mem_append_right _ (hlater.named ctx now request old hold id hid)

theorem recordedAt_touched (write : VersionWrite) (v : FactVersion) :
    (touched write v).recordedAt = v.recordedAt := by
  rcases touched_cases write v with h | ⟨-, c, -, -, h⟩
  · rw [h]
  · rw [h]
    rfl

private theorem revoke_mem_commit {txns : List Txn} {i : ℕ} {ctx : TenantContext} {now : Instant}
    {request : RevokeRequest} {phase : RevokePhase}
    (h : Txn.revoke ctx now request phase ∈ txns.set i .committed) :
    Txn.revoke ctx now request phase ∈ txns := by
  rcases (List.mem_or_eq_of_mem_set h).symm with heq | h
  · exact absurd heq (by simp)
  · exact h

private theorem stamped_mem_commit {txns : List Txn} {i : ℕ} {t : Txn}
    {s : Uuid × Instant × Option Uuid} (h : t ∈ txns.set i .committed) (hs : stampOf t = some s) :
    t ∈ txns := by
  rcases (List.mem_or_eq_of_mem_set h).symm with rfl | h
  · exact absurd hs (by simp [stampOf])
  · exact h

theorem later_commit {w : World} {e : Event} (hw : Consistent w) (hlater : Later w)
    (htick : w.clock ≤ e.clock) {i : ℕ} {t : Txn} {db : Database} (ht : w.txns[i]? = some t)
    (hcommit : t.commit w.db = some db) :
    Later { w with db := db, txns := w.txns.set i .committed, clock := e.clock } := by
  have hmem : t ∈ w.txns := List.mem_of_getElem? ht
  have hest := hw.established t hmem
  have hstamped : ∀ u ∈ w.txns.set i .committed, ∀ f r id, stampOf u = some (f, r, id) →
      r ≤ e.clock := fun u hu f r id hs =>
    le_trans (hlater.stamped u (stamped_mem_commit hu hs) f r id hs) htick
  have hpending : ∀ ctx now request phase,
      Txn.revoke ctx now request phase ∈ w.txns.set i .committed →
      ∀ u ∈ w.txns.set i .committed, ∀ f r id, stampOf u = some (f, r, id) →
        Targets request f id → r < now := by
    intro ctx now request phase hrevoke u hu f r id hs htargets
    exact hlater.pending ctx now request phase (revoke_mem_commit hrevoke) u
      (stamped_mem_commit hu hs) f r id hs htargets
  have hnamed : ∀ ctx now request phase,
      Txn.revoke ctx now request phase ∈ w.txns.set i .committed →
      ∀ id, request.versionId = some id → id ∈ w.drawn := fun ctx now request phase hrevoke =>
    hlater.named ctx now request phase (revoke_mem_commit hrevoke)
  unfold Txn.commit at hcommit
  split at hcommit
  · rename_i ctx now d write
    obtain rfl := Option.some.inj hcommit
    have hversions : ∀ v ∈ (write.apply w.db).versions,
        (∃ u ∈ w.db.versions, v = touched write u) ∨ v = write.version := by
      intro v hv
      rw [apply_versions, List.mem_append] at hv
      rcases hv with hv | hv
      · obtain ⟨u, hu, rfl⟩ := List.mem_map.mp hv
        exact Or.inl ⟨u, hu, rfl⟩
      · exact Or.inr (by simpa using hv)
    refine ⟨?_, hstamped, ?_, hpending, hnamed, ?_, ?_⟩
    · intro v hv
      rcases hversions v hv with ⟨u, hu, rfl⟩ | rfl
      · rw [recordedAt_touched]
        exact le_trans (hlater.recorded u hu) htick
      · exact le_trans (hlater.stamped _ hmem _ _ _ rfl) htick
    · intro ctx' now' request phase hrevoke v hv htargets
      have hold := revoke_mem_commit hrevoke
      rcases hversions v hv with ⟨u, hu, rfl⟩ | rfl
      · rw [touched_factId, touched_id] at htargets
        rw [recordedAt_touched]
        exact hlater.committed ctx' now' request phase hold u hu htargets
      · exact hlater.pending ctx' now' request phase hold _ hmem _ _ _ rfl htargets
    · intro r hr
      rw [apply_revocations] at hr
      obtain ⟨v, hv, hid, horg, hlt⟩ := hlater.revoked r hr
      refine ⟨touched write v, ?_, ?_, ?_, ?_⟩
      · rw [apply_versions]
        exact List.mem_append_left _ (List.mem_map_of_mem hv)
      · rw [touched_id]
        exact hid
      · rw [touched_organizationId]
        exact horg
      · rw [recordedAt_touched]
        exact hlt
    · rw [apply_revocations]
      exact hlater.once
  · rename_i ctx now request write
    obtain rfl := Option.some.inj hcommit
    have hrevokes : Revokes w.db ctx request now write := hest
    obtain ⟨v, hv, hid⟩ := hrevokes.version
    have hvmem := mem_versionsOf.mp hv
    refine ⟨?_, hstamped, ?_, hpending, hnamed, ?_, ?_⟩
    · exact fun u hu => le_trans (hlater.recorded u hu) htick
    · intro ctx' now' request' phase hrevoke u hu htargets
      exact hlater.committed ctx' now' request' phase (revoke_mem_commit hrevoke) u hu htargets
    · intro r hr
      rcases List.mem_append.mp hr with hr | hr
      · exact hlater.revoked r hr
      · obtain rfl : r = write.revocation := by simpa using hr
        refine ⟨v, hvmem.1, hid, ?_, ?_⟩
        · rw [hvmem.2.1, hrevokes.organizationId]
        · rw [hrevokes.revokedAt]
          refine hlater.committed ctx now request _ hmem v hvmem.1 ⟨hvmem.2.2.symm, ?_⟩
          cases hversion : request.versionId with
          | none => exact Or.inl rfl
          | some id =>
            right
            refine ⟨rfl, ?_⟩
            rw [hid, hrevokes.named id hversion]
    · show (w.db.revocations ++ [write.revocation]).Pairwise _
      rw [List.pairwise_append]
      refine ⟨hlater.once, by simp, ?_⟩
      intro a ha b hb horg
      obtain rfl : b = write.revocation := by simpa using hb
      exact hrevokes.first a ha (horg.trans hrevokes.organizationId)
  · exact absurd hcommit (by simp)

theorem later_begin {w : World} {clock : Instant} (hlater : Later w) (hclock : w.clock < clock)
    {t : Txn} (hstamp : stampOf t = none) (named : List Uuid)
    (hrevoke : ∀ ctx now request phase, t = .revoke ctx now request phase →
      now = clock ∧ ∀ id, request.versionId = some id → id ∈ named) :
    Later { w with txns := w.txns ++ [t], drawn := named ++ w.drawn, clock := clock } := by
  have htick : w.clock ≤ clock := le_of_lt hclock
  have hold {u : Txn} {s : Uuid × Instant × Option Uuid} (hu : u ∈ w.txns ++ [t])
      (hs : stampOf u = some s) : u ∈ w.txns := by
    rcases List.mem_append.mp hu with hu | hu
    · exact hu
    · obtain rfl : u = t := by simpa using hu
      exact absurd hs (by simp [hstamp])
  have hcases {ctx : TenantContext} {now : Instant} {request : RevokeRequest}
      {phase : RevokePhase} (hr : Txn.revoke ctx now request phase ∈ w.txns ++ [t]) :
      Txn.revoke ctx now request phase ∈ w.txns ∨
        (now = clock ∧ ∀ id, request.versionId = some id → id ∈ named) := by
    rcases List.mem_append.mp hr with hr | hr
    · exact Or.inl hr
    · exact Or.inr (hrevoke ctx now request phase (List.mem_singleton.mp hr).symm)
  refine ⟨?_, ?_, ?_, ?_, ?_, hlater.revoked, hlater.once⟩
  · exact fun v hv => le_trans (hlater.recorded v hv) htick
  · intro u hu f r id hs
    exact le_trans (hlater.stamped u (hold hu hs) f r id hs) htick
  · intro ctx now request phase hr v hv htargets
    rcases hcases hr with hr | ⟨rfl, -⟩
    · exact hlater.committed ctx now request phase hr v hv htargets
    · exact lt_of_le_of_lt (hlater.recorded v hv) hclock
  · intro ctx now request phase hr u hu f r id hs htargets
    rcases hcases hr with hr | ⟨rfl, -⟩
    · exact hlater.pending ctx now request phase hr u (hold hu hs) f r id hs htargets
    · exact lt_of_le_of_lt (hlater.stamped u (hold hu hs) f r id hs) hclock
  · intro ctx now request phase hr id hid
    rcases hcases hr with hr | ⟨-, hnamed⟩
    · exact List.mem_append_right _ (hlater.named ctx now request phase hr id hid)
    · exact List.mem_append_left _ (hnamed id hid)

/-- A permitted step keeps every open revoke after the versions it may revoke. -/
theorem later_step {rt : Runtime} {w w' : World} {e : Event} (hw : Consistent w)
    (hlater : Later w) (hallowed : StampsAlone w e) (h : step rt w e = some w') : Later w' := by
  cases step_cases h with
  | recording ctx command haction =>
    generalize draft rt command = result
    have hbegin := @later_begin w e.clock hlater hallowed.1
      (orRollBack result fun d => .record ctx e.clock d .begun)
    refine hbegin ?_ [] ?_
    · cases result <;> rfl
    · intro ctx' now request phase heq
      cases result <;> simp [orRollBack] at heq
  | revoking ctx factId versionId reason haction =>
    refine later_begin hlater hallowed.1 ?_ versionId.toList ?_
    · generalize revokeRequest factId versionId reason = result
      cases result <;> rfl
    · intro ctx' now request phase heq
      cases hrequest : revokeRequest factId versionId reason with
      | error failure => simp [orRollBack, hrequest] at heq
      | ok request' =>
        simp only [orRollBack, hrequest, Txn.revoke.injEq] at heq
        obtain ⟨-, rfl, rfl, -⟩ := heq
        refine ⟨rfl, ?_⟩
        intro id hid
        rw [(revokeRequest_eq_ok hrequest).2] at hid
        simp [hid]
  | moved i m t t' haction ht hready hstep =>
    exact later_move hw hlater hallowed haction ht hready hstep
  | committed i t db haction ht hcommit =>
    exact later_commit hw hlater (le_of_lt hallowed.1) ht hcommit
  | answered org entityId factId validAt knownAt haction hle =>
    have htick := le_of_lt hallowed.1
    exact ⟨fun v hv => le_trans (hlater.recorded v hv) htick,
      fun t ht f r id hs => le_trans (hlater.stamped t ht f r id hs) htick, hlater.committed,
      hlater.pending, hlater.named, hlater.revoked, hlater.once⟩

/-- When writers stamp alone, every revocation is later than the version it revokes,
which is known and unrevoked from its recording until then. -/
theorem revoked_after_recorded (rt : Runtime) (start w : World) (trace : List Event)
    (hstart : Start start) (hrun : (system rt).run start trace = some w)
    (hmeets : (system rt).RunMeets StampsAlone start trace) :
    ∀ r ∈ w.db.revocations, ∃ v ∈ w.db.versions, v.id = r.factVersionId ∧
      v.organizationId = r.organizationId ∧ v.recordedAt < r.revokedAt ∧
      ∀ k, v.recordedAt ≤ k → k < r.revokedAt →
        isKnown (some k) (toSnapshot v) = true ∧
          notRevokedCondition w.db (some k) v = some true := by
  have hinv : Consistent w ∧ Later w :=
    (system rt).run_preserves_of_meets StampsAlone (fun w => Consistent w ∧ Later w)
      (fun s a s' hs hallowed hstep => ⟨consistent_step hs.1 hstep,
        later_step hs.1 hs.2 hallowed hstep⟩) hrun hmeets
      ⟨Isolation.Start.consistent hstart, Start.later hstart⟩
  obtain ⟨hw, hlater⟩ := hinv
  intro r hr
  obtain ⟨v, hv, hid, horg, hlt⟩ := hlater.revoked r hr
  refine ⟨v, hv, hid, horg, hlt, ?_⟩
  intro k hrecorded hk
  refine ⟨decide_eq_true hrecorded, ?_⟩
  rw [notRevokedCondition_eq, Option.some.injEq, notRevoked, Bool.not_eq_true', List.any_eq_false]
  intro r' hr' hmatch
  simp only [Option.all_some, Bool.and_eq_true, beq_iff_eq, decide_eq_true_iff] at hmatch
  obtain ⟨⟨horg', hid'⟩, hle⟩ := hmatch
  have hsame : r' = r := by
    by_contra hne
    have hsymm : Std.Symm fun a b : FactRevocation =>
        a.organizationId = b.organizationId → a.factVersionId ≠ b.factVersionId :=
      ⟨fun a b hab horg hfv => hab horg.symm hfv.symm⟩
    exact hlater.once.forall hr' hr hne (horg'.trans horg) (hid'.trans hid)
  rw [hsame] at hle
  exact absurd hle (not_le.mpr hk)

/-- One revoke alone of the latest version of a fact. -/
def exampleRevoke (i : ℕ) (factId : Uuid) (clock : Instant) (ids : FreshIds) : List Event :=
  [⟨clock, .beginRevoke exampleContext factId none "imported twice"⟩,
   ⟨clock + 1, .move i (.locate ids.entity ids.fact)⟩,
   ⟨clock + 2, .move i .lock⟩,
   ⟨clock + 3, .move i (.write ids.version)⟩,
   ⟨clock + 4, .commit i⟩]

def revokeAlone : List Event :=
  exampleRecord 0 (exampleCommand true 0) 10 ⟨10, 11, 12⟩ ++ exampleRevoke 1 11 20 ⟨30, 31, 32⟩

theorem revoked_after_recorded_example :
    ∃ w, (system exampleRuntime).run exampleWorld revokeAlone = some w ∧
      w.db.revocations.map (fun r => (r.factVersionId, r.revokedAt)) = [(12, 20)] ∧
      ∀ r ∈ w.db.revocations, ∃ v ∈ w.db.versions, v.id = r.factVersionId ∧
        v.organizationId = r.organizationId ∧ v.recordedAt < r.revokedAt ∧
        ∀ k, v.recordedAt ≤ k → k < r.revokedAt →
          isKnown (some k) (toSnapshot v) = true ∧
            notRevokedCondition w.db (some k) v = some true := by
  have hruns : ((system exampleRuntime).run exampleWorld revokeAlone).isSome = true := by
    decide +kernel
  obtain ⟨w, hrun⟩ := Option.isSome_iff_exists.mp hruns
  refine ⟨w, hrun, ?_, ?_⟩
  · have hshown : ((system exampleRuntime).run exampleWorld revokeAlone).map
        (fun w => w.db.revocations.map fun r => (r.factVersionId, r.revokedAt)) =
          some [(12, 20)] := by
      decide +kernel
    rw [hrun] at hshown
    exact Option.some.inj hshown
  · exact revoked_after_recorded exampleRuntime exampleWorld w revokeAlone
      ⟨⟨rfl, rfl, rfl⟩, rfl, rfl, rfl⟩ hrun (by decide +kernel)

/-- A revoke begins at 23 and waits for a writer that stamps its version at 26. -/
def revokeWaits : List Event :=
  exampleRecord 0 (exampleCommand true 0) 10 ⟨10, 11, 12⟩ ++
    [⟨20, .beginRecord exampleContext (exampleCommand false 5)⟩,
     ⟨21, .move 1 (.locate 20 21)⟩,
     ⟨22, .move 1 .lock⟩,
     ⟨23, .beginRevoke exampleContext 11 none "imported twice"⟩,
     ⟨24, .move 2 (.locate 30 31)⟩,
     ⟨25, .move 1 .plan⟩,
     ⟨26, .move 1 .stamp⟩,
     ⟨27, .move 1 (.write 22)⟩,
     ⟨28, .commit 1⟩,
     ⟨29, .move 2 .lock⟩,
     ⟨30, .move 2 (.write 32)⟩,
     ⟨31, .commit 2⟩]

/-- A strictly increasing clock alone does not put a revocation after its version. -/
theorem revoked_before_recorded :
    ¬ ∀ (rt : Runtime) (start w : World) (trace : List Event), Start start →
      (system rt).run start trace = some w →
      (system rt).RunMeets (fun w e => w.clock < e.clock) start trace →
      ∀ r ∈ w.db.revocations, ∀ v ∈ w.db.versions, v.organizationId = r.organizationId →
        v.id = r.factVersionId → v.recordedAt < r.revokedAt := by
  intro h
  have hbad : ((system exampleRuntime).run exampleWorld revokeWaits).any (fun w =>
      w.db.revocations.any fun r => w.db.versions.any fun v =>
        v.organizationId == r.organizationId && v.id == r.factVersionId &&
          !decide (v.recordedAt < r.revokedAt)) = true := by
    decide +kernel
  obtain ⟨w, hrun, hw⟩ := (Option.any_eq_true _ _).mp hbad
  obtain ⟨r, hr, hrow⟩ := List.any_eq_true.mp hw
  obtain ⟨v, hv, hpair⟩ := List.any_eq_true.mp hrow
  simp only [Bool.and_eq_true, beq_iff_eq] at hpair
  obtain ⟨⟨horg, hid⟩, hlate⟩ := hpair
  have hearly := h exampleRuntime exampleWorld w revokeWaits ⟨⟨rfl, rfl, rfl⟩, rfl, rfl, rfl⟩
    hrun (by decide +kernel) r hr v hv horg hid
  rw [decide_eq_true hearly] at hlate
  exact absurd hlate (by decide)

end ContextLedger.RevocationOrder
