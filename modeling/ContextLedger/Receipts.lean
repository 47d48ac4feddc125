import ContextLedger.ReceiptRows
import ContextLedger.JsonbRoundTrip

/-!
Whether a stored receipt verifies. The hash is taken over the outcome in memory
and recomputed over the outcome as the database gives it back, in any state that
later calls leave. Both documents agree exactly when no float of the outcome is
a negative zero or reaches `10 ^ 16`. In the session that recorded the decision
the outcome in memory hides the difference.
-/
namespace ContextLedger.Receipts

open JsonText JsonInjective Values Authorization Schema Facts Recording Decisions Ledger
open ReceiptRows Jsonb

/-- What the hash reads of a row. -/
def sealedRow (row : SnapshotFactRow) : Uuid × ℕ × Jsonb.Value :=
  (row.version.id, row.snapshotFact.position, row.version.value)

theorem contentOf_congr (rt : Runtime) (decision : Decision) (outcome : Json)
    (snapshot : ContextSnapshot) {rows rows' : List SnapshotFactRow} (relied : List Uuid)
    (h : rows.map sealedRow = rows'.map sealedRow) :
    contentOf rt decision outcome snapshot rows relied =
      contentOf rt decision outcome snapshot rows' relied := by
  have hfacts : ∀ rows : List SnapshotFactRow, (rows.map fun row =>
      (row.version.id, (row.snapshotFact.position : ℤ),
        valueSha256 rt (Jsonb.load row.version.value))) =
      (rows.map sealedRow).map fun e => (e.1, (e.2.1 : ℤ), valueSha256 rt (Jsonb.load e.2.2)) := by
    intro rows
    rw [List.map_map]
    rfl
  unfold contentOf
  rw [hfacts rows, hfacts rows', h]

/-- The rows of one decision that its hash is made of. -/
structure Sealed (db : Database) (decision : Decision) (snapshot : ContextSnapshot)
    (entries : List (Uuid × ℕ × Jsonb.Value)) (relied : List Uuid) : Prop where
  found : getDecision db decision.organizationId decision.id = some decision
  frozen : getSnapshot db decision.organizationId decision.snapshotId = some snapshot
  entries : (snapshotRows db decision.organizationId snapshot.id).map sealedRow = entries
  relied : reliedOn db decision.organizationId decision.id = relied

section

variable {db : Database} {decision : Decision} {snapshot : ContextSnapshot}
  {entries : List (Uuid × ℕ × Jsonb.Value)} {relied : List Uuid}

theorem Sealed.snapshot_id (h : Sealed db decision snapshot entries relied) :
    snapshot.id = decision.snapshotId := (getSnapshot_mem h.frozen).2.2

theorem Sealed.effect {db' : Database} {clock : Instant} (hintact : Intact db)
    (h : Sealed db decision snapshot entries relied) (he : Effect db clock db') :
    Sealed db' decision snapshot entries relied := by
  have hsnapshot : getSnapshot db decision.organizationId snapshot.id = some snapshot := by
    rw [h.snapshot_id]
    exact h.frozen
  obtain ⟨advance, hadvance, hrows⟩ := snapshotRows_effect hintact he hsnapshot
  refine ⟨getDecision_effect he h.found, getSnapshot_effect he h.frozen, ?_, ?_⟩
  · rw [hrows, List.map_map, ← h.entries]
    apply List.map_congr_left
    intro row hrow
    have hv := snapshotRows_version_mem hrow
    simp [sealedRow, withVersion, hadvance.id _ hv, hadvance.value _ hv]
  · rw [reliedOn_effect he h.found]
    exact h.relied

theorem Sealed.performAll (rt : Runtime) (hintact : Intact db)
    (h : Sealed db decision snapshot entries relied) (calls : List Call) :
    Sealed (performAll rt db calls) decision snapshot entries relied := by
  induction calls generalizing db with
  | nil => exact h
  | cons call calls ih =>
    refine ih (hintact.perform call) ?_
    unfold perform
    split
    · rename_i db' hexecute
      exact h.effect hintact (execute_effect hintact.sound hexecute)
    · exact h

/-- Reading a receipt succeeds for whoever may read decisions. -/
theorem Sealed.receipt_eq_ok (rt : Runtime) (session : Session)
    (h : Sealed db decision snapshot entries relied) {reader : TenantContext}
    (horg : reader.organizationId = decision.organizationId) {role : MembershipRole}
    (hrole : requirePermission db reader .readDecisions = .ok role) :
    ∃ r, receipt rt session reader decision.id db = .ok r ∧
      r.integrityVerified = (receiptHash rt (contentOf rt decision (outcomeIn session decision)
        snapshot (snapshotRows db decision.organizationId snapshot.id) relied) ==
          decision.receiptSha256) ∧
      r.facts = (snapshotRows db decision.organizationId snapshot.id).map
        (receiptFact db decision.organizationId snapshot relied
          (visiblePrivacyScopes role [reader.maxPrivacyScope])) := by
  unfold receipt
  rw [horg, hrole]
  simp only [bind, Except.bind, h.found, h.frozen, h.relied]
  exact ⟨_, rfl, rfl, rfl⟩

end

theorem nodup_decisionEntry (content : ReceiptContent) :
    ((decisionEntry content).map Prod.fst).Nodup := by
  have hkeys : (decisionEntry content).map Prod.fst = ["id", "decided_at", "decided_by_user_id",
      "agent", "action", "outcome", "rationale"] := rfl
  rw [hkeys]
  decide

/-- Documents of contents that differ in the outcome only have the same text when
the outcomes agree up to the order of keys, and only then. -/
theorem canonicalJson_outcome_iff (content : ReceiptContent) (outcome : Json) :
    canonicalJson (receiptDocument { content with outcome }) =
        canonicalJson (receiptDocument content) ↔ sortKeys outcome = sortKeys content.outcome := by
  unfold canonicalJson
  rw [dumpsSorted_eq_iff]
  constructor
  · intro h
    have hkeys : ∀ a b c d e : Json, ([("schema", a), ("organization_id", b), ("decision", c),
        ("context", d), ("facts", e)].map Prod.fst).Nodup := by
      intro a b c d e
      simp only [List.map_cons, List.map_nil]
      decide
    have hdecision : sortKeys (.obj (decisionEntry { content with outcome })) =
        sortKeys (.obj (decisionEntry content)) :=
      sortKeys_field (hkeys _ _ _ _ _) h "decision" (by simp) (by simp)
    exact sortKeys_field (nodup_decisionEntry _) hdecision "outcome" (by simp [decisionEntry])
      (by simp [decisionEntry])
  · intro h
    simp only [receiptDocument, decisionEntry, contextEntry, sortKeys, sortFields, h]

theorem getDecision_addDecision {db : Database} {decision : Decision} (relied : List Uuid)
    (hfresh : ∀ d ∈ db.decisions, d.id ≠ decision.id) :
    getDecision (Database.addDecision db decision relied) decision.organizationId decision.id =
      some decision := by
  have hnone : db.decisions.find? (fun d => d.organizationId == decision.organizationId &&
      d.id == decision.id) = none := by
    rw [List.find?_eq_none]
    intro d hd hmatch
    simp only [Bool.and_eq_true, beq_iff_eq] at hmatch
    exact hfresh d hd hmatch.2
  show (db.decisions ++ [decision]).find? _ = some decision
  rw [List.find?_append, hnone, Option.none_or]
  simp

/-- A new decision relies on what was recorded with it and on nothing else. -/
theorem reliedOn_addDecision {db : Database} (hintact : Intact db) {decision : Decision}
    (relied : List Uuid) (hfresh : ∀ d ∈ db.decisions, d.id ≠ decision.id) :
    reliedOn (Database.addDecision db decision relied) decision.organizationId decision.id =
      relied := by
  have hnone : (db.decisionFacts.filter fun r =>
      r.organizationId == decision.organizationId && r.decisionId == decision.id) = [] := by
    rw [List.filter_eq_nil_iff]
    intro r hr hmatch
    simp only [Bool.and_eq_true, beq_iff_eq] at hmatch
    obtain ⟨d, hd, hdid⟩ := hintact.decisionOf r hr
    exact hfresh d hd (hdid.trans hmatch.2)
  unfold reliedOn Database.addDecision
  rw [List.filter_append, hnone, List.nil_append, List.filter_eq_self.mpr, List.map_map]
  · exact List.map_id relied
  · intro r hr
    obtain ⟨versionId, -, rfl⟩ := List.mem_map.mp hr
    simp

/-- The rows of a decision right after it was recorded. -/
theorem sealed_of_recordDecision {rt : Runtime} {ctx : TenantContext} {command : RecordDecision}
    {clock : Instant} {id : Uuid} {db db' : Database} {answer : Result DecisionReceipt}
    (hintact : Intact db) (h : recordDecision rt ctx command clock id db = .ok (db', answer)) :
    ∃ decision snapshot entries relied stored, Sealed db' decision snapshot entries relied ∧
      Intact db' ∧ decision.id = id ∧ decision.organizationId = ctx.organizationId ∧
      getSnapshot db ctx.organizationId command.snapshotId = some snapshot ∧
      Jsonb.store command.outcome.1 = some stored ∧ decision.outcome = stored ∧
      answer = receipt rt [(id, command.outcome.1)] ctx id db' ∧
      ∀ rows, rows.map sealedRow = entries → decision.receiptSha256 =
        receiptHash rt (contentOf rt decision command.outcome.1 snapshot rows relied) := by
  obtain ⟨snapshot, relied, agent, action, stored, rationale, hsnapshot, hstored, hfresh, rfl,
    hanswer⟩ := recordDecision_eq_ok h
  have heffect : Effect db clock _ := Effect.decided (sealedDecision rt ctx snapshot
    (snapshotRows db ctx.organizationId snapshot.id) relied agent action command.outcome.1
    stored rationale clock id) relied hfresh
  have hid := (getSnapshot_mem hsnapshot).2.2
  refine ⟨sealedDecision rt ctx snapshot (snapshotRows db ctx.organizationId snapshot.id) relied
    agent action command.outcome.1 stored rationale clock id, snapshot,
    (snapshotRows db ctx.organizationId snapshot.id).map sealedRow, relied, stored,
    ⟨?_, ?_, ?_, ?_⟩, hintact.effect heffect, rfl, rfl, hsnapshot, hstored, rfl, hanswer, ?_⟩
  · exact getDecision_addDecision relied hfresh
  · show getSnapshot db ctx.organizationId snapshot.id = some snapshot
    rw [hid]
    exact hsnapshot
  · rfl
  · exact reliedOn_addDecision hintact relied hfresh
  · intro rows hrows
    rw [contentOf_congr rt _ _ snapshot relied hrows]
    rfl

/-- A fresh session verifies the receipt, after any later calls, exactly when the
outcome survives the database. -/
theorem integrityVerified_iff {rt : Runtime} (hsha : Function.Injective rt.sha256) {db : Database}
    (hintact : Intact db) {ctx : TenantContext} {command : RecordDecision} {clock : Instant}
    {id : Uuid} {db' : Database} {answer : Result DecisionReceipt}
    (h : recordDecision rt ctx command clock id db = .ok (db', answer)) (later : List Call)
    {reader : TenantContext} (horg : reader.organizationId = ctx.organizationId)
    {role : MembershipRole}
    (hrole : requirePermission (performAll rt db' later) reader .readDecisions = .ok role) :
    ∃ r, receipt rt [] reader id (performAll rt db' later) = .ok r ∧
      (r.integrityVerified = true ↔ KeepsNumbers command.outcome.1) := by
  obtain ⟨decision, snapshot, entries, relied, stored, hsealed, hintact', rfl, hdecisionOrg, -,
    hstored, houtcome, -, hhash⟩ := sealed_of_recordDecision hintact h
  have hlater := hsealed.performAll rt hintact' later
  obtain ⟨r, hr, hverified, -⟩ :=
    hlater.receipt_eq_ok rt [] (horg.trans hdecisionOrg.symm) hrole
  refine ⟨r, hr, ?_⟩
  have hloaded : outcomeIn [] decision = Jsonb.load stored := by rw [← houtcome]; rfl
  rw [hverified, hloaded, beq_iff_eq, hhash _ hlater.entries,
    ← sortKeys_load_iff command.outcome.1 stored hstored command.outcome.2]
  unfold receiptHash
  rw [hsha.eq_iff]
  exact canonicalJson_outcome_iff
    (contentOf rt decision command.outcome.1 snapshot _ relied) (Jsonb.load stored)

/-- A stored receipt verifies exactly when no float of the outcome is a negative zero
or reaches `10 ^ 16`. -/
theorem receipt_verifies_iff (rt : Runtime) (hsha : Function.Injective rt.sha256) (db : Database)
    (hdb : (ledger rt).Reachable db) (ctx : TenantContext) (command : RecordDecision)
    (clock : Instant) (id : Uuid) (db' : Database) (answer : Result DecisionReceipt)
    (h : recordDecision rt ctx command clock id db = .ok (db', answer)) (later : List Call)
    (reader : TenantContext) (horg : reader.organizationId = ctx.organizationId)
    (role : MembershipRole)
    (hrole : requirePermission (performAll rt db' later) reader .readDecisions = .ok role) :
    ∃ r, receipt rt [] reader id (performAll rt db' later) = .ok r ∧
      (r.integrityVerified = true ↔ KeepsNumbers command.outcome.1) :=
  integrityVerified_iff hsha (reachable_intact hdb) h later horg hrole

def oneHalf : FloatText.Binary64 :=
  ⟨false, 2 ^ 52, -53, by decide, by decide, by decide, Or.inr (by decide)⟩

def exampleOutcome (newLimit : Json) (h : UniqueKeys newLimit) : Outcome :=
  ⟨.obj [("new_limit", newLimit)], by simp [UniqueKeys, UniqueFields, h]⟩

/-- The text that is hashed for the decision of the example. -/
def exampleDocument (newLimit : Json) : String :=
  canonicalJson (receiptDocument
    { organizationId := 1, decisionId := 60, snapshotId := 40, decidedAt := 50
      decidedByUserId := 2, agent := none, action := "raise_limit"
      outcome := .obj [("new_limit", newLimit)], rationale := none, query := "active customers"
      validAt := 30, knownAt := 30, embeddingModel := "hash-v1", vectorSearch := "unavailable"
      privacyScopes := ["PUBLIC", "INTERNAL", "CONFIDENTIAL"]
      facts :=
        [(12, 1, "b5bea41b6c623f7c09f1bf24dcae58ebab3c0cdd90ad966bc43a45b44867e12b")]
      reliedOn := [12] })

/-- The digests of the texts that the example hashes. -/
def exampleDigests : List (String × String) :=
  [("true", "b5bea41b6c623f7c09f1bf24dcae58ebab3c0cdd90ad966bc43a45b44867e12b"),
   (exampleDocument (.float (.finite oneHalf)),
     "7b57589905daf16f9e64307d50557d2433a68557f0c46babfd34193ba10b98c2"),
   (exampleDocument (.float (.finite (FloatText.tenToSixteen false))),
     "5ee63cafca40248baa3497881ad51129f38317d82cffa217181d0ec96710ab91"),
   (exampleDocument (.int (10 ^ 16)),
     "71c452cc6b95cce9e9bf2384a534a3eb9eb545f08daab64bcc45c8964ba6a6a2")]

def digestingRuntime : Runtime := ⟨fun _ => true, digesting exampleDigests⟩

def exampleRecorded (newLimit : FloatText.Binary64) : Result (Database × Result DecisionReceipt) :=
  recordDecision digestingRuntime exampleContext
    (exampleDecision (exampleOutcome (.float (.finite newLimit)) trivial)) 50 60
    (exampleLedger digestingRuntime none)

theorem exampleRecorded_accepted : ∀ newLimit ∈ [oneHalf, FloatText.tenToSixteen false],
    (exampleRecorded newLimit).toOption.any (fun recorded =>
      decide ((requirePermission recorded.1 exampleContext .readDecisions).toOption =
        some .engineer)) = true := by
  decide +kernel

theorem exampleRecorded_eq_ok {newLimit : FloatText.Binary64}
    (h : newLimit ∈ [oneHalf, FloatText.tenToSixteen false]) :
    ∃ db' answer, exampleRecorded newLimit = .ok (db', answer) ∧
      requirePermission db' exampleContext .readDecisions = .ok .engineer := by
  obtain ⟨⟨db', answer⟩, hrecorded, hrole⟩ :=
    (Option.any_eq_true _ _).mp (exampleRecorded_accepted newLimit h)
  exact ⟨db', answer, eq_ok_of_toOption hrecorded, eq_ok_of_toOption (of_decide_eq_true hrole)⟩

theorem receipt_verifies_iff_example :
    ∃ db' answer r, exampleRecorded oneHalf = .ok (db', answer) ∧
      receipt digestingRuntime [] exampleContext 60 db' = .ok r ∧
      r.integrityVerified = true := by
  obtain ⟨db', answer, hrecorded, hrole⟩ := exampleRecorded_eq_ok List.mem_cons_self
  obtain ⟨r, hr, hiff⟩ := receipt_verifies_iff digestingRuntime (digesting exampleDigests).injective
    (exampleLedger digestingRuntime none) (exampleLedger_reachable _ _) exampleContext _ 50 60 db'
    answer hrecorded [] exampleContext rfl .engineer hrole
  refine ⟨db', answer, r, hrecorded, hr, hiff.mpr ⟨⟨?_, by simp [oneHalf]⟩, trivial⟩⟩
  norm_num [FloatText.magnitude, oneHalf]

/-- At a limit of `1e16` the receipt of an accepted decision does not verify. -/
theorem receipt_fails_to_verify :
    ¬ ∀ (rt : Runtime) (db : Database) (ctx : TenantContext) (command : RecordDecision)
      (clock : Instant) (id : Uuid) (db' : Database) (answer : Result DecisionReceipt),
      Function.Injective rt.sha256 → (ledger rt).Reachable db →
      recordDecision rt ctx command clock id db = .ok (db', answer) →
      ∃ r, receipt rt [] ctx id db' = .ok r ∧ r.integrityVerified = true := by
  intro h
  obtain ⟨db', answer, hrecorded, hrole⟩ :=
    exampleRecorded_eq_ok (List.mem_cons_of_mem oneHalf (List.mem_singleton.mpr rfl))
  have hsha : Function.Injective digestingRuntime.sha256 := (digesting exampleDigests).injective
  have hdb := exampleLedger_reachable digestingRuntime none
  obtain ⟨r, hr, hverified⟩ := h digestingRuntime _ exampleContext _ 50 60 db' answer hsha hdb
    hrecorded
  obtain ⟨r', hr', hiff⟩ := integrityVerified_iff hsha (reachable_intact hdb) hrecorded [] rfl hrole
  have hsame : receipt digestingRuntime [] exampleContext 60 db' = .ok r' := hr'
  obtain rfl := Except.ok.inj (hr.symm.trans hsame)
  obtain ⟨⟨hlt, -⟩, -⟩ := hiff.mp hverified
  rw [FloatText.magnitude_tenToSixteen] at hlt
  exact lt_irrefl _ hlt

end ContextLedger.Receipts
