import ContextLedger.Knowledge
import ContextLedger.Recording

/-!
Time travel as replay. A serial run of record and revoke operations ends in a
state from which every earlier state can be recovered: what is known at K there
is what the operations stamped at or before K, run alone, leave behind.
-/
namespace ContextLedger.Replay

open Values Authorization Schema Facts VersionChain VersionTable Recording Reference TemporalEngine
open Revocations Knowledge

inductive Operation where
  | record (ctx : TenantContext) (command : RecordFactVersion) (clock : Instant) (ids : FreshIds)
  | revoke (ctx : TenantContext) (factId : Uuid) (versionId : Option Uuid) (reason : String)
      (clock : Instant) (id : Uuid)

/-- The transaction time of an accepted operation, and the state it leaves. -/
def execute (rt : Runtime) (db : Database) : Operation → Result (Instant × Database)
  | .record ctx command clock ids =>
    (recordVersion rt ctx command clock ids db).map fun r => (r.1.recordedAt, r.2)
  | .revoke ctx factId versionId reason clock id =>
    (revoke ctx factId versionId reason clock id db).map fun r => (r.1.revokedAt, r.2)

/-- A rejected operation is rolled back. -/
def replay (rt : Runtime) : Database → List Operation → Database
  | db, [] => db
  | db, op :: ops =>
    match execute rt db op with
    | .error _ => replay rt db ops
    | .ok (_, db') => replay rt db' ops

/-- The operations of a run with their transaction times; none for a rejected one. -/
def timed (rt : Runtime) : Database → List Operation → List (Operation × Option Instant)
  | _, [] => []
  | db, op :: ops =>
    match execute rt db op with
    | .error _ => (op, none) :: timed rt db ops
    | .ok (t, db') => (op, some t) :: timed rt db' ops

def transactionTimes (rt : Runtime) (db : Database) (ops : List Operation) : List Instant :=
  (timed rt db ops).filterMap Prod.snd

/-- The operations stamped at or before `k`. -/
def knownOperations (rt : Runtime) (db : Database) (ops : List Operation) (k : Instant) :
    List Operation :=
  ((timed rt db ops).filter fun entry => entry.2.any fun t => decide (t ≤ k)).map Prod.fst

/-- A database before any fact was recorded. -/
structure Initial (db : Database) : Prop where
  facts : db.facts = []
  versions : db.versions = []
  revocations : db.revocations = []

theorem Initial.sound {db : Database} (h : Initial db) : Sound db := by
  have hnone (org factId : Uuid) : versionsOf db org factId = [] := by
    simp [versionsOf, h.versions]
  refine ⟨by simp [h.facts], by simp [h.versions], by simp [h.versions], by simp [h.versions], ?_⟩
  intro org factId
  rw [hnone]
  exact ⟨chain_nil, by simp⟩

theorem Initial.learnedBy {db : Database} (h : Initial db) (k : Instant) : LearnedBy db k :=
  ⟨by simp [h.versions], by simp [h.versions], by simp [h.revocations]⟩

/-- What an accepted operation does: it appends a version or adds a revocation. -/
theorem execute_eq_ok {rt : Runtime} {db db' : Database} {op : Operation} {t : Instant}
    (hsound : Sound db) (h : execute rt db op = .ok (t, db')) :
    (∃ write, Appends db write ∧ t = write.version.recordedAt ∧ db' = write.apply db) ∨
      ∃ write : RevokeWrite, t = write.revocation.revokedAt ∧ db' = write.apply db := by
  cases op with
  | record ctx command clock ids =>
    unfold execute at h
    obtain ⟨⟨v, db''⟩, hrecord, hpair⟩ := map_eq_ok.mp h
    obtain ⟨rfl, rfl⟩ := Prod.mk.inj hpair
    obtain ⟨write, happ, rfl, rfl, -⟩ := recordVersion_eq_ok hsound hrecord
    exact Or.inl ⟨write, happ, rfl, rfl⟩
  | revoke ctx factId versionId reason clock id =>
    unfold execute at h
    obtain ⟨⟨r, db''⟩, hrevoke, hpair⟩ := map_eq_ok.mp h
    obtain ⟨rfl, rfl⟩ := Prod.mk.inj hpair
    unfold revoke at hrevoke
    obtain ⟨request, -, hrevoke⟩ := bind_eq_ok.mp hrevoke
    obtain ⟨role, -, hrevoke⟩ := bind_eq_ok.mp hrevoke
    obtain ⟨write, -, hrevoke⟩ := bind_eq_ok.mp hrevoke
    obtain ⟨rfl, rfl⟩ := Prod.mk.inj (Except.ok.inj hrevoke)
    exact Or.inr ⟨write, rfl, rfl⟩

theorem sound_execute {rt : Runtime} {db db' : Database} {op : Operation} {t : Instant}
    (hsound : Sound db) (h : execute rt db op = .ok (t, db')) : Sound db' := by
  rcases execute_eq_ok hsound h with ⟨write, happ, -, rfl⟩ | ⟨write, -, rfl⟩
  · exact hsound.apply happ
  · exact Sound.revoke hsound write

/-- A version that is stamped by `k`, and the end it sets, are learned by `k`. -/
theorem learnedBy_apply {db : Database} {k : Instant} (h : LearnedBy db k) {write : VersionWrite}
    (happ : Appends db write) (hk : write.version.recordedAt ≤ k) :
    LearnedBy (write.apply db) k := by
  refine ⟨?_, ?_, ?_⟩
  · intro v hv
    rw [apply_versions, List.mem_append] at hv
    rcases hv with hv | hv
    · obtain ⟨w, hw, rfl⟩ := List.mem_map.mp hv
      have hrecorded : (touched write w).recordedAt = w.recordedAt := by
        rcases touched_cases write w with heq | ⟨-, c, -, -, heq⟩
        · rw [heq]
        · rw [heq]
          rfl
      rw [hrecorded]
      exact h.recorded w hw
    · obtain rfl : v = write.version := by simpa using hv
      exact hk
  · intro v hv e he
    rw [apply_versions, List.mem_append] at hv
    rcases hv with hv | hv
    · obtain ⟨w, hw, rfl⟩ := List.mem_map.mp hv
      rcases touched_cases write w with heq | ⟨-, c, -, -, heq⟩
      · rw [heq] at he
        exact h.ended w hw e he
      · rw [heq] at he
        obtain rfl : write.version.recordedAt = e := Option.some.inj he
        exact hk
    · obtain rfl : v = write.version := by simpa using hv
      rw [happ.ownEnd, Option.map_eq_some_iff] at he
      obtain ⟨u, -, rfl⟩ := he
      exact hk
  · intro r hr
    rw [apply_revocations] at hr
    exact h.revoked r hr

theorem learnedBy_execute {rt : Runtime} {db db' : Database} {op : Operation} {t k : Instant}
    (hsound : Sound db) (hlearned : LearnedBy db k) (h : execute rt db op = .ok (t, db'))
    (hk : t ≤ k) : LearnedBy db' k := by
  rcases execute_eq_ok hsound h with ⟨write, happ, rfl, rfl⟩ | ⟨write, rfl, rfl⟩
  · exact learnedBy_apply hlearned happ hk
  · refine ⟨hlearned.recorded, hlearned.ended, ?_⟩
    intro r hr
    rcases List.mem_append.mp hr with hr | hr
    · exact hlearned.revoked r hr
    · obtain rfl : r = write.revocation := by simpa using hr
      exact hk

/-- Two states show the same to every question about K. -/
structure SameAt (k : Instant) (db db' : Database) : Prop where
  history : ∀ org factId,
    knownHistory db' org factId (some k) = knownHistory db org factId (some k)
  answers : ∀ org factId t,
    matchesAt (unrevokedSnapshots db' org factId (some k)) t (some k) =
      matchesAt (unrevokedSnapshots db org factId (some k)) t (some k)

theorem sameAt_execute {rt : Runtime} {db db' : Database} {op : Operation} {t k : Instant}
    (hsound : Sound db) (h : execute rt db op = .ok (t, db')) (hk : k < t) : SameAt k db db' := by
  rcases execute_eq_ok hsound h with ⟨write, happ, rfl, rfl⟩ | ⟨write, rfl, rfl⟩
  · exact ⟨fun org factId => knownHistory_apply hsound happ hk org factId,
      fun org factId t => matchesAt_apply hsound happ hk org factId t⟩
  · refine ⟨fun org factId => rfl, ?_⟩
    intro org factId t
    rw [unrevokedSnapshots_revoke db write hk]

/-- Operations stamped after K leave what is known at K. -/
theorem sameAt_replay {rt : Runtime} {k : Instant} (ops : List Operation) {db : Database}
    (hsound : Sound db) (hlater : ∀ t ∈ transactionTimes rt db ops, k < t) :
    SameAt k db (replay rt db ops) := by
  induction ops generalizing db with
  | nil => exact ⟨fun _ _ => rfl, fun _ _ _ => rfl⟩
  | cons op ops ih =>
    cases hop : execute rt db op with
    | error failure =>
      simp only [transactionTimes, timed, hop, List.filterMap_cons_none] at hlater
      simp only [replay, hop]
      exact ih hsound hlater
    | ok result =>
      obtain ⟨t, db'⟩ := result
      simp only [transactionTimes, timed, hop, List.filterMap_cons, List.mem_cons,
        forall_eq_or_imp] at hlater
      simp only [replay, hop]
      have hfirst := sameAt_execute hsound hop hlater.1
      have hrest := ih (sound_execute hsound hop) hlater.2
      exact ⟨fun org factId => (hrest.history org factId).trans (hfirst.history org factId),
        fun org factId t => (hrest.answers org factId t).trans (hfirst.answers org factId t)⟩

theorem sound_replay (rt : Runtime) (ops : List Operation) {db : Database} (hsound : Sound db) :
    Sound (replay rt db ops) := by
  induction ops generalizing db with
  | nil => exact hsound
  | cons op ops ih =>
    cases hop : execute rt db op with
    | error failure =>
      simp only [replay, hop]
      exact ih hsound
    | ok result =>
      obtain ⟨t, db'⟩ := result
      simp only [replay, hop]
      exact ih (sound_execute hsound hop)

/-- The state that the operations stamped by K leave, from which the run's final
state differs only in what was learned later. -/
theorem sameAt_knownOperations {rt : Runtime} {k : Instant} (ops : List Operation) {db : Database}
    (hsound : Sound db) (hlearned : LearnedBy db k)
    (hincreasing : (transactionTimes rt db ops).Pairwise (· < ·)) :
    LearnedBy (replay rt db (knownOperations rt db ops k)) k ∧
      SameAt k (replay rt db (knownOperations rt db ops k)) (replay rt db ops) := by
  induction ops generalizing db with
  | nil => exact ⟨hlearned, fun _ _ => rfl, fun _ _ _ => rfl⟩
  | cons op ops ih =>
    cases hop : execute rt db op with
    | error failure =>
      have hknown : knownOperations rt db (op :: ops) k = knownOperations rt db ops k := by
        simp [knownOperations, timed, hop]
      simp only [transactionTimes, timed, hop, List.filterMap_cons_none] at hincreasing
      rw [hknown]
      simp only [replay, hop]
      exact ih hsound hlearned hincreasing
    | ok result =>
      obtain ⟨t, db'⟩ := result
      simp only [transactionTimes, timed, hop, List.filterMap_cons, List.pairwise_cons]
        at hincreasing
      have hfinal : replay rt db (op :: ops) = replay rt db' ops := by simp [replay, hop]
      rw [hfinal]
      by_cases ht : t ≤ k
      · have hknown : knownOperations rt db (op :: ops) k =
            op :: knownOperations rt db' ops k := by
          simp [knownOperations, timed, hop, ht]
        have hpast : replay rt db (op :: knownOperations rt db' ops k) =
            replay rt db' (knownOperations rt db' ops k) := by simp [replay, hop]
        rw [hknown, hpast]
        exact ih (sound_execute hsound hop) (learnedBy_execute hsound hlearned hop ht) hincreasing.2
      · have hkt : k < t := not_le.mp ht
        have hlater : ∀ s ∈ transactionTimes rt db' ops, k < s :=
          fun s hs => lt_trans hkt (hincreasing.1 s hs)
        have hnone : knownOperations rt db' ops k = [] := by
          simp only [knownOperations, List.map_eq_nil_iff, List.filter_eq_nil_iff]
          intro entry hentry
          cases hs : entry.2 with
          | none => simp
          | some s =>
            have hmem : s ∈ transactionTimes rt db' ops :=
              List.mem_filterMap.mpr ⟨entry, hentry, hs⟩
            simp [not_le.mpr (hlater s hmem)]
        have hknown : knownOperations rt db (op :: ops) k = [] := by
          have hdrop : knownOperations rt db (op :: ops) k = knownOperations rt db' ops k := by
            simp [knownOperations, timed, hop, ht]
          rw [hdrop, hnone]
        rw [hknown]
        have hfirst := sameAt_execute hsound hop hkt
        have hrest := sameAt_replay ops (sound_execute hsound hop) hlater
        refine ⟨hlearned, ?_, ?_⟩
        · exact fun org factId => (hrest.history org factId).trans (hfirst.history org factId)
        · exact fun org factId t => (hrest.answers org factId t).trans (hfirst.answers org factId t)

/-- What is resolved and listed as known at K on the final state is what the
operations stamped by K, run alone, leave behind. -/
theorem time_travel_eq_replay (rt : Runtime) (db : Database) (ops : List Operation)
    (hinitial : Initial db) (hincreasing : (transactionTimes rt db ops).Pairwise (· < ·))
    (k t : Instant) (org factId : Uuid) :
    resolve (unrevokedSnapshots (replay rt db ops) org factId (some k)) t (some k) =
        resolve (unrevokedSnapshots (replay rt db (knownOperations rt db ops k)) org factId none)
          t none ∧
      historyAsKnown ((versionsOf (replay rt db ops) org factId).map toSnapshot) (some k) =
        (versionsOf (replay rt db (knownOperations rt db ops k)) org factId).map toSnapshot := by
  have hsound := hinitial.sound
  obtain ⟨hlearned, hsame⟩ :=
    sameAt_knownOperations ops hsound (hinitial.learnedBy k) hincreasing
  have hfinal := sound_replay rt ops hsound
  have hpast := sound_replay rt (knownOperations rt db ops k) hsound
  constructor
  · rw [resolve_ordered (unrevokedSnapshots_ordered hfinal org factId (some k)),
      resolve_ordered (unrevokedSnapshots_ordered hpast org factId none),
      hsame.answers org factId t, hlearned.matchesAt_eq hpast]
  · exact (hsame.history org factId).trans (hlearned.knownHistory_eq hpast org factId)

/-- Two versions of one fact, and the revocation of the second. -/
def exampleOperations : List Operation :=
  [.record exampleContext (exampleCommand true 0) 10 ⟨10, 11, 12⟩,
   .record exampleContext (exampleCommand false 5) 20 ⟨20, 21, 22⟩,
   .revoke exampleContext 11 none "wrong customer" 30 31]

theorem time_travel_eq_replay_example :
    transactionTimes exampleRuntime exampleDatabase exampleOperations = [10, 20, 30] ∧
      resolve (unrevokedSnapshots (replay exampleRuntime exampleDatabase exampleOperations) 1 11
          (some 25)) 7 (some 25) =
        resolve (unrevokedSnapshots (replay exampleRuntime exampleDatabase
          (knownOperations exampleRuntime exampleDatabase exampleOperations 25)) 1 11 none) 7 none := by
  have htimes : transactionTimes exampleRuntime exampleDatabase exampleOperations = [10, 20, 30] := by
    decide +kernel
  have hincreasing :
      (transactionTimes exampleRuntime exampleDatabase exampleOperations).Pairwise (· < ·) := by
    rw [htimes]
    decide
  exact ⟨htimes, (time_travel_eq_replay exampleRuntime exampleDatabase exampleOperations
    ⟨rfl, rfl, rfl⟩ hincreasing 25 7 1 11).1⟩

end ContextLedger.Replay
