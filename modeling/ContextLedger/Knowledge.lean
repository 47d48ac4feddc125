import ContextLedger.Revocations

/-!
What was known at K. A write that is stamped after K, whether it appends a
version, closes the previous one or revokes, changes no row as it is known at
K; and when everything was learned by K, being known at K hides nothing.
-/
namespace ContextLedger.Knowledge

open Values Schema Facts Bitemporal VersionChain VersionTable Reference TemporalEngine Revocations

/-- The histories of a fact as known at K, which all answers about K are made from. -/
def knownHistory (db : Database) (org factId : Uuid) (k : Option Instant) :
    List VersionSnapshot :=
  historyAsKnown ((versionsOf db org factId).map toSnapshot) k

theorem knownHistory_eq {db : Database} (h : Sound db) (org factId : Uuid) (k : Option Instant) :
    knownHistory db org factId k =
      ((versionsOf db org factId).filter fun v => isKnown k (toSnapshot v)).map
        fun v => asKnown k (toSnapshot v) := by
  rw [knownHistory, historyAsKnown_ordered (ordered_of_chain (h.histories org factId).toChain),
    List.filter_map, List.map_map]
  rfl

/-- An end learned after K is hidden, so closing after K shows the open version. -/
theorem asKnown_touched {db : Database} (h : Sound db) {write : VersionWrite} {k : Instant}
    (hk : k < write.version.recordedAt) {v : FactVersion} (hv : v ∈ db.versions) :
    asKnown (some k) (toSnapshot (touched write v)) = asKnown (some k) (toSnapshot v) := by
  rcases touched_cases write v with htouched | ⟨hopen, c, -, -, htouched⟩
  · rw [htouched]
  · have hend : v.validUntilRecordedAt = none :=
      ((h.histories v.organizationId v.factId).wellFormed v (h.mem_own hv)).together.mp hopen
    rw [htouched]
    simp [asKnown, toSnapshot, FactVersion.close, hopen, hend, not_le.mpr hk]

theorem isKnown_touched (write : VersionWrite) (k : Option Instant) (v : FactVersion) :
    isKnown k (toSnapshot (touched write v)) = isKnown k (toSnapshot v) := by
  rcases touched_cases write v with htouched | ⟨-, c, -, -, htouched⟩
  · rw [htouched]
  · rw [htouched]
    rfl

theorem notRevoked_touched (db : Database) (write : VersionWrite) (k : Option Instant)
    (v : FactVersion) : notRevoked db k (touched write v) = notRevoked db k v := by
  simp only [notRevoked, touched_organizationId, touched_id]

@[simp] theorem apply_revocations (write : VersionWrite) (db : Database) :
    (write.apply db).revocations = db.revocations := by
  show (write.withClose (write.withPlace db)).revocations = db.revocations
  unfold VersionWrite.withClose VersionWrite.withPlace
  cases write.entity <;> cases write.fact <;> cases write.closing <;> rfl

theorem notRevoked_apply (db : Database) (write : VersionWrite) (k : Option Instant)
    (v : FactVersion) : notRevoked (write.apply db) k v = notRevoked db k v := by
  simp only [notRevoked, apply_revocations]

/-- Rows selected by what was known at K, shown as known at K, survive a later write. -/
private theorem map_filter_apply {db : Database} (h : Sound db) {write : VersionWrite} {k : Instant}
    (hk : k < write.version.recordedAt) (org factId : Uuid) (p q : FactVersion → Bool)
    (hp : ∀ v ∈ db.versions, p (touched write v) = q v)
    (hknown : p write.version = true → isKnown (some k) (toSnapshot write.version) = true) :
    ((versionsOf (write.apply db) org factId).filter p).map
        (fun v => asKnown (some k) (toSnapshot v)) =
      ((versionsOf db org factId).filter q).map fun v => asKnown (some k) (toSnapshot v) := by
  have hnew : p write.version = false := by
    cases hpw : p write.version with
    | false => rfl
    | true =>
      have hle : write.version.recordedAt ≤ k := of_decide_eq_true (hknown hpw)
      exact absurd hle (not_le.mpr hk)
  have hlast : (if write.version.organizationId = org ∧ write.version.factId = factId
      then [write.version] else []).filter p = [] := by
    split
    · simp [hnew]
    · rfl
  rw [versionsOf_apply, List.filter_append, hlast, List.append_nil, List.filter_map, List.map_map]
  have hfilter : (versionsOf db org factId).filter (p ∘ touched write) =
      (versionsOf db org factId).filter q := by
    apply List.filter_congr
    intro v hv
    exact hp v (mem_versionsOf.mp hv).1
  rw [hfilter]
  apply List.map_congr_left
  intro v hv
  exact asKnown_touched h hk (mem_versionsOf.mp (List.mem_of_mem_filter hv)).1

theorem knownHistory_apply {db : Database} (h : Sound db) {write : VersionWrite}
    (happ : Appends db write) {k : Instant} (hk : k < write.version.recordedAt)
    (org factId : Uuid) :
    knownHistory (write.apply db) org factId (some k) = knownHistory db org factId (some k) := by
  rw [knownHistory_eq (h.apply happ), knownHistory_eq h]
  exact map_filter_apply h hk org factId _ _ (fun v _ => isKnown_touched write (some k) v)
    fun hw => hw

/-- The matches at T and K, row by row. -/
theorem matchesAt_unrevoked_eq {db : Database} (h : Sound db) (org factId : Uuid) (t : Instant)
    (k : Option Instant) : matchesAt (unrevokedSnapshots db org factId k) t k =
      ((versionsOf db org factId).filter fun v => isKnown k (toSnapshot v) &&
        (isValidAt t (asKnown k (toSnapshot v)) && notRevoked db k v)).map
        fun v => asKnown k (toSnapshot v) := by
  rw [matchesAt_ordered (unrevokedSnapshots_ordered h org factId k), unrevokedSnapshots,
    List.filter_map, List.map_map, List.filter_filter]
  congr 1
  apply List.filter_congr
  intro v _
  simp only [Function.comp_apply, Bool.and_assoc]

theorem matchesAt_apply {db : Database} (h : Sound db) {write : VersionWrite}
    (happ : Appends db write) {k : Instant} (hk : k < write.version.recordedAt)
    (org factId : Uuid) (t : Instant) :
    matchesAt (unrevokedSnapshots (write.apply db) org factId (some k)) t (some k) =
      matchesAt (unrevokedSnapshots db org factId (some k)) t (some k) := by
  rw [matchesAt_unrevoked_eq (h.apply happ), matchesAt_unrevoked_eq h]
  refine map_filter_apply h hk org factId _ _ ?_ ?_
  · intro v hv
    simp only [isKnown_touched, asKnown_touched h hk hv, notRevoked_touched, notRevoked_apply]
  · intro hw
    exact (Bool.and_eq_true _ _ ▸ hw).1

/-- A revocation begun after K does not count at K. -/
theorem notRevoked_revoke (db : Database) (write : RevokeWrite) {k : Instant}
    (hk : k < write.revocation.revokedAt) (v : FactVersion) :
    notRevoked (write.apply db) (some k) v = notRevoked db (some k) v := by
  simp [notRevoked, RevokeWrite.apply, Database.addRevocation, not_le.mpr hk]

theorem versionsOf_revoke (db : Database) (write : RevokeWrite) (org factId : Uuid) :
    versionsOf (write.apply db) org factId = versionsOf db org factId := rfl

theorem unrevokedSnapshots_revoke (db : Database) (write : RevokeWrite) {k : Instant}
    (hk : k < write.revocation.revokedAt) (org factId : Uuid) :
    unrevokedSnapshots (write.apply db) org factId (some k) =
      unrevokedSnapshots db org factId (some k) := by
  unfold unrevokedSnapshots
  rw [versionsOf_revoke]
  congr 1
  apply List.filter_congr
  intro v _
  exact notRevoked_revoke db write hk v

theorem Sound.revoke {db : Database} (h : Sound db) (write : RevokeWrite) :
    Sound (write.apply db) := ⟨h.factIds, h.versionIds, h.factOf, h.rowsChecked, h.histories⟩

/-- Every transaction time in the tables lies at or before `k`. -/
structure LearnedBy (db : Database) (k : Instant) : Prop where
  recorded : ∀ v ∈ db.versions, v.recordedAt ≤ k
  ended : ∀ v ∈ db.versions, ∀ e, v.validUntilRecordedAt = some e → e ≤ k
  revoked : ∀ r ∈ db.revocations, r.revokedAt ≤ k

theorem LearnedBy.asKnown_eq {db : Database} {k : Instant} (h : LearnedBy db k) {v : FactVersion}
    (hv : v ∈ db.versions) : asKnown (some k) (toSnapshot v) = toSnapshot v := by
  cases he : v.validUntilRecordedAt with
  | none => simp [asKnown, toSnapshot, he]
  | some e => simp [asKnown, toSnapshot, he, h.ended v hv e he]

theorem LearnedBy.isKnown_eq {db : Database} {k : Instant} (h : LearnedBy db k) {v : FactVersion}
    (hv : v ∈ db.versions) : isKnown (some k) (toSnapshot v) = true :=
  decide_eq_true (h.recorded v hv)

theorem LearnedBy.notRevoked_eq {db : Database} {k : Instant} (h : LearnedBy db k)
    (v : FactVersion) : notRevoked db (some k) v = notRevoked db none v := by
  unfold notRevoked
  congr 1
  rw [Bool.eq_iff_iff, List.any_eq_true, List.any_eq_true]
  refine exists_congr fun r => and_congr_right fun hr => ?_
  simp [h.revoked r hr]

theorem LearnedBy.knownHistory_eq {db : Database} {k : Instant} (h : LearnedBy db k)
    (hsound : Sound db) (org factId : Uuid) :
    knownHistory db org factId (some k) = (versionsOf db org factId).map toSnapshot := by
  have hall : (versionsOf db org factId).filter (fun v => isKnown (some k) (toSnapshot v)) =
      versionsOf db org factId := by
    rw [List.filter_eq_self]
    intro v hv
    exact h.isKnown_eq (mem_versionsOf.mp hv).1
  rw [Knowledge.knownHistory_eq hsound, hall]
  apply List.map_congr_left
  intro v hv
  exact h.asKnown_eq (mem_versionsOf.mp hv).1

theorem LearnedBy.matchesAt_eq {db : Database} {k : Instant} (h : LearnedBy db k)
    (hsound : Sound db) (org factId : Uuid) (t : Instant) :
    matchesAt (unrevokedSnapshots db org factId (some k)) t (some k) =
      matchesAt (unrevokedSnapshots db org factId none) t none := by
  rw [matchesAt_unrevoked_eq hsound, matchesAt_unrevoked_eq hsound]
  have hfilter : (versionsOf db org factId).filter (fun v => isKnown (some k) (toSnapshot v) &&
      (isValidAt t (asKnown (some k) (toSnapshot v)) && notRevoked db (some k) v)) =
      (versionsOf db org factId).filter (fun v => isKnown none (toSnapshot v) &&
        (isValidAt t (asKnown none (toSnapshot v)) && notRevoked db none v)) := by
    apply List.filter_congr
    intro v hv
    have hmem := (mem_versionsOf.mp hv).1
    rw [h.isKnown_eq hmem, h.asKnown_eq hmem, h.notRevoked_eq v]
    rfl
  rw [hfilter]
  apply List.map_congr_left
  intro v hv
  exact h.asKnown_eq (mem_versionsOf.mp (List.mem_of_mem_filter hv)).1

end ContextLedger.Knowledge
