import ContextLedger.PeriodChanges
import ContextLedger.Rankings
import ContextLedger.ServiceReads

/-!
Whether the changes of a period agree with the facts at its two ends. Both come
from the same versions as known at K, but the facts at an instant leave out a
version whose revocation was known by then, and the changes do not. The two
agree on a fact exactly when each of its versions that is revoked as known at K
is valid at both ends of the period or at neither.
-/
namespace ContextLedger.PeriodAgreement

open Values Validation Authorization Schema Facts Bitemporal VersionChain VersionTable Reference
open TemporalEngine Knowledge Concurrent Isolation ServiceReads PeriodChanges
open scoped List

/-- What the facts at an instant have for one fact. -/
def shownFor (facts : List ResolvedFact) (factId : Uuid) : Option VersionSnapshot :=
  (facts.find? fun f => f.factId == factId).map ResolvedFact.version

/-- The changes of a period say what the facts at its ends say. -/
structure Agree (changes : List FactChange) (atStart atEnd : List ResolvedFact) (factId : Uuid) :
    Prop where
  reported : ∀ c ∈ changes, c.factId = factId →
    c.change.before = shownFor atStart factId ∧ c.change.after = shownFor atEnd factId
  unreported : (∀ c ∈ changes, c.factId ≠ factId) →
    shownFor atStart factId = shownFor atEnd factId

/-- The version contains T as it looked at K. -/
def believes (k : Option Instant) (t : Instant) (v : FactVersion) : Bool :=
  isKnown k (toSnapshot v) && isValidAt t (asKnown k (toSnapshot v))

/-- Each version that is revoked as known at K is valid at both ends or at neither. -/
def RevokedThroughout (db : Database) (org factId : Uuid) (start finish : Instant)
    (k : Option Instant) : Prop :=
  ∀ v ∈ versionsOf db org factId, notRevoked db k v = false →
    believes k start v = believes k finish v

def believedAt (db : Database) (org factId : Uuid) (k : Option Instant) (t : Instant) :
    Option FactVersion :=
  ((versionsOf db org factId).filter (believes k t)).head?

/-- The change of a fact, from its history as known. -/
def periodChange (known : List VersionSnapshot) (start finish : Instant) : Option Change :=
  if (valueAt known start).map VersionSnapshot.id = (valueAt known finish).map VersionSnapshot.id ∧
      startingIn known start finish = [] then none
  else some ⟨valueAt known start, valueAt known finish, startingIn known start finish⟩

section Facts

variable {db : Database} (hsound : Sound db) (org factId : Uuid) (k : Option Instant) (t : Instant)

include hsound

theorem matchesAt_eq_believed : matchesAt ((versionsOf db org factId).map toSnapshot) t k =
    ((versionsOf db org factId).filter (believes k t)).map fun v => asKnown k (toSnapshot v) := by
  rw [matchesAt_ordered (ordered_of_chain (hsound.histories org factId).toChain), List.filter_map,
    List.map_map]
  rfl

theorem length_believed_le_one :
    ((versionsOf db org factId).filter (believes k t)).length ≤ 1 := by
  have hone := length_matchesAt_le_one
    (ordered_of_chain (hsound.histories org factId).toChain) t k
  rwa [matchesAt_eq_believed hsound, List.length_map] at hone

theorem believedAt_eq_some {v : FactVersion} : believedAt db org factId k t = some v ↔
    v ∈ versionsOf db org factId ∧ believes k t v = true := by
  rw [← List.mem_filter, believedAt]
  have hone := length_believed_le_one hsound org factId k t
  cases hfound : (versionsOf db org factId).filter (believes k t) with
  | nil => simp
  | cons u rest =>
    rw [hfound] at hone
    have hrest : rest = [] := List.eq_nil_of_length_eq_zero (by simpa using hone)
    simp [hrest, eq_comm]

theorem valueAt_knownHistory : valueAt (knownHistory db org factId k) t =
    (believedAt db org factId k t).map fun v => asKnown k (toSnapshot v) := by
  have hmatches := matchesAt_eq_believed hsound org factId k t
  rw [matchesAt] at hmatches
  rw [valueAt, knownHistory, hmatches, List.head?_map, believedAt]

/-- The facts at an instant leave out what is revoked as known at K. -/
theorem head?_unrevoked : (matchesAt (unrevokedSnapshots db org factId k) t k).head? =
    ((believedAt db org factId k t).filter (notRevoked db k)).map
      fun v => asKnown k (toSnapshot v) := by
  have hone := length_believed_le_one hsound org factId k t
  have hfilter : (versionsOf db org factId).filter (fun v => isKnown k (toSnapshot v) &&
      (isValidAt t (asKnown k (toSnapshot v)) && notRevoked db k v)) =
        ((versionsOf db org factId).filter (believes k t)).filter (notRevoked db k) := by
    rw [List.filter_filter]
    apply List.filter_congr
    intro v _
    simp only [believes, Bool.and_assoc, Bool.and_comm]
  rw [matchesAt_unrevoked_eq hsound, hfilter, List.head?_map, believedAt]
  congr 1
  cases hfound : (versionsOf db org factId).filter (believes k t) with
  | nil => rfl
  | cons u rest =>
    rw [hfound] at hone
    have hrest : rest = [] := List.eq_nil_of_length_eq_zero (by simpa using hone)
    rw [hrest]
    cases hrevoked : notRevoked db k u with
    | false => simp [Option.filter, hrevoked]
    | true => simp [Option.filter, hrevoked]

theorem timeline_knownHistory : Timeline (knownHistory db org factId k) := by
  obtain ⟨hids, hwell⟩ := snapshots_wellFormed hsound org factId
  exact timeline_historyAsKnown (ordered_of_chain (hsound.histories org factId).toChain) hids
    hwell k

/-- A version valid at both ends leaves nothing to report. -/
theorem periodChange_of_same {start finish : Instant} (hlt : start < finish) {v : FactVersion}
    (hstart : believedAt db org factId k start = some v)
    (hfinish : believedAt db org factId k finish = some v) :
    periodChange (knownHistory db org factId k) start finish = none := by
  have htimeline := timeline_knownHistory hsound org factId k
  have hvalue (t : Instant) (h : believedAt db org factId k t = some v) :
      valueAt (knownHistory db org factId k) t = some (asKnown k (toSnapshot v)) := by
    rw [valueAt_knownHistory hsound, h, Option.map_some]
  obtain ⟨hmem, hvalid⟩ := (valueAt_eq_some htimeline).mp (hvalue start hstart)
  obtain ⟨-, hvalid'⟩ := (valueAt_eq_some htimeline).mp (hvalue finish hfinish)
  refine if_pos ((constant_iff htimeline hlt).mpr fun t hle hle' => ?_)
  have hbetween := isValidAt_between hvalid hvalid' hle hle'
  rw [(valueAt_eq_some htimeline).mpr ⟨hmem, hbetween⟩, hvalue start hstart]

/-- Nothing reported means the same version at both ends. -/
theorem believedAt_eq_of_unreported {start finish : Instant}
    (hnone : periodChange (knownHistory db org factId k) start finish = none) :
    believedAt db org factId k start = believedAt db org factId k finish := by
  have htimeline := timeline_knownHistory hsound org factId k
  have hids : (valueAt (knownHistory db org factId k) start).map VersionSnapshot.id =
      (valueAt (knownHistory db org factId k) finish).map VersionSnapshot.id := by
    by_contra hne
    rw [periodChange, if_neg fun h => hne h.1] at hnone
    exact absurd hnone (by simp)
  have hversions (t : Instant) : (valueAt (knownHistory db org factId k) t).map VersionSnapshot.id =
      (believedAt db org factId k t).map FactVersion.id := by
    rw [valueAt_knownHistory hsound, Option.map_map]
    congr 1
    funext v
    exact asKnown_id k (toSnapshot v)
  rw [hversions, hversions] at hids
  have hnodup : (versionsOf db org factId).map FactVersion.id |>.Nodup :=
    hsound.versionIds.sublist (List.filter_sublist.map _)
  cases hstart : believedAt db org factId k start with
  | none =>
    rw [hstart, Option.map_none, eq_comm, Option.map_eq_none_iff] at hids
    exact hids.symm
  | some v =>
    rw [hstart, Option.map_some, eq_comm, Option.map_eq_some_iff] at hids
    obtain ⟨u, hu, hsame⟩ := hids
    have hv := (believedAt_eq_some hsound org factId k start).mp hstart
    have hu' := (believedAt_eq_some hsound org factId k finish).mp hu
    rw [hu, List.inj_on_of_nodup_map hnodup hu'.1 hv.1 hsame]

end Facts

/-- The history as known does not depend on the order in which the versions come. -/
theorem historyAsKnown_perm {vs ws : List VersionSnapshot} (hperm : vs.Perm ws)
    (hnumbered : ws.Pairwise fun a b => a.version < b.version) (k : Option Instant) :
    historyAsKnown vs k = historyAsKnown ws k := by
  have hsorted : (ws.insertionSort fun a b => a.version ≤ b.version) =
      vs.insertionSort fun a b => a.version ≤ b.version := by
    apply Rankings.insertionSort_eq_of_perm _ _ hperm.symm
    intro a ha b hb hab hba
    by_contra hne
    have hsymm : Std.Symm fun a b : VersionSnapshot => a.version ≠ b.version :=
      ⟨fun _ _ => Ne.symm⟩
    have hdistinct := List.Pairwise.forall (hnumbered.imp fun hlt => ne_of_lt hlt)
    exact hdistinct ha hb hne (le_antisymm hab hba)
  rw [historyAsKnown, historyAsKnown, hsorted]

/-- Results for every argument give a list of results. -/
theorem mapM_eq_ok_of_forall {α β : Type} {f : α → Result β} {inputs : List α}
    (h : ∀ a ∈ inputs, ∃ b, f a = .ok b) :
    ∃ outputs, inputs.mapM f = .ok outputs ∧ ∀ a ∈ inputs, ∀ b, f a = .ok b → b ∈ outputs := by
  induction inputs with
  | nil => exact ⟨[], rfl, by simp⟩
  | cons a inputs ih =>
    obtain ⟨first, hfirst⟩ := h a List.mem_cons_self
    obtain ⟨rest, hrest, hmem⟩ := ih fun c hc => h c (List.mem_cons_of_mem a hc)
    refine ⟨first :: rest, ?_, ?_⟩
    · rw [List.mapM_cons, hfirst, hrest]
      rfl
    · intro c hc b hb
      rcases List.mem_cons.mp hc with rfl | hc
      · rw [hfirst] at hb
        rw [Except.ok.inj hb]
        exact List.mem_cons_self
      · exact List.mem_cons_of_mem first (hmem c hc b hb)

section Rows

variable {db : Database} (hsound : Sound db) {f : Fact} (hf : f ∈ db.facts) (k : Option Instant)

include hsound hf

/-- The rows of a fact among those of its entity are its known versions in some order. -/
theorem own_perm : ((entityVersions db f.organizationId f.entityId k).filter fun row =>
    row.1.factId == f.id).map (fun row => toSnapshot row.1) ~
      ((versionsOf db f.organizationId f.id).map toSnapshot).filter (isKnown k) := by
  have hknown (v : FactVersion) :
      (k.all fun k => decide (v.recordedAt ≤ k)) = isKnown k (toSnapshot v) := by
    cases k with
    | none => rfl
    | some k => rfl
  have hrows : ((entityRows db f.organizationId f.entityId).filter fun row =>
      k.all fun k => decide (row.1.recordedAt ≤ k)).filter (fun row => row.1.factId == f.id) =
        ((versionsOf db f.organizationId f.id).filter fun v => isKnown k (toSnapshot v)).map
          fun v => (v, f.property) := by
    rw [List.filter_comm, filter_entityRows hsound hf, List.filter_map]
    congr 1
    apply List.filter_congr
    intro v _
    exact hknown v
  have hperm := (((List.perm_insertionSort EntityRowLe ((entityRows db f.organizationId
    f.entityId).filter fun row => k.all fun k => decide (row.1.recordedAt ≤ k))).filter
      fun row => row.1.factId == f.id).map fun row => toSnapshot row.1)
  rw [hrows, List.map_map] at hperm
  rw [List.filter_map]
  exact hperm

theorem factChange_eq {start finish : Instant} (hlt : start < finish) :
    ∃ property, factChange (entityVersions db f.organizationId f.entityId k) start finish k f.id =
      .ok ((periodChange (knownHistory db f.organizationId f.id k) start finish).map
        fun change => ⟨f.id, property, change⟩) := by
  have hordered := ordered_of_chain (hsound.histories f.organizationId f.id).toChain
  have hhistory : historyAsKnown (((entityVersions db f.organizationId f.entityId k).filter
      fun row => row.1.factId == f.id).map fun row => toSnapshot row.1) k =
        historyAsKnown ((versionsOf db f.organizationId f.id).map toSnapshot) k := by
    have hknown := hordered.sublist (List.filter_sublist (p := isKnown k))
    rw [historyAsKnown_perm (own_perm hsound hf k) hknown.numbered, historyAsKnown_ordered hknown,
      List.filter_filter, historyAsKnown_ordered hordered]
    simp only [Bool.and_self]
  have hown : changeBetween (((entityVersions db f.organizationId f.entityId k).filter
      fun row => row.1.factId == f.id).map fun row => toSnapshot row.1) start finish k =
        .ok (periodChange (knownHistory db f.organizationId f.id k) start finish) := by
    rw [changeBetween, hhistory]
    exact changeBetween_eq hordered k hlt
  refine ⟨(((entityVersions db f.organizationId f.entityId k).filter
    fun row => row.1.factId == f.id).getLast?.map Prod.snd).getD "", ?_⟩
  simp only [factChange, hown]
  rfl

/-- A fact with no known version has nothing to report. -/
theorem periodChange_of_not_mem {start finish : Instant}
    (hnone : ∀ row ∈ entityVersions db f.organizationId f.entityId k, row.1.factId ≠ f.id) :
    periodChange (knownHistory db f.organizationId f.id k) start finish = none := by
  have hperm := own_perm hsound hf k
  have hown : (entityVersions db f.organizationId f.entityId k).filter
      (fun row => row.1.factId == f.id) = [] := by
    rw [List.filter_eq_nil_iff]
    intro row hrow
    simpa using hnone row hrow
  rw [hown, List.map_nil] at hperm
  have hempty : knownHistory db f.organizationId f.id k = [] := by
    rw [knownHistory, historyAsKnown_ordered
      (ordered_of_chain (hsound.histories f.organizationId f.id).toChain), hperm.nil_eq.symm]
    rfl
  rw [hempty]
  rfl

end Rows

theorem mem_entityVersions {db : Database} {org entityId : Uuid} {k : Option Instant}
    {row : FactVersion × String} (h : row ∈ entityVersions db org entityId k) :
    ∃ f ∈ db.facts, f.organizationId = org ∧ f.entityId = entityId ∧ f.id = row.1.factId := by
  obtain ⟨-, f, hf, horg, hentity, hid, -⟩ :=
    mem_entityRows (List.mem_of_mem_filter ((List.mem_insertionSort _).mp h))
  exact ⟨f, hf, horg, hentity, hid⟩

/-- What is reported for an entity, fact by fact. -/
theorem changes_of_entity {db : Database} (hsound : Sound db) (org entityId : Uuid)
    {start finish : Instant} (hlt : start < finish) (k : Option Instant) :
    ∃ found, ((entityVersions db org entityId k).map fun row => row.1.factId).eraseDups.mapM
        (factChange (entityVersions db org entityId k) start finish k) = .ok found ∧
      ∀ f ∈ db.facts, f.organizationId = org → f.entityId = entityId →
        (∀ c, some c ∈ found → c.factId = f.id →
          periodChange (knownHistory db org f.id k) start finish = some c.change) ∧
        ∀ change, periodChange (knownHistory db org f.id k) start finish = some change →
          ∃ c, some c ∈ found ∧ c.factId = f.id := by
  have heach : ∀ id ∈ ((entityVersions db org entityId k).map fun row => row.1.factId).eraseDups,
      ∃ property, factChange (entityVersions db org entityId k) start finish k id =
        .ok ((periodChange (knownHistory db org id k) start finish).map
          fun change => ⟨id, property, change⟩) := by
    intro id hid
    obtain ⟨row, hrow, rfl⟩ := List.mem_map.mp (List.mem_eraseDups.mp hid)
    obtain ⟨f, hf, rfl, rfl, hrowId⟩ := mem_entityVersions hrow
    rw [← hrowId]
    exact factChange_eq hsound hf k hlt
  obtain ⟨found, hfound, hmem⟩ := mapM_eq_ok_of_forall fun id hid =>
    ⟨_, (heach id hid).choose_spec⟩
  refine ⟨found, hfound, ?_⟩
  rintro f hf rfl rfl
  constructor
  · intro c hc hid
    obtain ⟨id, hmemId, hresult⟩ := mem_of_mapM_eq_ok hfound hc
    obtain ⟨property, heq⟩ := heach id hmemId
    rw [heq] at hresult
    obtain ⟨change, hchange, rfl⟩ := Option.map_eq_some_iff.mp (Except.ok.inj hresult)
    rw [← hid]
    exact hchange
  · intro change hchange
    have hknown : f.id ∈ ((entityVersions db f.organizationId f.entityId k).map
        fun row => row.1.factId).eraseDups := by
      rw [List.mem_eraseDups]
      by_contra hnot
      rw [periodChange_of_not_mem hsound hf k] at hchange
      · exact absurd hchange (by simp)
      · intro row hrow hid
        exact hnot (List.mem_map.mpr ⟨row, hrow, hid⟩)
    obtain ⟨property, heq⟩ := heach f.id hknown
    refine ⟨⟨f.id, property, change⟩, hmem f.id hknown _ ?_, rfl⟩
    rw [heq, hchange, Option.map_some]

/-- The facts at an instant have for a fact what is believed and not revoked. -/
theorem shownFor_factsValidAt {db : Database} (hsound : Sound db) {f : Fact} (hf : f ∈ db.facts)
    (k : Option Instant) (t : Instant) (place : FactVersion × String → ResolvedFact)
    (hid : ∀ row, (place row).factId = row.1.factId)
    (hversion : ∀ row, (place row).version = asKnown k (toSnapshot row.1)) :
    shownFor (((factsValidAt db f.organizationId f.entityId t k).map place).insertionSort
        fun a b => a.property ≤ b.property) f.id =
      ((believedAt db f.organizationId f.id k t).filter (notRevoked db k)).map
        fun v => asKnown k (toSnapshot v) := by
  have hanswer : (((factsValidAt db f.organizationId f.entityId t k).map place).filter
      fun r => r.factId == f.id).map ResolvedFact.version =
        matchesAt (unrevokedSnapshots db f.organizationId f.id k) t k := by
    rw [← answerFor_eq_matchesAt hsound hf, answerFor, List.filter_map, List.map_map]
    simp only [Function.comp_def, hid, hversion]
  have hone : (((factsValidAt db f.organizationId f.entityId t k).map place).filter
      fun r => r.factId == f.id).length ≤ 1 := by
    have hle := length_matchesAt_le_one (unrevokedSnapshots_ordered hsound f.organizationId f.id k)
      t k
    rwa [← hanswer, List.length_map] at hle
  rw [shownFor, ← List.head?_filter, filter_insertionSort_of_length_le_one _ hone,
    ← List.head?_map, hanswer, head?_unrevoked hsound]

/-- The comparison of the two ends, from what is believed at each. -/
theorem agree_iff {db : Database} (hsound : Sound db) {org factId : Uuid} {start finish : Instant}
    (hlt : start < finish) {k : Option Instant} {changes : List FactChange}
    {atStart atEnd : List ResolvedFact}
    (hsome : ∀ c ∈ changes, c.factId = factId →
      periodChange (knownHistory db org factId k) start finish = some c.change)
    (hnone : ∀ change, periodChange (knownHistory db org factId k) start finish = some change →
      ∃ c ∈ changes, c.factId = factId)
    (hstart : shownFor atStart factId = ((believedAt db org factId k start).filter
      (notRevoked db k)).map fun v => asKnown k (toSnapshot v))
    (hend : shownFor atEnd factId = ((believedAt db org factId k finish).filter
      (notRevoked db k)).map fun v => asKnown k (toSnapshot v)) :
    Agree changes atStart atEnd factId ↔ RevokedThroughout db org factId start finish k := by
  have hreported (c : FactChange) (hc : c ∈ changes) (hid : c.factId = factId) :
      c.change.before = (believedAt db org factId k start).map (fun v => asKnown k (toSnapshot v)) ∧
        c.change.after =
          (believedAt db org factId k finish).map fun v => asKnown k (toSnapshot v) := by
    have hchange := hsome c hc hid
    rw [periodChange] at hchange
    by_cases hsame : (valueAt (knownHistory db org factId k) start).map VersionSnapshot.id =
        (valueAt (knownHistory db org factId k) finish).map VersionSnapshot.id ∧
          startingIn (knownHistory db org factId k) start finish = []
    · rw [if_pos hsame] at hchange
      exact absurd hchange (by simp)
    · rw [if_neg hsame] at hchange
      rw [← Option.some.inj hchange, ← valueAt_knownHistory hsound, ← valueAt_knownHistory hsound]
      exact ⟨rfl, rfl⟩
  have hunreported (hno : ∀ c ∈ changes, c.factId ≠ factId) :
      believedAt db org factId k start = believedAt db org factId k finish := by
    apply believedAt_eq_of_unreported hsound
    cases hchange : periodChange (knownHistory db org factId k) start finish with
    | none => rfl
    | some change =>
      obtain ⟨c, hc, hid⟩ := hnone change hchange
      exact absurd hid (hno c hc)
  constructor
  · intro hagree v hv hrevoked
    have hhidden (t : Instant) (ht : believedAt db org factId k t = some v) :
        ((believedAt db org factId k t).filter (notRevoked db k)).map
          (fun v => asKnown k (toSnapshot v)) = none := by
      simp [ht, Option.filter, hrevoked]
    have hat (t : Instant) : believes k t v = true ↔ believedAt db org factId k t = some v := by
      rw [believedAt_eq_some hsound]
      exact ⟨fun ht => ⟨hv, ht⟩, fun ht => ht.2⟩
    rw [Bool.eq_iff_iff, hat, hat]
    by_cases hreports : ∃ c ∈ changes, c.factId = factId
    · obtain ⟨c, hc, hid⟩ := hreports
      obtain ⟨hbefore, hafter⟩ := hagree.reported c hc hid
      obtain ⟨hbefore', hafter'⟩ := hreported c hc hid
      constructor
      · intro ht
        rw [hbefore, hstart, hhidden start ht, ht] at hbefore'
        exact absurd hbefore' (by simp)
      · intro ht
        rw [hafter, hend, hhidden finish ht, ht] at hafter'
        exact absurd hafter' (by simp)
    · rw [hunreported fun c hc hid => hreports ⟨c, hc, hid⟩]
  · intro hthroughout
    refine ⟨fun c hc hid => ?_, fun hno => by rw [hstart, hend, hunreported hno]⟩
    have hvisible (t : Instant) (ht : t = start ∨ t = finish) (v : FactVersion)
        (hv : believedAt db org factId k t = some v) : notRevoked db k v = true := by
      by_contra hrevoked
      obtain ⟨hmem, hbelieves⟩ := (believedAt_eq_some hsound org factId k t).mp hv
      have hends := hthroughout v hmem (by simpa using hrevoked)
      have hboth : believes k start v = true ∧ believes k finish v = true := by
        rcases ht with rfl | rfl
        · exact ⟨hbelieves, hends ▸ hbelieves⟩
        · exact ⟨hends.symm ▸ hbelieves, hbelieves⟩
      have hchange := hsome c hc hid
      rw [periodChange_of_same hsound org factId k hlt
        ((believedAt_eq_some hsound org factId k start).mpr ⟨hmem, hboth.1⟩)
        ((believedAt_eq_some hsound org factId k finish).mpr ⟨hmem, hboth.2⟩)] at hchange
      exact absurd hchange (by simp)
    have hkept (t : Instant) (ht : t = start ∨ t = finish) :
        (believedAt db org factId k t).filter (notRevoked db k) = believedAt db org factId k t := by
      cases hv : believedAt db org factId k t with
      | none => rfl
      | some v => simp [Option.filter, hvisible t ht v hv]
    rw [hstart, hend, hkept start (Or.inl rfl), hkept finish (Or.inr rfl)]
    exact hreported c hc hid

theorem requireAware_field {value : Datetime} {field : String} {t : Instant}
    (h : requireAware value field = .ok t) (other : String) : requireAware value other = .ok t := by
  unfold requireAware at h ⊢
  cases hoffset : value.utcoffset with
  | none =>
    rw [hoffset] at h
    exact absurd h (by simp [validationFailed])
  | some offset =>
    rw [hoffset] at h
    exact h

section Service

variable {rt : Runtime} {db : Database} {ctx : TenantContext} {entityType externalId : String}
  {start finish : Datetime} {knownAt : Option Datetime} {s e : Instant} {k : Option Instant}
  {role : MembershipRole} {entity : Entity} {field : String}

theorem factsAt_eq_ok (clock : Instant) (hstart : requireAware start field = .ok s)
    (hknown : requireAwareOption knownAt "known_at" = .ok k)
    (hrole : requirePermission db ctx .readFacts = .ok role)
    (hentity : requireEntity rt db ctx.organizationId entityType externalId = .ok entity) :
    factsAt rt db ctx entityType externalId (some start) knownAt clock =
      .ok (((factsValidAt db ctx.organizationId entity.id s k).map fun row =>
        (⟨row.1.factId, entity.id, entity.entityType, entity.externalId, row.2,
          asKnown k (toSnapshot row.1)⟩ : ResolvedFact)).insertionSort
            fun a b => a.property ≤ b.property) := by
  obtain ⟨identifier, hidentifier, hentity⟩ := bind_eq_ok.mp hentity
  obtain ⟨external, hexternal, hentity⟩ := bind_eq_ok.mp hentity
  simp only [factsAt, requireAware_field hstart, hknown, hrole, hidentifier, hexternal, bind,
    Except.bind]
  cases hfound : findEntity db ctx.organizationId identifier.1 external.1 with
  | none =>
    rw [hfound] at hentity
    exact absurd hentity (by simp [notFound])
  | some found =>
    rw [hfound] at hentity
    obtain rfl := Except.ok.inj hentity
    rfl

theorem changesBetween_eq_ok (hstart : requireAware start "start" = .ok s)
    (hfinish : requireAware finish "end" = .ok e) (hlt : s < e)
    (hknown : requireAwareOption knownAt "known_at" = .ok k)
    (hrole : requirePermission db ctx .readFacts = .ok role)
    (hentity : requireEntity rt db ctx.organizationId entityType externalId = .ok entity)
    {found : List (Option FactChange)}
    (hfound : ((entityVersions db ctx.organizationId entity.id k).map
      fun row => row.1.factId).eraseDups.mapM
        (factChange (entityVersions db ctx.organizationId entity.id k) s e k) = .ok found) :
    changesBetween rt db ctx entityType externalId start finish knownAt =
      .ok ((found.filterMap id).insertionSort fun a b => a.property ≤ b.property) := by
  simp only [changesBetween, hstart, hfinish, if_neg (not_le.mpr hlt), hknown, hrole, hentity,
    hfound, bind, Except.bind, pure, Except.pure]

end Service

/-- In every reachable state, for every period, K and fact of the entity: the changes agree with
the facts at the two ends exactly when each version of the fact that is revoked as known at K is
valid at both ends or at neither. -/
theorem changes_agree_iff (rt : Runtime) (w : World) (h : (system rt).Reachable w)
    (ctx : TenantContext) (entityType externalId : String) (start finish : Datetime)
    (knownAt : Option Datetime) (clock : Instant) {s e : Instant} {k : Option Instant}
    {role : MembershipRole} {entity : Entity} (hstart : requireAware start "start" = .ok s)
    (hfinish : requireAware finish "end" = .ok e) (hlt : s < e)
    (hknown : requireAwareOption knownAt "known_at" = .ok k)
    (hrole : requirePermission w.db ctx .readFacts = .ok role)
    (hentity : requireEntity rt w.db ctx.organizationId entityType externalId = .ok entity) :
    ∃ changes atStart atEnd,
      changesBetween rt w.db ctx entityType externalId start finish knownAt = .ok changes ∧
      factsAt rt w.db ctx entityType externalId (some start) knownAt clock = .ok atStart ∧
      factsAt rt w.db ctx entityType externalId (some finish) knownAt clock = .ok atEnd ∧
      ∀ f ∈ w.db.facts, f.organizationId = ctx.organizationId → f.entityId = entity.id →
        (Agree changes atStart atEnd f.id ↔
          RevokedThroughout w.db ctx.organizationId f.id s e k) := by
  have hsound := (reachable_consistent h).sound
  obtain ⟨found, hfound, hchanges⟩ :=
    changes_of_entity hsound ctx.organizationId entity.id hlt k
  refine ⟨_, _, _, changesBetween_eq_ok hstart hfinish hlt hknown hrole hentity hfound,
    factsAt_eq_ok clock hstart hknown hrole hentity,
    factsAt_eq_ok clock hfinish hknown hrole hentity, fun f hf horg hentityId => ?_⟩
  obtain ⟨hsome, hnone⟩ := hchanges f hf horg hentityId
  have hmem (c : FactChange) : c ∈ (found.filterMap id).insertionSort
      (fun a b => a.property ≤ b.property) ↔ some c ∈ found := by
    simp [List.mem_insertionSort]
  refine agree_iff hsound hlt (fun c hc => hsome c ((hmem c).mp hc)) (fun change hchange => ?_) ?_ ?_
  · obtain ⟨c, hc, hid⟩ := hnone change hchange
    exact ⟨c, (hmem c).mpr hc, hid⟩
  · rw [← horg, ← hentityId]
    exact shownFor_factsValidAt hsound hf k s _ (fun _ => rfl) fun _ => rfl
  · rw [← horg, ← hentityId]
    exact shownFor_factsValidAt hsound hf k e _ (fun _ => rfl) fun _ => rfl

/-- A version valid from 5 on is recorded and then revoked. -/
def revokedEvents : List Event :=
  exampleRecord 0 (exampleCommand true 5) 10 ⟨10, 11, 12⟩ ++
    [⟨20, .beginRevoke exampleContext 11 none "entered by mistake"⟩,
     ⟨21, .move 1 (.locate 20 21)⟩,
     ⟨22, .move 1 .lock⟩,
     ⟨23, .move 1 (.write 22)⟩,
     ⟨24, .commit 1⟩]

theorem revokedEvents_runs :
    ((system exampleRuntime).run exampleWorld revokedEvents).isSome = true := by
  decide +kernel

def revokedFinal : World :=
  ((system exampleRuntime).run exampleWorld revokedEvents).get revokedEvents_runs

theorem revokedFinal_reachable : (system exampleRuntime).Reachable revokedFinal :=
  ⟨exampleWorld, revokedEvents, ⟨⟨rfl, rfl, rfl⟩, rfl, rfl, rfl⟩, (Option.some_get _).symm⟩

theorem revokedFinal_entity :
    ∃ entity, requireEntity exampleRuntime revokedFinal.db 1 "customer" "c-1" = .ok entity ∧
      entity.id = 10 := by
  have hid : (requireEntity exampleRuntime revokedFinal.db 1 "customer" "c-1").toOption.map
      Entity.id = some 10 := by
    decide +kernel
  obtain ⟨entity, hentity, hten⟩ := Option.map_eq_some_iff.mp hid
  exact ⟨entity, eq_ok_of_toOption hentity, hten⟩

theorem changes_agree_iff_example :
    ∃ changes atStart atEnd,
      changesBetween exampleRuntime revokedFinal.db exampleContext "customer" "c-1" ⟨6, some 0⟩
        ⟨8, some 0⟩ none = .ok changes ∧
      factsAt exampleRuntime revokedFinal.db exampleContext "customer" "c-1" (some ⟨6, some 0⟩)
        none 30 = .ok atStart ∧
      factsAt exampleRuntime revokedFinal.db exampleContext "customer" "c-1" (some ⟨8, some 0⟩)
        none 30 = .ok atEnd ∧
      ∀ f ∈ revokedFinal.db.facts, f.organizationId = 1 → f.entityId = 10 →
        (Agree changes atStart atEnd f.id ↔ RevokedThroughout revokedFinal.db 1 f.id 6 8 none) := by
  obtain ⟨entity, hentity, hten⟩ := revokedFinal_entity
  have hrole : requirePermission revokedFinal.db exampleContext .readFacts = .ok .engineer :=
    eq_ok_of_toOption (by decide +kernel)
  rw [← hten]
  exact changes_agree_iff exampleRuntime revokedFinal revokedFinal_reachable exampleContext
    "customer" "c-1" ⟨6, some 0⟩ ⟨8, some 0⟩ none 30 rfl rfl (by decide) rfl hrole hentity

/-- A revoked version that becomes valid inside the period is reported as the value at its end,
where the facts have none. -/
theorem changes_disagree :
    ¬ ∀ (rt : Runtime) (w : World), (system rt).Reachable w → ∀ (ctx : TenantContext)
      (entityType externalId : String) (start finish : Datetime) (knownAt : Option Datetime)
      (clock : Instant) (entity : Entity) (changes : List FactChange)
      (atStart atEnd : List ResolvedFact),
      requireEntity rt w.db ctx.organizationId entityType externalId = .ok entity →
      changesBetween rt w.db ctx entityType externalId start finish knownAt = .ok changes →
      factsAt rt w.db ctx entityType externalId (some start) knownAt clock = .ok atStart →
      factsAt rt w.db ctx entityType externalId (some finish) knownAt clock = .ok atEnd →
      ∀ f ∈ w.db.facts, f.organizationId = ctx.organizationId → f.entityId = entity.id →
        Agree changes atStart atEnd f.id := by
  intro h
  obtain ⟨entity, hentity, hten⟩ := revokedFinal_entity
  have hchanges : ((changesBetween exampleRuntime revokedFinal.db exampleContext "customer" "c-1"
      ⟨2, some 0⟩ ⟨7, some 0⟩ none).toOption.any fun changes =>
        changes.any fun c => c.factId == 11 && c.change.after.isSome) = true := by
    decide +kernel
  have hbefore : (factsAt exampleRuntime revokedFinal.db exampleContext "customer" "c-1"
      (some ⟨2, some 0⟩) none 30).toOption.isSome = true := by
    decide +kernel
  have hafter : ((factsAt exampleRuntime revokedFinal.db exampleContext "customer" "c-1"
      (some ⟨7, some 0⟩) none 30).toOption.any fun facts => (shownFor facts 11).isNone) = true := by
    decide +kernel
  have hfact : (revokedFinal.db.facts.any fun f =>
      f.id == 11 && f.organizationId == 1 && f.entityId == 10) = true := by
    decide +kernel
  obtain ⟨changes, hreported, hmem⟩ := (Option.any_eq_true _ _).mp hchanges
  obtain ⟨atStart, hstart⟩ := Option.isSome_iff_exists.mp hbefore
  obtain ⟨atEnd, hend, hnone⟩ := (Option.any_eq_true _ _).mp hafter
  obtain ⟨c, hc, hvalue⟩ := List.any_eq_true.mp hmem
  obtain ⟨f, hf, hplace⟩ := List.any_eq_true.mp hfact
  simp only [Bool.and_eq_true, beq_iff_eq] at hvalue hplace
  have hagree := h exampleRuntime revokedFinal revokedFinal_reachable exampleContext "customer"
    "c-1" ⟨2, some 0⟩ ⟨7, some 0⟩ none 30 entity changes atStart atEnd hentity
    (eq_ok_of_toOption hreported) (eq_ok_of_toOption hstart) (eq_ok_of_toOption hend) f hf
    hplace.1.2 (hplace.2.trans hten.symm)
  rw [hplace.1.1] at hagree
  have hshown := (hagree.reported c hc hvalue.1).2
  rw [Option.isNone_iff_eq_none.mp hnone] at hshown
  rw [hshown] at hvalue
  exact absurd hvalue.2 (by simp)

end ContextLedger.PeriodAgreement
