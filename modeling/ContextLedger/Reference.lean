import ContextLedger.VersionTable

/-!
The reference semantics of bitemporal questions. A version is known at K when it
was recorded by K, its end is known when that was recorded by K, and the version
valid at T as known at K is the only known one that contains T as it looked then.
-/
namespace ContextLedger.Reference

open Values JsonText Schema Facts Bitemporal VersionChain VersionTable

/-- A version as the services hand it out, without its organization. -/
structure VersionSnapshot where
  id : Uuid
  factId : Uuid
  version : ℕ
  value : Json
  sourceId : Uuid
  validFrom : Instant
  validUntil : Option Instant
  observedAt : Instant
  recordedAt : Instant
  validUntilRecordedAt : Option Instant
  supersedesId : Option Uuid
  authority : ℤ
  confidence : ℤ
  privacyScope : PrivacyScope

def toSnapshot (v : FactVersion) : VersionSnapshot where
  id := v.id
  factId := v.factId
  version := v.version
  value := Jsonb.load v.value
  sourceId := v.sourceId
  validFrom := v.validFrom
  validUntil := v.validUntil
  observedAt := v.observedAt
  recordedAt := v.recordedAt
  validUntilRecordedAt := v.validUntilRecordedAt
  supersedesId := v.supersedesId
  authority := v.authority
  confidence := v.confidence
  privacyScope := v.privacyScope

def isKnown (knownAt : Option Instant) (v : VersionSnapshot) : Bool :=
  match knownAt with
  | none => true
  | some k => decide (v.recordedAt ≤ k)

/-- The version as it looked at `knownAt`: an end not yet learned is hidden. -/
def asKnown (knownAt : Option Instant) (v : VersionSnapshot) : VersionSnapshot :=
  match knownAt, v.validUntilRecordedAt with
  | some k, some closedAt =>
    if closedAt ≤ k then v else { v with validUntil := none, validUntilRecordedAt := none }
  | _, _ => v

def isValidAt (instant : Instant) (v : VersionSnapshot) : Bool :=
  decide (v.validFrom ≤ instant) && v.validUntil.all fun u => decide (instant < u)

/-- The known versions, oldest first, each as it looked then. -/
def historyAsKnown (versions : List VersionSnapshot) (knownAt : Option Instant) :
    List VersionSnapshot :=
  ((versions.insertionSort fun a b => a.version ≤ b.version).filter (isKnown knownAt)).map
    (asKnown knownAt)

def matchesAt (versions : List VersionSnapshot) (validAt : Instant) (knownAt : Option Instant) :
    List VersionSnapshot :=
  (historyAsKnown versions knownAt).filter (isValidAt validAt)

def resolve (versions : List VersionSnapshot) (validAt : Instant) (knownAt : Option Instant) :
    Result (Option VersionSnapshot) :=
  let found := matchesAt versions validAt knownAt
  if 1 < found.length then
    .error (.domain (.invariantViolation (natText found.length ++
      " versions of one fact are valid at " ++ isoformat validAt)))
  else .ok found.head?

/-- What one fact was before and after a period, and the versions that started in it. -/
structure Change where
  before : Option VersionSnapshot
  after : Option VersionSnapshot
  transitions : List VersionSnapshot

def changeBetween (versions : List VersionSnapshot) (start finish : Instant)
    (knownAt : Option Instant) : Result (Option Change) :=
  if finish ≤ start then validationFailed "end must be later than start"
  else do
    let known := historyAsKnown versions knownAt
    let before ← resolve known start none
    let after ← resolve known finish none
    let transitions := known.filter fun v =>
      decide (start < v.validFrom) && decide (v.validFrom ≤ finish)
    if before.map VersionSnapshot.id = after.map VersionSnapshot.id ∧ transitions = [] then
      return none
    else return some ⟨before, after, transitions⟩

/-- The version has a place on both time axes. -/
def snapshotSpan (v : VersionSnapshot) : Span Instant Instant :=
  ⟨v.validFrom, v.validUntil, v.recordedAt, v.validUntilRecordedAt⟩

@[simp] theorem snapshotSpan_toSnapshot (v : FactVersion) :
    snapshotSpan (toSnapshot v) = span v := rfl

@[simp] theorem asKnown_none (v : VersionSnapshot) : asKnown none v = v := rfl

@[simp] theorem asKnown_id (k : Option Instant) (v : VersionSnapshot) :
    (asKnown k v).id = v.id := by
  unfold asKnown
  split
  · split <;> rfl
  · rfl

@[simp] theorem asKnown_version (k : Option Instant) (v : VersionSnapshot) :
    (asKnown k v).version = v.version := by
  unfold asKnown
  split
  · split <;> rfl
  · rfl

@[simp] theorem asKnown_validFrom (k : Option Instant) (v : VersionSnapshot) :
    (asKnown k v).validFrom = v.validFrom := by
  unfold asKnown
  split
  · split <;> rfl
  · rfl

@[simp] theorem asKnown_privacyScope (k : Option Instant) (v : VersionSnapshot) :
    (asKnown k v).privacyScope = v.privacyScope := by
  unfold asKnown
  split
  · split <;> rfl
  · rfl

theorem isKnown_iff (k : Option Instant) (v : VersionSnapshot) :
    isKnown k v = true ↔ (snapshotSpan v).Known k := by
  cases k with
  | none => simp [isKnown, Span.Known]
  | some k => simp [isKnown, Span.Known, snapshotSpan]

/-- Known at K and containing T as it looked then is being believed. -/
theorem believed_iff (k : Option Instant) (t : Instant) (v : VersionSnapshot) :
    (isKnown k v = true ∧ isValidAt t (asKnown k v) = true) ↔ (snapshotSpan v).Believed t k := by
  rw [isKnown_iff, Span.Believed]
  refine and_congr_right fun _ => ?_
  rw [isValidAt, Bool.and_eq_true, asKnown_validFrom, decide_eq_true_iff]
  refine and_congr_right fun _ => ?_
  rw [Option.all_eq_true]
  simp only [decide_eq_true_iff]
  cases k with
  | none => simp [Span.EndKnown, snapshotSpan, asKnown]
  | some k =>
    cases hclosed : v.validUntilRecordedAt with
    | none => simp [Span.EndKnown, snapshotSpan, asKnown, hclosed]
    | some closedAt =>
      by_cases hle : closedAt ≤ k
      · simp [Span.EndKnown, snapshotSpan, asKnown, hclosed, hle]
      · simp [Span.EndKnown, snapshotSpan, asKnown, hclosed, hle]

/-- Versions in the order of their numbers, each wholly before the next. -/
structure Ordered (vs : List VersionSnapshot) : Prop where
  precedes : vs.Pairwise fun a b => (snapshotSpan a).Precedes (snapshotSpan b)
  numbered : vs.Pairwise fun a b => a.version < b.version

theorem Ordered.sublist {vs ws : List VersionSnapshot} (h : Ordered vs) (hsub : ws.Sublist vs) :
    Ordered ws := ⟨h.precedes.sublist hsub, h.numbered.sublist hsub⟩

theorem sort_eq_self {vs : List VersionSnapshot}
    (h : vs.Pairwise fun a b => a.version < b.version) :
    (vs.insertionSort fun a b => a.version ≤ b.version) = vs :=
  List.Pairwise.insertionSort_eq (h.imp fun hab => le_of_lt hab)

theorem historyAsKnown_ordered {vs : List VersionSnapshot} (h : Ordered vs)
    (k : Option Instant) : historyAsKnown vs k = (vs.filter (isKnown k)).map (asKnown k) := by
  rw [historyAsKnown, sort_eq_self h.numbered]

/-- The matches at T and K are the believed versions as they looked at K. -/
theorem matchesAt_ordered {vs : List VersionSnapshot} (h : Ordered vs) (t : Instant)
    (k : Option Instant) : matchesAt vs t k =
      (vs.filter fun v => isKnown k v && isValidAt t (asKnown k v)).map (asKnown k) := by
  rw [matchesAt, historyAsKnown_ordered h, List.filter_map, List.filter_filter]
  congr 1
  apply List.filter_congr
  intro v _
  exact Bool.and_comm _ _

/-- At most one version is valid at T as known at K. -/
theorem length_matchesAt_le_one {vs : List VersionSnapshot} (h : Ordered vs) (t : Instant)
    (k : Option Instant) : (matchesAt vs t k).length ≤ 1 := by
  rw [matchesAt_ordered h, List.length_map]
  apply length_filter_le_one
  refine h.precedes.imp ?_
  intro a b hab ha hb
  rw [Bool.and_eq_true] at ha hb
  exact hab.not_both_believed t k ((believed_iff k t a).mp ha) ((believed_iff k t b).mp hb)

theorem resolve_ordered {vs : List VersionSnapshot} (h : Ordered vs) (t : Instant)
    (k : Option Instant) : resolve vs t k = .ok (matchesAt vs t k).head? := by
  have hone := length_matchesAt_le_one h t k
  simp only [resolve]
  rw [if_neg (by omega)]

/-- Asking the history as known at K with everything known asks at K. -/
theorem matchesAt_historyAsKnown {vs : List VersionSnapshot} (h : Ordered vs) (t : Instant)
    (k : Option Instant) : matchesAt (historyAsKnown vs k) t none = matchesAt vs t k := by
  have hnumbered : (historyAsKnown vs k).Pairwise fun a b => a.version < b.version := by
    rw [historyAsKnown_ordered h, List.pairwise_map]
    simpa using h.numbered.sublist List.filter_sublist
  have hself : historyAsKnown (historyAsKnown vs k) none = historyAsKnown vs k := by
    have hall : isKnown none = fun _ => true := rfl
    have hsame : asKnown none = id := rfl
    rw [historyAsKnown, sort_eq_self hnumbered, hall, hsame, List.filter_true, List.map_id]
  rw [matchesAt, hself, matchesAt]

theorem changeBetween_ordered {vs : List VersionSnapshot} (h : Ordered vs)
    {start finish : Instant} (hlt : start < finish) (k : Option Instant) :
    ∃ change, changeBetween vs start finish k = .ok change := by
  have hresolve (t : Instant) :
      resolve (historyAsKnown vs k) t none = .ok (matchesAt vs t k).head? := by
    have hone := length_matchesAt_le_one h t k
    simp only [resolve, matchesAt_historyAsKnown h]
    rw [if_neg (by omega)]
  simp only [changeBetween, if_neg (not_le.mpr hlt), hresolve, Except.bind, Bind.bind]
  split
  · exact ⟨none, rfl⟩
  · exact ⟨_, rfl⟩

theorem ordered_of_chain {vs : List FactVersion} (h : Chain vs) : Ordered (vs.map toSnapshot) := by
  refine ⟨List.pairwise_map.mpr h.pairwise_precedes, List.pairwise_map.mpr ?_⟩
  have hnumbers : (vs.map FactVersion.version).Pairwise (· < ·) := by
    rw [h.numbers]
    exact List.pairwise_lt_range'
  exact List.pairwise_map.mp hnumbers

end ContextLedger.Reference
