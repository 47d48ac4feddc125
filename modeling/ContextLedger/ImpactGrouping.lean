import ContextLedger.Provenance
import ContextLedger.Rankings
import Mathlib.Data.Prod.Lex

/-!
Grouping the rows of an impact query. Decisions are sorted by the tuple of whether
their time is missing, the time and the id; two missing times are equal, and a
missing one is never compared with a time, since the first place differs then. So
sorting never fails, and what comes out is determined by the set of rows.
-/
namespace ContextLedger.ImpactGrouping

open Values Provenance Rankings

/-- `<` of two values that may be `None`, where the interpreter raises unless both are times. -/
def instantLt : Option Instant → Option Instant → Option Bool
  | some t, some u => some (decide (t < u))
  | _, _ => none

/-- `<` of the keys `(decided_at is None, decided_at, decision_id)`: the first place in which
the two differ decides. -/
def keyLt (a b : AffectedDecision) : Option Bool :=
  if a.decidedAt.isNone ≠ b.decidedAt.isNone then some b.decidedAt.isNone
  else if a.decidedAt ≠ b.decidedAt then instantLt a.decidedAt b.decidedAt
  else some (decide (a.decisionId.toNat < b.decisionId.toNat))

/-- `group_impact` with the comparisons that `sorted` makes of decisions. -/
def groupImpactCompared (rows : List ImpactRow) : Option (List Uuid × List AffectedDecision) :=
  let ids := ((rows.filterMap ImpactRow.decision).map DecisionRef.decisionId).dedup
  (sortBy keyLt (ids.filterMap (affected rows))).map fun decisions =>
    ((groupImpact rows).1, decisions)

/-- Rows of one decision carry the same reference to it. -/
def SameReferences (rows : List ImpactRow) : Prop :=
  ∀ row ∈ rows, ∀ other ∈ rows, ∀ ref ∈ row.decision, ∀ ref' ∈ other.decision,
    ref.decisionId = ref'.decisionId → ref = ref'

instance (rows : List ImpactRow) : Decidable (SameReferences rows) :=
  inferInstanceAs (Decidable (∀ row ∈ rows, ∀ other ∈ rows, ∀ ref ∈ row.decision, _))

def refOf (a : AffectedDecision) : DecisionRef := ⟨a.decisionId, a.action, a.decidedAt⟩

/-- By time and then by id, undated decisions last. -/
structure Before (a b : AffectedDecision) : Prop where
  undated : a.decidedAt = none → b.decidedAt = none
  dated : ∀ t u, a.decidedAt = some t → b.decidedAt = some u → t ≤ u
  ids : a.decidedAt = b.decidedAt → a.decisionId.toNat < b.decisionId.toNat

def ReasonBefore (p q : Uuid × String) : Prop := p.1.toNat < q.1.toNat ∨ p.1 = q.1 ∧ p.2 < q.2

/-- The rows say that the decision depends on a version in some way. -/
def Explained (rows : List ImpactRow) (id : Uuid) (reason : Uuid × String) : Prop :=
  ∃ row ∈ rows, row.decision.map DecisionRef.decisionId = some id ∧
    (row.factVersionId, row.via) = reason

/-- The versions and the decisions of the rows, each once and in order, with their reasons. -/
structure Grouped (rows : List ImpactRow) (groups : List Uuid × List AffectedDecision) : Prop where
  versions_sorted : groups.1.Pairwise fun a b => a.toNat < b.toNat
  mem_versions : ∀ id, id ∈ groups.1 ↔ ∃ row ∈ rows, row.factVersionId = id
  decisions_once : (groups.2.map AffectedDecision.decisionId).Nodup
  mem_decisions : ∀ ref, ref ∈ groups.2.map refOf ↔ ∃ row ∈ rows, row.decision = some ref
  reasons_sorted : ∀ a ∈ groups.2, a.becauseOf.Pairwise ReasonBefore
  mem_reasons : ∀ a ∈ groups.2, ∀ reason, reason ∈ a.becauseOf ↔ Explained rows a.decisionId reason
  decisions_sorted : groups.2.Pairwise Before

theorem keyLt_eq (a b : AffectedDecision) :
    keyLt b a = some (!decide (affectedLe a b = true)) := by
  have hids : decide (b.decisionId.toNat < a.decisionId.toNat) =
      !decide (uuidLe a.decisionId b.decisionId) := by
    rw [← decide_not, decide_eq_decide]
    exact Nat.not_le.symm
  unfold keyLt affectedLe
  cases ha : a.decidedAt with
  | none =>
    cases hb : b.decidedAt with
    | none => simpa using hids
    | some u => simp
  | some t =>
    cases hb : b.decidedAt with
    | none => simp
    | some u =>
      by_cases heq : u = t
      · subst heq
        simpa using hids
      · have hne : some u ≠ some t := fun h => heq (Option.some.inj h)
        have htimes : decide (u < t) = !decide (t < u) := by
          rw [← decide_not, decide_eq_decide, not_lt]
          exact (le_iff_lt_or_eq.trans (or_iff_left heq)).symm
        simp [instantLt, hne, htimes, Ne.symm heq]

/-- Sorting the decisions never fails. -/
theorem groupImpactCompared_eq (rows : List ImpactRow) :
    groupImpactCompared rows = some (groupImpact rows) := by
  unfold groupImpactCompared
  simp only
  rw [sortBy_eq fun a _ b _ => keyLt_eq a b]
  rfl

instance : Std.Total uuidLe := ⟨fun a b => Nat.le_total a.toNat b.toNat⟩

instance : IsTrans Uuid uuidLe := ⟨fun _ _ _ => Nat.le_trans⟩

instance : Std.Total reasonLe := by
  constructor
  rintro ⟨id, via⟩ ⟨id', via'⟩
  rcases Nat.lt_trichotomy id.toNat id'.toNat with hlt | heq | hgt
  · exact Or.inl (Or.inl hlt)
  · obtain rfl := BitVec.eq_of_toNat_eq heq
    rcases String.le_total via via' with hle | hle
    · exact Or.inl (Or.inr ⟨rfl, hle⟩)
    · exact Or.inr (Or.inr ⟨rfl, hle⟩)
  · exact Or.inr (Or.inl hgt)

instance : IsTrans (Uuid × String) reasonLe := by
  constructor
  rintro ⟨id, via⟩ ⟨id', via'⟩ ⟨id'', via''⟩ (hlt | ⟨heq, hle⟩) (hlt' | ⟨heq', hle'⟩)
  · exact Or.inl (Nat.lt_trans hlt hlt')
  · exact Or.inl (heq' ▸ hlt)
  · exact Or.inl (heq ▸ hlt')
  · exact Or.inr ⟨heq.trans heq', String.le_trans hle hle'⟩

/-- The key of the sort; the time of an undated decision does not matter. -/
def keyOf (a : AffectedDecision) : Bool ×ₗ ℤ ×ₗ ℕ :=
  toLex (a.decidedAt.isNone, toLex (a.decidedAt.getD 0, a.decisionId.toNat))

theorem affectedLe_iff (a b : AffectedDecision) : affectedLe a b = true ↔ keyOf a ≤ keyOf b := by
  have hids : uuidLe a.decisionId b.decisionId ↔ a.decisionId.toNat ≤ b.decisionId.toNat := Iff.rfl
  unfold affectedLe keyOf
  cases ha : a.decidedAt with
  | none =>
    cases hb : b.decidedAt with
    | none => simp only [decide_eq_true_eq, hids]; simp [Prod.Lex.toLex_le_toLex]
    | some u => simp [Prod.Lex.toLex_le_toLex]
  | some t =>
    cases hb : b.decidedAt with
    | none => simp [Prod.Lex.toLex_le_toLex]
    | some u =>
      simp only [Bool.or_eq_true, Bool.and_eq_true, decide_eq_true_eq, hids]
      simp [Prod.Lex.toLex_le_toLex]

instance : Std.Total fun a b => affectedLe a b = true := by
  constructor
  intro a b
  rw [affectedLe_iff, affectedLe_iff]
  exact le_total _ _

instance : IsTrans AffectedDecision fun a b => affectedLe a b = true := by
  constructor
  intro a b c
  rw [affectedLe_iff, affectedLe_iff, affectedLe_iff]
  exact le_trans

theorem before_of_affectedLe {a b : AffectedDecision} (hle : affectedLe a b = true)
    (hne : a.decisionId ≠ b.decisionId) : Before a b := by
  have hids : a.decisionId.toNat ≠ b.decisionId.toNat := fun h => hne (BitVec.eq_of_toNat_eq h)
  rw [affectedLe_iff, keyOf, keyOf] at hle
  refine ⟨fun hnone => ?_, fun t u ht hu => ?_, fun heq => ?_⟩
  · by_contra hsome
    obtain ⟨u, hu⟩ := Option.ne_none_iff_exists'.mp hsome
    simp [hnone, hu, Prod.Lex.toLex_le_toLex] at hle
    exact absurd hle (by decide)
  · simp only [ht, hu, Prod.Lex.toLex_le_toLex, Option.isNone_some, lt_irrefl, false_or, true_and,
      Option.getD_some] at hle
    exact hle.elim le_of_lt fun h => le_of_eq h.1
  · simp only [heq, Prod.Lex.toLex_le_toLex, lt_irrefl, false_or, true_and] at hle
    exact lt_of_le_of_ne hle hids

theorem explained_iff {rows : List ImpactRow} {id : Uuid} {reason : Uuid × String} :
    reason ∈ reasons rows id ↔ Explained rows id reason := by
  simp only [reasons, List.mem_insertionSort, List.mem_dedup, List.mem_map, List.mem_filter,
    Explained, and_assoc, Option.any_eq_true, beq_iff_eq, Option.map_eq_some_iff]

theorem reasons_sorted (rows : List ImpactRow) (id : Uuid) :
    (reasons rows id).Pairwise ReasonBefore := by
  refine (pairwise_insertionSort_of_nodup reasonLe (List.nodup_dedup _)).imp ?_
  rintro ⟨u, via⟩ ⟨u', via'⟩ ⟨hlt | ⟨heq, hle⟩, hne⟩
  · exact Or.inl hlt
  · refine Or.inr ⟨heq, String.not_le.mp fun hle' => hne ?_⟩
    exact Prod.ext heq (String.le_antisymm hle hle')

/-- The one entry of a decision. -/
theorem affected_eq {rows : List ImpactRow} (hsame : SameReferences rows) {row : ImpactRow}
    (hrow : row ∈ rows) {ref : DecisionRef} (href : row.decision = some ref) :
    affected rows ref.decisionId =
      some ⟨ref.decisionId, ref.action, ref.decidedAt, reasons rows ref.decisionId⟩ := by
  have hmem : ref ∈ rows.filterMap ImpactRow.decision := List.mem_filterMap.mpr ⟨row, hrow, href⟩
  have hsome : ((rows.filterMap ImpactRow.decision).reverse.find?
      fun d => d.decisionId == ref.decisionId).isSome := by
    rw [List.find?_isSome]
    exact ⟨ref, List.mem_reverse.mpr hmem, beq_self_eq_true _⟩
  obtain ⟨found, hfind⟩ := Option.isSome_iff_exists.mp hsome
  have hid : found.decisionId = ref.decisionId := by simpa using List.find?_some hfind
  obtain ⟨other, hother, hfound⟩ :=
    List.mem_filterMap.mp (List.mem_reverse.mp (List.mem_of_find?_eq_some hfind))
  obtain rfl : found = ref := hsame other hother row hrow found hfound ref href hid
  rw [affected, hfind]
  rfl

theorem mem_groupImpact {rows : List ImpactRow} (hsame : SameReferences rows)
    {a : AffectedDecision} : a ∈ (groupImpact rows).2 ↔ ∃ row ∈ rows, ∃ ref,
      row.decision = some ref ∧
        a = ⟨ref.decisionId, ref.action, ref.decidedAt, reasons rows ref.decisionId⟩ := by
  simp only [groupImpact, List.mem_insertionSort, List.mem_filterMap, List.mem_dedup, List.mem_map]
  constructor
  · rintro ⟨id, ⟨ref, ⟨row, hrow, href⟩, rfl⟩, ha⟩
    rw [affected_eq hsame hrow href] at ha
    exact ⟨row, hrow, ref, href, (Option.some.inj ha).symm⟩
  · rintro ⟨row, hrow, ref, href, rfl⟩
    exact ⟨ref.decisionId, ⟨ref, ⟨row, hrow, href⟩, rfl⟩, affected_eq hsame hrow href⟩

theorem grouped_groupImpact {rows : List ImpactRow} (hsame : SameReferences rows) :
    Grouped rows (groupImpact rows) := by
  have honce : ((groupImpact rows).2.map AffectedDecision.decisionId).Nodup :=
    (groupImpact_ids rows).nodup_iff.mpr (List.nodup_dedup _)
  refine ⟨?_, ?_, honce, ?_, ?_, ?_, ?_⟩
  · refine (pairwise_insertionSort_of_nodup uuidLe (List.nodup_dedup _)).imp ?_
    intro a b h
    exact lt_of_le_of_ne h.1 fun heq => h.2 (BitVec.eq_of_toNat_eq heq)
  · intro id
    simp [groupImpact]
  · intro ref
    rw [List.mem_map]
    constructor
    · rintro ⟨a, ha, rfl⟩
      obtain ⟨row, hrow, ref, href, rfl⟩ := (mem_groupImpact hsame).mp ha
      exact ⟨row, hrow, href⟩
    · rintro ⟨row, hrow, href⟩
      exact ⟨_, (mem_groupImpact hsame).mpr ⟨row, hrow, ref, href, rfl⟩, rfl⟩
  · intro a ha
    rw [becauseOf_of_mem_groupImpact ha]
    exact reasons_sorted rows a.decisionId
  · intro a ha reason
    rw [becauseOf_of_mem_groupImpact ha, explained_iff]
  · have hsorted : (groupImpact rows).2.Pairwise fun a b => affectedLe a b = true :=
      List.pairwise_insertionSort _ _
    exact (hsorted.and (List.pairwise_map.mp honce)).imp fun h => before_of_affectedLe h.1 h.2

/-- The rows determine their groups. -/
theorem Grouped.unique {rows : List ImpactRow} {groups others : List Uuid × List AffectedDecision}
    (h : Grouped rows groups) (h' : Grouped rows others) : groups = others := by
  have hreason : ∀ p q, ReasonBefore p q → ¬ReasonBefore q p := by
    rintro p q (hlt | ⟨heq, hlt⟩) (hlt' | ⟨heq', hlt'⟩)
    · exact Nat.lt_asymm hlt hlt'
    · exact Nat.lt_irrefl _ (heq' ▸ hlt)
    · exact Nat.lt_irrefl _ (heq ▸ hlt')
    · exact String.lt_asymm hlt hlt'
  have hbefore : ∀ a b, Before a b → ¬Before b a := by
    intro a b hab hba
    have htimes : a.decidedAt = b.decidedAt := by
      cases ha : a.decidedAt with
      | none => exact (hab.undated ha).symm
      | some t =>
        cases hb : b.decidedAt with
        | none => exact absurd (hba.undated hb) (by simp [ha])
        | some u => rw [le_antisymm (hab.dated t u ha hb) (hba.dated u t hb ha)]
    exact Nat.lt_asymm (hab.ids htimes) (hba.ids htimes.symm)
  have hmem {g g' : List Uuid × List AffectedDecision} (hg : Grouped rows g)
      (hg' : Grouped rows g') {a : AffectedDecision} (ha : a ∈ g.2) : a ∈ g'.2 := by
    have href := (hg'.mem_decisions _).mpr ((hg.mem_decisions _).mp (List.mem_map_of_mem ha))
    obtain ⟨b, hb, hba⟩ := List.mem_map.mp href
    obtain ⟨hid, haction, htime⟩ := DecisionRef.mk.inj hba
    have hbecause : b.becauseOf = a.becauseOf := by
      refine eq_of_mem_iff hreason (hg'.reasons_sorted b hb) (hg.reasons_sorted a ha) fun reason => ?_
      rw [hg'.mem_reasons b hb, hg.mem_reasons a ha, hid]
    have hsame : b = a := by
      obtain ⟨id, action, time, because⟩ := a
      obtain ⟨id', action', time', because'⟩ := b
      simp only at hid haction htime hbecause
      rw [hid, haction, htime, hbecause]
    exact hsame ▸ hb
  refine Prod.ext ?_ ?_
  · refine eq_of_mem_iff (fun a b => Nat.lt_asymm) h.versions_sorted h'.versions_sorted fun id => ?_
    rw [h.mem_versions, h'.mem_versions]
  · exact eq_of_mem_iff hbefore h.decisions_sorted h'.decisions_sorted
      fun a => ⟨hmem h h', hmem h' h⟩

/-- Grouping never fails, keeps everything that the rows say and adds nothing, and gives the same
for every list of the same rows. -/
theorem group_impact_exact {rows : List ImpactRow} (hsame : SameReferences rows) :
    ∃ groups, groupImpactCompared rows = some groups ∧ Grouped rows groups ∧
      ∀ others : List ImpactRow, (∀ row, row ∈ others ↔ row ∈ rows) →
        groupImpactCompared others = some groups := by
  refine ⟨groupImpact rows, groupImpactCompared_eq rows, grouped_groupImpact hsame, ?_⟩
  intro others hmem
  have hothers : SameReferences others := fun row hrow other hother =>
    hsame row ((hmem row).mp hrow) other ((hmem other).mp hother)
  have hgrouped := grouped_groupImpact hothers
  have hrows : Grouped rows (groupImpact others) := by
    refine ⟨hgrouped.versions_sorted, ?_, hgrouped.decisions_once, ?_, hgrouped.reasons_sorted, ?_,
      hgrouped.decisions_sorted⟩
    · intro id
      simp only [hgrouped.mem_versions, hmem]
    · intro ref
      simp only [hgrouped.mem_decisions, hmem]
    · intro a ha reason
      simp only [hgrouped.mem_reasons a ha, Explained, hmem]
  rw [groupImpactCompared_eq, hrows.unique (grouped_groupImpact hsame)]

/-- One dated decision in two ways, and an undated one. -/
def exampleRows : List ImpactRow :=
  [⟨12, "relied_on", some ⟨40, some "approve", none⟩⟩,
   ⟨12, "in_context", some ⟨41, some "deny", some 7⟩⟩,
   ⟨11, "supports", none⟩,
   ⟨12, "in_context", some ⟨41, some "deny", some 7⟩⟩]

theorem group_impact_exact_example : ∃ groups, groupImpactCompared exampleRows = some groups ∧
    Grouped exampleRows groups ∧ ∀ others : List ImpactRow,
      (∀ row, row ∈ others ↔ row ∈ exampleRows) → groupImpactCompared others = some groups :=
  group_impact_exact (by decide)

end ContextLedger.ImpactGrouping
