import ContextLedger.Facts
import ContextLedger.Bitemporal

/-!
The versions of one fact as a chain, and what a write appends to it. A chain is
numbered from one, each version supersedes the one before it, and the spans of
neighbours follow one another on both time axes. A write that appends to the
latest version, closing it when it is open, leaves a chain.
-/
namespace ContextLedger.VersionChain

open Values FactRules Schema Facts Bitemporal

def span (v : FactVersion) : Span Instant Instant :=
  ⟨v.validFrom, v.validUntil, v.recordedAt, v.validUntilRecordedAt⟩

/-- `next` directly follows `previous` in the lineage and on both time axes. -/
structure Successor (previous next : FactVersion) : Prop where
  number : next.version = previous.version + 1
  supersedes : next.supersedesId = some previous.id
  follows : (span previous).Follows (span next)

structure Chain (vs : List FactVersion) : Prop where
  first : ∀ v, vs.head? = some v → v.version = 1 ∧ v.supersedesId = none
  successors : vs.IsChain Successor
  wellFormed : ∀ v ∈ vs, (span v).WellFormed

theorem chain_nil : Chain [] := ⟨by simp, by simp, by simp⟩

theorem chain_singleton {v : FactVersion} (hnumber : v.version = 1)
    (hsupersedes : v.supersedesId = none) (hspan : (span v).WellFormed) : Chain [v] := by
  refine ⟨?_, by simp, by simpa using hspan⟩
  intro w hw
  obtain rfl : v = w := by simpa using hw
  exact ⟨hnumber, hsupersedes⟩

/-- Closing a version changes only its end. -/
theorem span_close (v : FactVersion) (u r : Instant) :
    span (v.close u r) = ⟨v.validFrom, some u, v.recordedAt, some r⟩ := rfl

private theorem Successor.close {p v : FactVersion} (h : Successor p v) (u r : Instant) :
    Successor p (v.close u r) := ⟨h.number, h.supersedes, h.follows⟩

theorem Chain.close_last {init : List FactVersion} {v : FactVersion} (h : Chain (init ++ [v]))
    {u r : Instant} (hu : v.validFrom < u) : Chain (init ++ [v.close u r]) := by
  refine ⟨?_, ?_, ?_⟩
  · intro w hw
    cases init with
    | nil =>
      obtain rfl : v.close u r = w := by simpa using hw
      exact h.first v rfl
    | cons a init => exact h.first w (by simpa using hw)
  · have hchain := List.isChain_append.mp h.successors
    refine List.isChain_append.mpr ⟨hchain.1, by simp, ?_⟩
    intro p hp w hw
    obtain rfl : v.close u r = w := by simpa using hw
    exact (hchain.2.2 p hp v (by simp)).close u r
  · intro w hw
    rcases List.mem_append.mp hw with hw | hw
    · exact h.wellFormed w (List.mem_append_left _ hw)
    · obtain rfl : w = v.close u r := by simpa using hw
      refine ⟨?_, by simp [span_close]⟩
      intro u' hu'
      obtain rfl : u = u' := by simpa [span_close] using hu'
      exact hu

theorem Chain.snoc {init : List FactVersion} {v w : FactVersion} (h : Chain (init ++ [v]))
    (hsucc : Successor v w) (hspan : (span w).WellFormed) : Chain (init ++ [v] ++ [w]) := by
  refine ⟨?_, ?_, ?_⟩
  · intro x hx
    refine h.first x ?_
    cases init with
    | nil => simpa using hx
    | cons a init => simpa using hx
  · refine List.isChain_append.mpr ⟨h.successors, by simp, ?_⟩
    intro p hp q hq
    obtain rfl : v = p := by simpa using hp
    obtain rfl : w = q := by simpa using hq
    exact hsucc
  · intro x hx
    rcases List.mem_append.mp hx with hx | hx
    · exact h.wellFormed x hx
    · obtain rfl : x = w := by simpa using hx
      exact hspan

/-- Version numbers run from one in insertion order. -/
theorem Chain.numbers {vs : List FactVersion} (h : Chain vs) :
    vs.map FactVersion.version = List.range' 1 vs.length := by
  cases vs with
  | nil => rfl
  | cons v vs =>
    have hfirst := (h.first v rfl).1
    have key : ∀ (w : FactVersion) (ws : List FactVersion), (w :: ws).IsChain Successor →
        (w :: ws).map FactVersion.version = List.range' w.version (w :: ws).length := by
      intro w ws
      induction ws generalizing w with
      | nil => intro _; rfl
      | cons x ws ih =>
        intro hchain
        obtain ⟨hwx, hrest⟩ := List.isChain_cons_cons.mp hchain
        rw [List.map_cons, ih x hrest, hwx.number]
        rfl
    rw [key v vs h.successors, hfirst]

theorem Chain.pairwise_precedes {vs : List FactVersion} (h : Chain vs) :
    vs.Pairwise fun p n => (span p).Precedes (span n) := by
  have hmap : (vs.map span).IsChain Span.Precedes := by
    rw [List.isChain_map]
    exact h.successors.imp fun p n hpn => hpn.follows.precedes
  exact List.pairwise_map.mp (List.isChain_iff_pairwise.mp hmap)

theorem Chain.eq_of_version {vs : List FactVersion} (h : Chain vs) {v w : FactVersion}
    (hv : v ∈ vs) (hw : w ∈ vs) (hvw : v.version = w.version) : v = w := by
  have hnodup : (vs.map FactVersion.version).Nodup := by
    rw [h.numbers]
    exact List.nodup_range'
  exact List.inj_on_of_nodup_map hnodup hv hw hvw

/-- Two versions of a chain are ordered one way or the other. -/
theorem Chain.precedes_or {vs : List FactVersion} (h : Chain vs) {v w : FactVersion}
    (hv : v ∈ vs) (hw : w ∈ vs) (hne : v ≠ w) :
    (span v).Precedes (span w) ∨ (span w).Precedes (span v) := by
  let either (a b : FactVersion) : Prop :=
    (span a).Precedes (span b) ∨ (span b).Precedes (span a)
  have hsymm : Std.Symm either := ⟨fun _ _ hab => hab.symm⟩
  have hpair : vs.Pairwise either := h.pairwise_precedes.imp Or.inl
  exact hpair.forall hv hw hne

theorem Chain.superseded_mem {vs : List FactVersion} (h : Chain vs) {v : FactVersion} {p : Uuid}
    (hv : v ∈ vs) (hp : v.supersedesId = some p) :
    ∃ u ∈ vs, u.id = p ∧ v.version = u.version + 1 := by
  cases vs with
  | nil => exact absurd hv (by simp)
  | cons a vs =>
    have key : ∀ (a : FactVersion) (ws : List FactVersion), (a :: ws).IsChain Successor →
        ∀ w ∈ ws, w.supersedesId = some p → ∃ u ∈ a :: ws, u.id = p ∧ w.version = u.version + 1 := by
      intro a ws
      induction ws generalizing a with
      | nil => intro _ w hw; exact absurd hw (by simp)
      | cons b ws ih =>
        intro hchain w hw hwp
        obtain ⟨hab, hrest⟩ := List.isChain_cons_cons.mp hchain
        rcases List.mem_cons.mp hw with rfl | hw
        · refine ⟨a, by simp, ?_, hab.number⟩
          exact Option.some.inj (hab.supersedes.symm.trans hwp)
        · obtain ⟨u, hu, hup⟩ := ih b hrest w hw hwp
          exact ⟨u, List.mem_cons_of_mem a hu, hup⟩
    rcases List.mem_cons.mp hv with rfl | hv
    · rw [(h.first v rfl).2] at hp
      exact absurd hp (by simp)
    · exact key a vs h.successors v hv hp

/-- The version with the highest number is the last one inserted. -/
theorem Chain.argmax_version {vs : List FactVersion} (h : Chain vs) :
    vs.argmax FactVersion.version = vs.getLast? := by
  rcases List.eq_nil_or_concat vs with rfl | ⟨init, v, rfl⟩
  · rfl
  · rw [List.concat_eq_append] at h ⊢
    rw [List.argmax_concat, List.getLast?_concat]
    cases hbest : init.argmax FactVersion.version with
    | none => rfl
    | some b =>
      have hb : b ∈ init := List.argmax_mem hbest
      have hnumbers := h.numbers
      have hlt : b.version < v.version := by
        obtain ⟨i, hi, rfl⟩ := List.getElem_of_mem hb
        have hv : v.version = 1 + init.length := by
          have := congrArg (fun l => l[init.length]?) hnumbers
          simpa using this
        have hbi : init[i].version = 1 + i := by
          have := congrArg (fun l => l[i]?) hnumbers
          simpa [hi, List.getElem?_append_left, Nat.lt_succ_of_lt hi] using this
        omega
      simp [hlt]

end ContextLedger.VersionChain
