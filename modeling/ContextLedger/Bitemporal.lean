import Mathlib.Order.Lattice
import Mathlib.Data.List.Chain
import Mathlib.Data.List.Pairwise

/-!
Bitemporal spans over two linear orders: valid time, in which a span is the
half-open interval from its start to its optional end, and transaction time,
in which the span and its end were each learned. A span seen as known at an
instant hides an end learned later. In a list of spans each of which ends, and
whose end is learned, no later than its successor starts and is learned, at
most one span is believed at any pair of instants.
-/
namespace ContextLedger.Bitemporal

structure Span (T K : Type*) where
  validFrom : T
  validUntil : Option T
  recordedAt : K
  endRecordedAt : Option K

namespace Span

variable {T K : Type*} [LinearOrder T] [LinearOrder K]

def Contains (s : Span T K) (t : T) : Prop :=
  s.validFrom ≤ t ∧ ∀ u, s.validUntil = some u → t < u

/-- `none` stands for everything learned so far. -/
def Known (s : Span T K) (k : Option K) : Prop :=
  ∀ known, k = some known → s.recordedAt ≤ known

/-- The end counts only once it has been learned. -/
def EndKnown (s : Span T K) (k : Option K) : Prop :=
  ∀ known e, k = some known → s.endRecordedAt = some e → e ≤ known

/-- Known at `k`, and containing `t` as far as its end is known at `k`. -/
def Believed (s : Span T K) (t : T) (k : Option K) : Prop :=
  s.Known k ∧ s.validFrom ≤ t ∧ (s.EndKnown k → ∀ u, s.validUntil = some u → t < u)

structure WellFormed (s : Span T K) : Prop where
  ordered : ∀ u, s.validUntil = some u → s.validFrom < u
  together : s.validUntil = none ↔ s.endRecordedAt = none

/-- `s` is wholly before `r` on both axes, its end included. -/
def Precedes (s r : Span T K) : Prop :=
  s.validFrom < r.validFrom ∧ s.recordedAt < r.recordedAt ∧
    ∃ u e, s.validUntil = some u ∧ s.endRecordedAt = some e ∧
      u ≤ r.validFrom ∧ e ≤ r.recordedAt

/-- `r` comes directly after `s`: the end of `s` was fixed when `s` was
recorded, or it was learned with `r` and lies where `r` starts. -/
def Follows (s r : Span T K) : Prop :=
  s.validFrom < r.validFrom ∧ s.recordedAt < r.recordedAt ∧
    ∃ u, s.validUntil = some u ∧ u ≤ r.validFrom ∧
      (s.endRecordedAt = some s.recordedAt ∨
        (s.endRecordedAt = some r.recordedAt ∧ u = r.validFrom))

theorem Follows.precedes {s r : Span T K} (h : Follows s r) : Precedes s r := by
  obtain ⟨hvalid, hrecorded, u, hu, hle, hend⟩ := h
  rcases hend with hown | ⟨hnext, _⟩
  · exact ⟨hvalid, hrecorded, u, s.recordedAt, hu, hown, hle, le_of_lt hrecorded⟩
  · exact ⟨hvalid, hrecorded, u, r.recordedAt, hu, hnext, hle, le_refl _⟩

theorem Precedes.trans {a b c : Span T K} (hab : Precedes a b) (hbc : Precedes b c) :
    Precedes a c := by
  obtain ⟨hvalid, hrecorded, u, e, hu, he, hule, hele⟩ := hab
  refine ⟨lt_trans hvalid hbc.1, lt_trans hrecorded hbc.2.1, u, e, hu, he, ?_, ?_⟩
  · exact le_trans hule (le_of_lt hbc.1)
  · exact le_trans hele (le_of_lt hbc.2.1)

instance : Trans (Precedes (T := T) (K := K)) Precedes Precedes where
  trans := Precedes.trans

/-- Once the later span is known, so is the end of the earlier one. -/
theorem Precedes.not_both_believed {s r : Span T K} (h : Precedes s r) (t : T) (k : Option K)
    (hs : s.Believed t k) (hr : r.Believed t k) : False := by
  obtain ⟨-, -, u, e, hu, he, hule, hele⟩ := h
  have hend : s.EndKnown k := by
    intro known e' hk he'
    obtain rfl : e = e' := Option.some.inj (he ▸ he')
    exact le_trans hele (hr.1 known hk)
  have hlt : t < u := hs.2.2 hend u hu
  exact absurd (le_trans hule hr.2.1) (not_le_of_gt hlt)

theorem Precedes.disjoint {s r : Span T K} (h : Precedes s r) (t : T)
    (hs : s.Contains t) (hr : r.Contains t) : False := by
  obtain ⟨-, -, u, e, hu, -, hule, -⟩ := h
  exact absurd (le_trans hule hr.1) (not_le_of_gt (hs.2 u hu))

end Span

section Lists

variable {α : Type*}

/-- A filter whose members exclude one another pairwise has at most one element. -/
theorem length_filter_le_one {p : α → Bool} {l : List α}
    (h : l.Pairwise fun a b => p a = true → p b = true → False) :
    (l.filter p).length ≤ 1 := by
  induction l with
  | nil => simp
  | cons a l ih =>
    obtain ⟨hhead, htail⟩ := List.pairwise_cons.mp h
    by_cases ha : p a = true
    · have hnone : l.filter p = [] := by
        rw [List.filter_eq_nil_iff]
        intro b hb hpb
        exact hhead b hb ha hpb
      simp [List.filter_cons_of_pos ha, hnone]
    · simpa [List.filter_cons_of_neg ha] using ih htail

end Lists

end ContextLedger.Bitemporal
