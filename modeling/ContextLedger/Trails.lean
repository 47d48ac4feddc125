import Mathlib.Data.List.Nodup
import Mathlib.Data.List.Pairwise
import Mathlib.Logic.Relation
import Mathlib.Order.Basic
import Mathlib.Order.Nat

/-!
Trails in a finite directed graph, given by its edges: walks that use no edge
twice. Where no vertex has two edges out of it and every edge leads to a vertex
of smaller rank, there is one trail from each vertex that can reach the target,
so counting trails counts these vertices.
-/
namespace ContextLedger.Trails

open Relation

variable {α : Type*}

/-- An edge leads from the first vertex to the second. -/
def Edge (edges : List (α × α)) (a b : α) : Prop := (a, b) ∈ edges

structure Ranked (edges : List (α × α)) (rank : α → ℕ) : Prop where
  functional : (edges.map Prod.fst).Nodup
  descends : ∀ e ∈ edges, rank e.2 < rank e.1

theorem Ranked.sublist {edges edges' : List (α × α)} {rank : α → ℕ} (h : Ranked edges rank)
    (hsub : edges'.Sublist edges) : Ranked edges' rank :=
  ⟨h.functional.sublist (hsub.map Prod.fst), fun e he => h.descends e (hsub.subset he)⟩

theorem Ranked.rightUnique {edges : List (α × α)} {rank : α → ℕ} (h : Ranked edges rank) :
    Relator.RightUnique (Edge edges) := by
  intro a b c hb hc
  exact congrArg Prod.snd (List.inj_on_of_nodup_map h.functional hb hc rfl)

theorem Ranked.lt_of_transGen {edges : List (α × α)} {rank : α → ℕ} (h : Ranked edges rank)
    {a b : α} (hab : TransGen (Edge edges) a b) : rank b < rank a := by
  induction hab with
  | single hedge => exact h.descends _ hedge
  | tail _ hedge ih => exact (h.descends _ hedge).trans ih

theorem Ranked.le_of_reflTransGen {edges : List (α × α)} {rank : α → ℕ} (h : Ranked edges rank)
    {a b : α} (hab : ReflTransGen (Edge edges) a b) : rank b ≤ rank a := by
  rcases reflTransGen_iff_eq_or_transGen.mp hab with rfl | htrans
  · exact le_rfl
  · exact (h.lt_of_transGen htrans).le

/-- Two edges into one vertex do not lie on the way of one vertex. -/
theorem Ranked.eq_of_reach {edges : List (α × α)} {rank : α → ℕ} (h : Ranked edges rank)
    {u a b t : α} (hua : ReflTransGen (Edge edges) u a) (hub : ReflTransGen (Edge edges) u b)
    (hat : Edge edges a t) (hbt : Edge edges b t) : a = b := by
  have hback : ∀ {a b : α}, Edge edges a t → Edge edges b t → ReflTransGen (Edge edges) a b →
      a = b := by
    intro a b hat hbt hab
    rcases ReflTransGen.cases_head hab with rfl | ⟨x, hax, hxb⟩
    · rfl
    · obtain rfl : x = t := h.rightUnique hax hat
      exact absurd (h.descends _ hbt) (not_lt.mpr (h.le_of_reflTransGen hxb))
  rcases ReflTransGen.total_of_right_unique h.rightUnique hua hub with hab | hba
  · exact hback hat hbt hab
  · exact (hback hbt hat hba).symm

variable [DecidableEq α]

/-- The first vertex of each trail into the target, of at most `n` edges. -/
def trailStarts : ℕ → List (α × α) → α → List α
  | 0, _, _ => []
  | n + 1, edges, target =>
    (edges.filter fun e => e.2 = target).flatMap fun e =>
      e.1 :: trailStarts n (edges.erase e) e.1

theorem transGen_of_mem_trailStarts {n : ℕ} {edges : List (α × α)} {target u : α}
    (h : u ∈ trailStarts n edges target) : TransGen (Edge edges) u target := by
  induction n generalizing edges target with
  | zero => exact absurd h List.not_mem_nil
  | succ n ih =>
    obtain ⟨⟨a, b⟩, he, hu⟩ := List.mem_flatMap.mp h
    rw [List.mem_filter, decide_eq_true_eq] at he
    obtain ⟨he, rfl : b = target⟩ := he
    rcases List.mem_cons.mp hu with rfl | hu
    · exact TransGen.single he
    · refine TransGen.tail ?_ he
      exact TransGen.mono (fun x y hxy => List.mem_of_mem_erase hxy) u a (ih hu)

/-- The way to a vertex does not use the edges out of it. -/
theorem Ranked.transGen_erase {edges : List (α × α)} {rank : α → ℕ} (h : Ranked edges rank)
    {u a : α} (hua : TransGen (Edge edges) u a) (t : α) :
    TransGen (Edge (edges.erase (a, t))) u a := by
  have hkeep : ∀ {x y : α}, Edge edges x y → rank a < rank x →
      Edge (edges.erase (a, t)) x y := by
    intro x y hxy hrank
    refine (List.mem_erase_of_ne ?_).mpr hxy
    rintro heq
    obtain rfl : x = a := congrArg Prod.fst heq
    exact lt_irrefl _ hrank
  induction hua using TransGen.head_induction_on with
  | single hedge => exact TransGen.single (hkeep hedge (h.descends _ hedge))
  | head hedge hrest ih =>
    exact TransGen.head (hkeep hedge ((h.lt_of_transGen hrest).trans (h.descends _ hedge))) ih

theorem Ranked.mem_trailStarts {edges : List (α × α)} {rank : α → ℕ} (h : Ranked edges rank)
    {n : ℕ} (hn : edges.length ≤ n) {u target : α} (hu : TransGen (Edge edges) u target) :
    u ∈ trailStarts n edges target := by
  induction n generalizing edges target with
  | zero =>
    rcases TransGen.tail'_iff.mp hu with ⟨a, -, ha⟩
    rw [List.length_eq_zero_iff.mp (Nat.le_zero.mp hn)] at ha
    exact absurd ha List.not_mem_nil
  | succ n ih =>
    obtain ⟨a, hua, hedge⟩ := TransGen.tail'_iff.mp hu
    refine List.mem_flatMap.mpr ⟨(a, target), ?_, ?_⟩
    · rw [List.mem_filter]
      exact ⟨hedge, by simp⟩
    · rcases reflTransGen_iff_eq_or_transGen.mp hua with rfl | htrans
      · exact List.mem_cons_self
      · apply List.mem_cons_of_mem
        apply ih (h.sublist List.erase_sublist) _ (h.transGen_erase htrans target)
        rw [List.length_erase_of_mem hedge]
        omega

/-- Each vertex starts at most one trail. -/
theorem Ranked.nodup_trailStarts {edges : List (α × α)} {rank : α → ℕ} (h : Ranked edges rank)
    (n : ℕ) (target : α) : (trailStarts n edges target).Nodup := by
  induction n generalizing edges target with
  | zero => exact List.nodup_nil
  | succ n ih =>
    have hreach : ∀ e ∈ edges, ∀ u ∈ e.1 :: trailStarts n (edges.erase e) e.1,
        ReflTransGen (Edge edges) u e.1 := by
      intro e _ u hu
      rcases List.mem_cons.mp hu with rfl | hu
      · exact ReflTransGen.refl
      · exact (TransGen.mono (fun x y hxy => List.mem_of_mem_erase hxy) _ _
          (transGen_of_mem_trailStarts hu)).to_reflTransGen
    rw [trailStarts, List.nodup_flatMap]
    refine ⟨?_, ?_⟩
    · intro e he
      have hsub : Ranked (edges.erase e) rank := h.sublist List.erase_sublist
      rw [List.nodup_cons]
      refine ⟨?_, ih hsub _⟩
      intro hself
      exact lt_irrefl _ (hsub.lt_of_transGen (transGen_of_mem_trailStarts hself))
    · have hnodup : (edges.filter fun e => e.2 = target).Nodup :=
        (List.Nodup.of_map _ h.functional).filter _
      refine hnodup.imp_of_mem ?_
      rintro ⟨a, t⟩ ⟨b, t'⟩ ha hb hne u hu hu'
      rw [List.mem_filter, decide_eq_true_eq] at ha hb
      obtain ⟨ha, rfl : t = target⟩ := ha
      obtain ⟨hb, rfl : t' = t⟩ := hb
      have hab : a = b := h.eq_of_reach (hreach _ ha u hu) (hreach _ hb u hu') ha hb
      exact hne (by rw [hab])

/-- A vertex starts one trail if it can reach the target, and none otherwise. -/
theorem Ranked.count_trailStarts {edges : List (α × α)} {rank : α → ℕ} (h : Ranked edges rank)
    {u target : α} (hu : TransGen (Edge edges) u target) :
    (trailStarts edges.length edges target).count u = 1 :=
  List.count_eq_one_of_mem (h.nodup_trailStarts _ _) (h.mem_trailStarts le_rfl hu)

end ContextLedger.Trails
