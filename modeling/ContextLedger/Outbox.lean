import Mathlib.Data.List.Sort
import ContextLedger.Processes

/-!
A queue of numbered events that several workers take from. A worker claims the
events with the least numbers that no other worker has claimed, and deletes them
when it is done; until then they stay in the queue. What is claimed is in the
queue, and no event is held by two workers.
-/
namespace ContextLedger.Outbox

variable {ε ω : Type*} (id : ε → ℕ)

/-- `SELECT ... ORDER BY id LIMIT n FOR UPDATE SKIP LOCKED`. -/
def claim (queue skip : List ε) (eligible : ε → Bool) (n : ℕ) : List ε :=
  ((queue.filter fun e => eligible e && !(skip.map id).contains (id e)).insertionSort
    fun a b => id a ≤ id b).take n

/-- `DELETE ... WHERE id IN (...)`. -/
def delete (queue events : List ε) : List ε :=
  queue.filter fun e => !(events.map id).contains (id e)

/-- The claims of one worker hold no event of the other. -/
def Disjoint (held : ω → List ε) (p q : ω) : Prop := ∀ e ∈ held p, ∀ e' ∈ held q, id e ≠ id e'

variable {id}

theorem mem_of_mem_claim {queue skip : List ε} {eligible : ε → Bool} {n : ℕ} {e : ε}
    (h : e ∈ claim id queue skip eligible n) :
    e ∈ queue ∧ eligible e = true ∧ ∀ e' ∈ skip, id e' ≠ id e := by
  have hsorted := List.mem_of_mem_take h
  rw [List.mem_insertionSort, List.mem_filter, Bool.and_eq_true, Bool.not_eq_true',
    List.contains_eq_mem, decide_eq_false_iff_not, List.mem_map] at hsorted
  obtain ⟨hqueue, heligible, hskip⟩ := hsorted
  exact ⟨hqueue, heligible, fun e' he' heq => hskip ⟨e', he', heq⟩⟩

/-- A claim is in the order of the numbers. -/
theorem pairwise_claim {queue : List ε} (h : (queue.map id).Nodup) (skip : List ε)
    (eligible : ε → Bool) (n : ℕ) :
    (claim id queue skip eligible n).Pairwise fun a b => id a < id b := by
  have hsorted := List.pairwise_insertionSort (fun a b => id a ≤ id b)
    (queue.filter fun e => eligible e && !(skip.map id).contains (id e))
  have hnodup : (((queue.filter fun e => eligible e && !(skip.map id).contains (id e)).insertionSort
      fun a b => id a ≤ id b).map id).Nodup :=
    ((List.perm_insertionSort _ _).map id).nodup_iff.mpr (h.sublist (List.filter_sublist.map id))
  have hlt := hsorted.imp₂ (fun a b hle hne => lt_of_le_of_ne hle hne) (List.pairwise_map.mp hnodup)
  exact hlt.sublist (List.take_sublist _ _)

/-- What comes before a claimed event is claimed, unless another worker holds it. -/
theorem mem_claim_of_lt {queue skip : List ε} {eligible : ε → Bool} {n : ℕ} {e e' : ε}
    (he' : e' ∈ claim id queue skip eligible n) (he : e ∈ queue) (heligible : eligible e = true)
    (hskip : ∀ x ∈ skip, id x ≠ id e) (hlt : id e < id e') :
    e ∈ claim id queue skip eligible n := by
  have hnot : id e ∉ skip.map id := by
    intro hmem
    obtain ⟨x, hx, hid⟩ := List.mem_map.mp hmem
    exact hskip x hx hid
  have hmem : e ∈ (queue.filter fun e => eligible e && !(skip.map id).contains (id e)).insertionSort
      fun a b => id a ≤ id b := by
    rw [List.mem_insertionSort, List.mem_filter]
    exact ⟨he, by simp [heligible, hnot]⟩
  have hsorted := List.pairwise_insertionSort (fun a b => id a ≤ id b)
    (queue.filter fun e => eligible e && !(skip.map id).contains (id e))
  rw [← List.take_append_drop n (List.insertionSort _ _)] at hmem hsorted
  rcases List.mem_append.mp hmem with htake | hdrop
  · exact htake
  · exact absurd ((List.pairwise_append.mp hsorted).2.2 e' he' e hdrop) (Nat.not_le.mpr hlt)

theorem mem_delete {queue events : List ε} {e : ε} :
    e ∈ delete id queue events ↔ e ∈ queue ∧ ∀ e' ∈ events, id e' ≠ id e := by
  rw [delete, List.mem_filter, Bool.not_eq_true', List.contains_eq_mem, decide_eq_false_iff_not,
    List.mem_map]
  constructor
  · rintro ⟨hqueue, hnot⟩
    exact ⟨hqueue, fun e' he' heq => hnot ⟨e', he', heq⟩⟩
  · rintro ⟨hqueue, hnot⟩
    exact ⟨hqueue, fun ⟨e', he', heq⟩ => hnot e' he' heq⟩

theorem Disjoint.symm {held : ω → List ε} (p q : ω) (h : Disjoint id held p q) :
    Disjoint id held q p := fun e he e' he' => (h e' he' e he).symm

/-- Numbers name events. -/
theorem eq_of_id_eq {queue : List ε} (h : (queue.map id).Nodup) {e e' : ε} (he : e ∈ queue)
    (he' : e' ∈ queue) (hid : id e = id e') : e = e' :=
  List.inj_on_of_nodup_map h he he' hid

theorem nodup_delete {queue : List ε} (h : (queue.map id).Nodup) (events : List ε) :
    ((delete id queue events).map id).Nodup :=
  h.sublist (List.filter_sublist.map id)

end ContextLedger.Outbox
