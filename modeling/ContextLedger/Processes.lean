import Mathlib.Data.List.Perm.Basic

/-!
Processes kept in a list and named by their index. A step replaces one of them,
and a new one is added at the end. A relation that keeps every two processes
apart survives both when the replaced or added one is apart from the others.
-/
namespace ContextLedger.Processes

variable {α : Type*}

/-- Every two processes are related, whichever comes first. -/
def Apart (R : α → α → Prop) (ps : List α) : Prop :=
  ∀ (i j : ℕ) (p q : α), ps[i]? = some p → ps[j]? = some q → i ≠ j → R p q

theorem apart_nil (R : α → α → Prop) : Apart R [] := by
  intro i j p q hp
  exact absurd hp (by simp)

theorem mem_eraseIdx_of_ne {ps : List α} {i j : ℕ} {q : α} (hq : ps[j]? = some q) (hij : i ≠ j) :
    q ∈ ps.eraseIdx i := by
  rw [List.mem_eraseIdx_iff_getElem?]
  exact ⟨j, Ne.symm hij, hq⟩

/-- A process of the new list is the new one or another one of the old list. -/
theorem mem_set_cases {ps : List α} {i : ℕ} {p q : α} (h : q ∈ ps.set i p) :
    q = p ∨ ∃ j, i ≠ j ∧ ps[j]? = some q := by
  obtain ⟨j, hj⟩ := List.mem_iff_getElem?.mp h
  rw [List.getElem?_set] at hj
  by_cases hij : i = j
  · rw [if_pos hij] at hj
    split at hj
    · exact Or.inl (Option.some.inj hj).symm
    · exact absurd hj (by simp)
  · rw [if_neg hij] at hj
    exact Or.inr ⟨j, hij, hj⟩

/-- The processes other than the replaced one stay. -/
theorem mem_set_of_ne {ps : List α} {i : ℕ} {p p' q : α} (hp : ps[i]? = some p) (hq : q ∈ ps)
    (hne : q ≠ p) : q ∈ ps.set i p' := by
  obtain ⟨j, hj⟩ := List.mem_iff_getElem?.mp hq
  have hij : i ≠ j := by
    rintro rfl
    exact hne (Option.some.inj (hj.symm.trans hp))
  exact List.mem_iff_getElem?.mpr ⟨j, by rw [List.getElem?_set, if_neg hij, hj]⟩

theorem Apart.set {R : α → α → Prop} (hsymm : ∀ p q, R p q → R q p) {ps : List α}
    (h : Apart R ps) {i : ℕ} {p' : α} (hnew : ∀ j q, ps[j]? = some q → i ≠ j → R p' q) :
    Apart R (ps.set i p') := by
  intro j k p q hp hq hjk
  rw [List.getElem?_set] at hp hq
  by_cases hij : i = j
  · rw [if_pos hij] at hp
    split at hp
    · obtain rfl := Option.some.inj hp
      rw [if_neg (hij ▸ hjk)] at hq
      exact hnew k q hq (hij ▸ hjk)
    · exact absurd hp (by simp)
  · rw [if_neg hij] at hp
    by_cases hik : i = k
    · rw [if_pos hik] at hq
      split at hq
      · obtain rfl := Option.some.inj hq
        exact hsymm _ _ (hnew j p hp hij)
      · exact absurd hq (by simp)
    · rw [if_neg hik] at hq
      exact h j k p q hp hq hjk

theorem Apart.append {R : α → α → Prop} (hsymm : ∀ p q, R p q → R q p) {ps : List α}
    (h : Apart R ps) {p' : α} (hnew : ∀ q ∈ ps, R p' q) : Apart R (ps ++ [p']) := by
  have hcases : ∀ {j : ℕ} {q : α}, (ps ++ [p'])[j]? = some q →
      ps[j]? = some q ∨ (j = ps.length ∧ q = p') := by
    intro j q hq
    rw [List.getElem?_append] at hq
    split at hq
    · exact Or.inl hq
    · rename_i hlength
      rw [List.getElem?_singleton] at hq
      split at hq
      · exact Or.inr ⟨by omega, (Option.some.inj hq).symm⟩
      · exact absurd hq (by simp)
  intro i j p q hp hq hij
  rcases hcases hp with hold | ⟨hi, rfl⟩
  · rcases hcases hq with hold' | ⟨-, rfl⟩
    · exact h i j p q hold hold' hij
    · exact hsymm _ _ (hnew p (List.mem_of_getElem? hold))
  · rcases hcases hq with hold' | ⟨hj, -⟩
    · exact hnew q (List.mem_of_getElem? hold')
    · exact absurd (hi.trans hj.symm) hij

/-- What the processes hold together is what one holds and what the others hold. -/
theorem perm_flatMap_eraseIdx {β : Type*} (held : α → List β) {ps : List α} {i : ℕ} {p : α}
    (hp : ps[i]? = some p) : (ps.flatMap held).Perm (held p ++ (ps.eraseIdx i).flatMap held) := by
  obtain ⟨hi, rfl⟩ := List.getElem?_eq_some_iff.mp hp
  exact ((List.getElem_cons_eraseIdx_perm hi).flatMap_right held).symm

/-- A process that is replaced leaves what the others hold. -/
theorem perm_flatMap_set_eraseIdx {β : Type*} (held : α → List β) {ps : List α} {i : ℕ} {p : α}
    (hp : ps[i]? = some p) (p' : α) :
    ((ps.set i p').flatMap held).Perm (held p' ++ (ps.eraseIdx i).flatMap held) := by
  have hp' : (ps.set i p')[i]? = some p' :=
    List.getElem?_set_self (List.getElem?_eq_some_iff.mp hp).1
  have hperm := perm_flatMap_eraseIdx held hp'
  rwa [List.eraseIdx_set_eq] at hperm

theorem perm_flatMap_set {β : Type*} (held : α → List β) {ps : List α} {i : ℕ} {p : α}
    (hp : ps[i]? = some p) : ∃ rest, (ps.flatMap held).Perm (held p ++ rest) ∧
      ∀ p', ((ps.set i p').flatMap held).Perm (held p' ++ rest) :=
  ⟨_, perm_flatMap_eraseIdx held hp, perm_flatMap_set_eraseIdx held hp⟩

end ContextLedger.Processes
