import Mathlib.Logic.Relation
import Mathlib.Data.List.Pairwise

/-!
Tables whose rows are guarded. A row is added when it is compatible with every other
row, and replaced by one that keeps it and is compatible with the others. Through any
number of such changes every row is kept and the rows stay compatible with each other.
-/
namespace ContextLedger.GuardedTable

/-- What a table promises of its rows. -/
structure Guard (ρ : Type*) where
  keeps : ρ → ρ → Prop
  compatible : ρ → ρ → Prop
  keeps_refl : ∀ r, keeps r r
  keeps_trans : ∀ {r s t}, keeps r s → keeps s t → keeps r t
  compatible_symm : ∀ {r s}, compatible r s → compatible s r

namespace Guard

variable {ρ : Type*} (G : Guard ρ)

inductive Change : List ρ → List ρ → Prop
  | add {rows : List ρ} {row : ρ} (hothers : ∀ r ∈ rows, G.compatible r row) :
      Change rows (rows ++ [row])
  | replace {before after : List ρ} {old new : ρ} (hkeeps : G.keeps old new)
      (hothers : ∀ r ∈ before ++ after, G.compatible r new) :
      Change (before ++ old :: after) (before ++ new :: after)

def Kept (rows rows' : List ρ) : Prop := ∀ r ∈ rows, ∃ r' ∈ rows', G.keeps r r'

variable {G} {rows rows' : List ρ}

theorem Kept.refl (rows : List ρ) : G.Kept rows rows := fun r hr => ⟨r, hr, G.keeps_refl r⟩

theorem Kept.trans {rows'' : List ρ} (h : G.Kept rows rows') (h' : G.Kept rows' rows'') :
    G.Kept rows rows'' := by
  intro r hr
  obtain ⟨s, hs, hrs⟩ := h r hr
  obtain ⟨t, ht, hst⟩ := h' s hs
  exact ⟨t, ht, G.keeps_trans hrs hst⟩

theorem Change.kept (h : G.Change rows rows') : G.Kept rows rows' := by
  cases h with
  | add hothers =>
    intro r hr
    exact ⟨r, List.mem_append_left _ hr, G.keeps_refl r⟩
  | @replace before after old new hkeeps hothers =>
    intro r hr
    rw [List.mem_append, List.mem_cons] at hr
    rcases hr with hr | rfl | hr
    · exact ⟨r, List.mem_append_left _ hr, G.keeps_refl r⟩
    · exact ⟨new, List.mem_append_right _ List.mem_cons_self, hkeeps⟩
    · exact ⟨r, List.mem_append_right _ (List.mem_cons_of_mem _ hr), G.keeps_refl r⟩

theorem Change.pairwise (h : G.Change rows rows') (hrows : rows.Pairwise G.compatible) :
    rows'.Pairwise G.compatible := by
  cases h with
  | @add _ row hothers =>
    refine List.pairwise_append.mpr ⟨hrows, List.pairwise_singleton _ _, fun r hr s hs => ?_⟩
    rw [List.mem_singleton.mp hs]
    exact hothers r hr
  | @replace before after old new hkeeps hothers =>
    obtain ⟨hbefore, hrest, hacross⟩ := List.pairwise_append.mp hrows
    obtain ⟨-, hafter⟩ := List.pairwise_cons.mp hrest
    refine List.pairwise_append.mpr ⟨hbefore, List.pairwise_cons.mpr ⟨fun r hr => ?_, hafter⟩, ?_⟩
    · exact G.compatible_symm (hothers r (List.mem_append_right _ hr))
    · intro r hr s hs
      rcases List.mem_cons.mp hs with rfl | hs
      · exact hothers r (List.mem_append_left _ hr)
      · exact hacross r hr s (List.mem_cons_of_mem _ hs)

/-- Rows are kept through any number of changes. -/
theorem kept_of_changes (h : Relation.ReflTransGen G.Change rows rows') : G.Kept rows rows' := by
  induction h with
  | refl => exact Kept.refl rows
  | tail _ hchange ih => exact ih.trans hchange.kept

/-- Two rows of a table are compatible or the same. -/
theorem compatible_or_eq (hrows : rows.Pairwise G.compatible) {r s : ρ} (hr : r ∈ rows)
    (hs : s ∈ rows) : G.compatible r s ∨ r = s := by
  have hsymm : Std.Symm G.compatible := ⟨fun _ _ => G.compatible_symm⟩
  by_cases heq : r = s
  · exact Or.inr heq
  · exact Or.inl (hrows.forall hr hs heq)

end Guard

end ContextLedger.GuardedTable
