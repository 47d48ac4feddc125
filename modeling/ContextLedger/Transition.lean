import Mathlib.Data.Option.Basic
import Mathlib.Data.List.Basic

/-!
Labelled transition systems whose step is a partial function: a label either
cannot be taken in a state or determines the next one. Runs are finite lists of
labels. The invariant rules below turn a fact about one step into a fact about
every run, also for runs whose steps are restricted by a condition on the state
in which each step is taken.
-/
namespace ContextLedger.Transition

/-- The start states and the partial step function of a system. -/
structure System (σ ι : Type*) where
  initial : σ → Prop
  step : σ → ι → Option σ

namespace System

variable {σ ι : Type*}

def run (M : System σ ι) : σ → List ι → Option σ
  | s, [] => some s
  | s, a :: rest => (M.step s a).bind fun s' => run M s' rest

/-- Every step of the run meets `allowed` in the state it is taken from. -/
def RunMeets (M : System σ ι) (allowed : σ → ι → Prop) : σ → List ι → Prop
  | _, [] => True
  | s, a :: rest => allowed s a ∧ ∀ s', M.step s a = some s' → RunMeets M allowed s' rest

/-- A condition that can be checked in each state can be checked along a run. -/
instance decidableRunMeets (M : System σ ι) (allowed : σ → ι → Prop)
    [∀ s a, Decidable (allowed s a)] :
    ∀ (s : σ) (trace : List ι), Decidable (M.RunMeets allowed s trace)
  | _, [] => isTrue trivial
  | s, a :: rest =>
    match h : M.step s a with
    | none => decidable_of_iff (allowed s a) (by simp [RunMeets, h])
    | some s' =>
      have : Decidable (M.RunMeets allowed s' rest) := decidableRunMeets M allowed s' rest
      decidable_of_iff (allowed s a ∧ M.RunMeets allowed s' rest) (by simp [RunMeets, h])

def Reachable (M : System σ ι) (s : σ) : Prop :=
  ∃ s₀ trace, M.initial s₀ ∧ M.run s₀ trace = some s

@[simp] theorem run_nil (M : System σ ι) (s : σ) : M.run s [] = some s := rfl

theorem run_cons (M : System σ ι) (s : σ) (a : ι) (rest : List ι) :
    M.run s (a :: rest) = (M.step s a).bind fun s' => M.run s' rest := rfl

theorem run_cons_eq_some (M : System σ ι) {s t : σ} {a : ι} {rest : List ι} :
    M.run s (a :: rest) = some t ↔ ∃ s', M.step s a = some s' ∧ M.run s' rest = some t := by
  rw [run_cons, Option.bind_eq_some_iff]

theorem run_append (M : System σ ι) (s : σ) (first rest : List ι) :
    M.run s (first ++ rest) = (M.run s first).bind fun s' => M.run s' rest := by
  induction first generalizing s with
  | nil => rfl
  | cons a first ih =>
    rw [List.cons_append, run_cons, run_cons, Option.bind_assoc]
    congr 1
    funext s'
    exact ih s'

/-- A weaker condition is met by the same runs. -/
theorem RunMeets.mono (M : System σ ι) {allowed allowed' : σ → ι → Prop}
    (himp : ∀ s a, allowed s a → allowed' s a) {s : σ} {trace : List ι}
    (h : M.RunMeets allowed s trace) : M.RunMeets allowed' s trace := by
  induction trace generalizing s with
  | nil => trivial
  | cons a rest ih => exact ⟨himp s a h.1, fun s' hs' => ih (h.2 s' hs')⟩

theorem RunMeets.and (M : System σ ι) {first second : σ → ι → Prop} {s : σ} {trace : List ι}
    (h : M.RunMeets first s trace) (h' : M.RunMeets second s trace) :
    M.RunMeets (fun s a => first s a ∧ second s a) s trace := by
  induction trace generalizing s with
  | nil => trivial
  | cons a rest ih => exact ⟨⟨h.1, h'.1⟩, fun s' hs' => ih (h.2 s' hs') (h'.2 s' hs')⟩

/-- A condition on the labels alone. -/
theorem runMeets_of_forall (M : System σ ι) {allowed : σ → ι → Prop} {s : σ} {trace : List ι}
    (h : ∀ a ∈ trace, ∀ s, allowed s a) : M.RunMeets allowed s trace := by
  induction trace generalizing s with
  | nil => trivial
  | cons a rest ih =>
    exact ⟨h a List.mem_cons_self s, fun s' _ => ih fun b hb => h b (List.mem_cons_of_mem a hb)⟩

/-- What one permitted step preserves, every run of permitted steps preserves. -/
theorem run_preserves_of_meets (M : System σ ι) (allowed : σ → ι → Prop) (inv : σ → Prop)
    (hstep : ∀ s a s', inv s → allowed s a → M.step s a = some s' → inv s')
    {s t : σ} {trace : List ι} (hrun : M.run s trace = some t)
    (hmeets : M.RunMeets allowed s trace) (hs : inv s) : inv t := by
  induction trace generalizing s with
  | nil =>
    obtain rfl : s = t := Option.some.inj hrun
    exact hs
  | cons a rest ih =>
    obtain ⟨s', hs', hrest⟩ := (M.run_cons_eq_some).mp hrun
    exact ih hrest (hmeets.2 s' hs') (hstep s a s' hs hmeets.1 hs')

theorem run_preserves (M : System σ ι) (inv : σ → Prop)
    (hstep : ∀ s a s', inv s → M.step s a = some s' → inv s')
    {s t : σ} {trace : List ι} (hrun : M.run s trace = some t) (hs : inv s) : inv t := by
  induction trace generalizing s with
  | nil =>
    obtain rfl : s = t := Option.some.inj hrun
    exact hs
  | cons a rest ih =>
    obtain ⟨s', hs', hrest⟩ := (M.run_cons_eq_some).mp hrun
    exact ih hrest (hstep s a s' hs hs')

/-- An invariant of the start states and of every step holds in every reachable state. -/
theorem reachable_invariant (M : System σ ι) (inv : σ → Prop)
    (hinit : ∀ s, M.initial s → inv s)
    (hstep : ∀ s a s', inv s → M.step s a = some s' → inv s')
    {s : σ} (hs : M.Reachable s) : inv s := by
  obtain ⟨s₀, trace, hs₀, hrun⟩ := hs
  exact M.run_preserves inv hstep hrun (hinit s₀ hs₀)

theorem Reachable.extend (M : System σ ι) {s t : σ} {trace : List ι}
    (hs : M.Reachable s) (hrun : M.run s trace = some t) : M.Reachable t := by
  obtain ⟨s₀, first, hs₀, hfirst⟩ := hs
  refine ⟨s₀, first ++ trace, hs₀, ?_⟩
  rw [run_append, hfirst]
  exact hrun

end System

end ContextLedger.Transition
