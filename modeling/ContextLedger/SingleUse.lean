import Mathlib.Data.List.Basic

/-!
Tickets that can be used once. A history, last event first, tells which tickets
were issued, each bound to something, and which were taken in. Taking a ticket in
uses it up, whether or not it is honoured. When no ticket is issued twice and only
outstanding ones are honoured, each is honoured at most once.
-/
namespace ContextLedger.SingleUse

inductive Event (τ π : Type*) where
  | issue (ticket : τ) (bound : π)
  | take (ticket : τ) (honoured : Bool)

namespace Event

variable {τ π : Type*}

def ticket : Event τ π → τ
  | .issue t _ => t
  | .take t _ => t

def isIssue : Event τ π → Bool
  | .issue _ _ => true
  | .take _ _ => false

def isHonoured : Event τ π → Bool
  | .issue _ _ => false
  | .take _ honoured => honoured

def honours [DecidableEq τ] (ticket : τ) (e : Event τ π) : Bool :=
  e.isHonoured && decide (e.ticket = ticket)

end Event

variable {τ π : Type*} [DecidableEq τ]

/-- What a ticket is still good for. -/
def outstanding : List (Event τ π) → τ → Option π
  | [], _ => none
  | .issue t bound :: earlier, ticket => if t = ticket then some bound else outstanding earlier ticket
  | .take t _ :: earlier, ticket => if t = ticket then none else outstanding earlier ticket

/-- No ticket is issued twice, and only an outstanding one is honoured. -/
def Lawful : List (Event τ π) → Prop
  | [] => True
  | .issue t _ :: earlier => Lawful earlier ∧ ∀ e ∈ earlier, e.isIssue = true → e.ticket ≠ t
  | .take t honoured :: earlier =>
    Lawful earlier ∧ (honoured = true → (outstanding earlier t).isSome)

variable {history : List (Event τ π)} {ticket : τ} {bound : π}

theorem Lawful.tail {e : Event τ π} (h : Lawful (e :: history)) : Lawful history := by
  cases e with
  | issue t b => exact h.1
  | take t honoured => exact h.1

/-- Only events about a ticket change what it is good for. -/
theorem outstanding_cons_of_ne {e : Event τ π} (h : e.ticket ≠ ticket) :
    outstanding (e :: history) ticket = outstanding history ticket := by
  cases e with
  | issue t b => exact if_neg h
  | take t honoured => exact if_neg h

theorem issue_mem_of_outstanding (h : outstanding history ticket = some bound) :
    .issue ticket bound ∈ history := by
  induction history with
  | nil => exact absurd h (by simp [outstanding])
  | cons e earlier ih =>
    by_cases he : e.ticket = ticket
    · cases e with
      | issue t b =>
        obtain rfl : t = ticket := he
        rw [outstanding, if_pos rfl] at h
        rw [Option.some.inj h]
        exact List.mem_cons_self
      | take t honoured =>
        obtain rfl : t = ticket := he
        rw [outstanding, if_pos rfl] at h
        exact absurd h (by simp)
    · rw [outstanding_cons_of_ne he] at h
      exact List.mem_cons_of_mem _ (ih h)

/-- A ticket that is outstanding, or was never issued, has not been honoured. -/
theorem not_honoured (hlaw : Lawful history)
    (h : (outstanding history ticket).isSome ∨
      ∀ e ∈ history, e.isIssue = true → e.ticket ≠ ticket) :
    ∀ e ∈ history, e.isHonoured = true → e.ticket ≠ ticket := by
  induction history with
  | nil => simp
  | cons e earlier ih =>
    rw [List.forall_mem_cons] at h ⊢
    by_cases he : e.ticket = ticket
    · cases e with
      | issue t b =>
        obtain rfl : t = ticket := he
        exact ⟨fun hh => absurd hh (by simp [Event.isHonoured]), ih hlaw.1 (Or.inr hlaw.2)⟩
      | take t honoured =>
        obtain rfl : t = ticket := he
        obtain hout | ⟨-, hfresh⟩ := h
        · rw [outstanding, if_pos rfl] at hout
          exact absurd hout (by simp)
        · refine ⟨fun hh => ?_, ih hlaw.1 (Or.inr hfresh)⟩
          obtain ⟨b, hb⟩ := Option.isSome_iff_exists.mp (hlaw.2 hh)
          exact absurd rfl (hfresh _ (issue_mem_of_outstanding hb) rfl)
    · refine ⟨fun _ => he, ih hlaw.tail ?_⟩
      rcases h with hout | ⟨-, hfresh⟩
      · exact Or.inl (by rwa [outstanding_cons_of_ne he] at hout)
      · exact Or.inr hfresh

/-- Each ticket is honoured at most once. -/
theorem honoured_once (hlaw : Lawful history) (ticket : τ) :
    (history.filter (Event.honours ticket)).length ≤ 1 := by
  induction history with
  | nil => simp
  | cons e earlier ih =>
    by_cases he : e.isHonoured = true ∧ e.ticket = ticket
    · have hnone : earlier.filter (Event.honours ticket) = [] := by
        refine List.filter_eq_nil_iff.mpr fun e' he' hboth => ?_
        rw [Event.honours, Bool.and_eq_true, decide_eq_true_eq] at hboth
        cases e with
        | issue t b => exact absurd he.1 (by simp [Event.isHonoured])
        | take t honoured =>
          obtain rfl : t = ticket := he.2
          exact not_honoured hlaw.1 (Or.inl (hlaw.2 he.1)) e' he' hboth.1 hboth.2
      rw [List.filter_cons_of_pos (by simpa [Event.honours] using he), hnone]
      exact Nat.le_refl 1
    · rw [List.filter_cons_of_neg (by simpa [Event.honours] using he)]
      exact ih hlaw.tail

end ContextLedger.SingleUse
