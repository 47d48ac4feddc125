import ContextLedger.Validation

/-!
The supersession rules of temporal facts. A fact only accumulates versions; a
new version must start strictly after the latest one started, closes it when it
is open-ended, and must not start before its end when it has one.
-/
namespace ContextLedger.FactRules

open Values

/-- The half-open interval `[validFrom, validUntil)`. -/
structure ValidityWindow where
  validFrom : Instant
  validUntil : Option Instant
  ordered : ∀ u, validUntil = some u → validFrom < u
  deriving DecidableEq

namespace ValidityWindow

def create (validFrom : Instant) (validUntil : Option Instant) : Result ValidityWindow :=
  if h : ∀ u, validUntil = some u → validFrom < u then .ok ⟨validFrom, validUntil, h⟩
  else validationFailed "valid_until must be later than valid_from"

/-- The window of a request, whose timestamps must carry a timezone. -/
def ofRequest (validFrom : Datetime) (validUntil : Option Datetime) : Result ValidityWindow := do
  let start ← requireAware validFrom "valid_from"
  let finish ← requireAwareOption validUntil "valid_until"
  create start finish

def contains (window : ValidityWindow) (instant : Instant) : Bool :=
  decide (window.validFrom ≤ instant) && window.validUntil.all fun u => decide (instant < u)

end ValidityWindow

structure LatestVersion where
  version : ℕ
  window : ValidityWindow

/-- The number of the new version, and where to close the previous one. -/
structure VersionPlan where
  version : ℕ
  closePreviousAt : Option Instant
  deriving DecidableEq

def planNewVersion (latest : Option LatestVersion) (window : ValidityWindow) :
    Result VersionPlan :=
  match latest with
  | none => .ok ⟨1, none⟩
  | some latest =>
    let previous := latest.window
    if window.validFrom ≤ previous.validFrom then
      conflict ("new version must start after version " ++ natText latest.version ++
        " (valid_from " ++ isoformat previous.validFrom ++
        "); rewriting history requires a revocation")
    else
      match previous.validUntil with
      | none => .ok ⟨latest.version + 1, some window.validFrom⟩
      | some finish =>
        if window.validFrom < finish then
          conflict ("new version overlaps version " ++ natText latest.version ++
            ", which is valid until " ++ isoformat finish)
        else .ok ⟨latest.version + 1, none⟩

/-- What an accepted plan says about the version it appends to. -/
theorem planNewVersion_ok {latest : LatestVersion} {window : ValidityWindow} {plan : VersionPlan}
    (h : planNewVersion (some latest) window = .ok plan) :
    plan.version = latest.version + 1 ∧ latest.window.validFrom < window.validFrom ∧
      ((latest.window.validUntil = none ∧ plan.closePreviousAt = some window.validFrom) ∨
        ∃ finish, latest.window.validUntil = some finish ∧ finish ≤ window.validFrom ∧
          plan.closePreviousAt = none) := by
  simp only [planNewVersion] at h
  split at h
  · exact absurd h (by simp [conflict])
  · rename_i hstart
    split at h
    · rename_i hopen
      obtain rfl := Except.ok.inj h
      exact ⟨rfl, not_le.mp hstart, Or.inl ⟨hopen, rfl⟩⟩
    · rename_i finish hfinish
      split at h
      · exact absurd h (by simp [conflict])
      · rename_i hoverlap
        obtain rfl := Except.ok.inj h
        exact ⟨rfl, not_le.mp hstart, Or.inr ⟨finish, hfinish, not_lt.mp hoverlap, rfl⟩⟩

theorem planNewVersion_none (window : ValidityWindow) {plan : VersionPlan}
    (h : planNewVersion none window = .ok plan) : plan = ⟨1, none⟩ :=
  (Except.ok.inj h).symm

end ContextLedger.FactRules
