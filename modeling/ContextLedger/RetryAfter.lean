import ContextLedger.FloatScale
import ContextLedger.RateLimits

/-!
What a refused client is told to wait. The store rounds the time left in the
window to milliseconds, the limiter rounds that up to seconds. The second
rounding makes up for the first unless the first has already reached a whole
number of seconds from above.
-/
namespace ContextLedger.RetryAfter

open Numerals Values MemoryStore FixedWindows RateLimits FloatText

/-- No more than half a millisecond above a whole number of seconds. -/
def RoundsDown (remaining : ℚ) : Prop :=
  ∃ k : ℕ, 1 ≤ k ∧ k < remaining ∧ remaining ≤ k + 1 / 2000

/-- The seconds a refused client is told to wait, from the time left. -/
def retryAfterSeconds (remaining : ℚ) : ℕ :=
  max 1 ⌈(roundHalfEven (remaining * 1000) / 1000 : ℚ)⌉₊

theorem lt_roundHalfEven {n : ℕ} {q : ℚ} (h : n + 1 / 2 < q) : n < roundHalfEven q := by
  by_cases hnext : (n : ℚ) + 1 ≤ q
  · have hle : ((n + 1 : ℕ) : ℚ) ≤ q := by exact_mod_cast hnext
    exact le_roundHalfEven hle
  · have hfloor : ⌊q⌋₊ = n := by
      refine (Nat.floor_eq_iff (by linarith [(Nat.cast_nonneg n : (0 : ℚ) ≤ n)])).mpr ⟨?_, ?_⟩
      · linarith
      · exact not_le.mp hnext
    have hhigh : 1 / 2 < q - ⌊q⌋₊ := by
      rw [hfloor]
      linarith
    rw [roundHalfEven, if_neg (not_lt.mpr hhigh.le), if_pos hhigh, hfloor]
    exact Nat.lt_succ_self n

/-- An even number takes in what lies up to half above it. -/
theorem roundHalfEven_le_even {n : ℕ} {q : ℚ} (heven : n % 2 = 0) (hq : 0 ≤ q)
    (h : q ≤ n + 1 / 2) : roundHalfEven q ≤ n := by
  by_cases hle : q ≤ n
  · exact roundHalfEven_le hq hle
  · have hlt : (n : ℚ) < q := not_le.mp hle
    have hfloor : ⌊q⌋₊ = n := by
      refine (Nat.floor_eq_iff hq).mpr ⟨hlt.le, ?_⟩
      linarith
    rw [roundHalfEven, hfloor]
    split_ifs with hlow hhigh
    · exact le_rfl
    · linarith
    · exact le_rfl

/-- The wait is too short exactly where the milliseconds were rounded down to whole
seconds. -/
theorem retryAfterSeconds_lt_iff (remaining : ℚ) :
    (retryAfterSeconds remaining : ℚ) < remaining ↔ RoundsDown remaining := by
  constructor
  · intro hlt
    refine ⟨retryAfterSeconds remaining, le_max_left _ _, hlt, ?_⟩
    by_contra hmore
    have hmore : (1000 * retryAfterSeconds remaining : ℕ) + 1 / 2 < remaining * 1000 := by
      push_cast
      linarith [not_le.mp hmore]
    have hround := lt_roundHalfEven hmore
    have hceil : (roundHalfEven (remaining * 1000) / 1000 : ℚ) ≤ retryAfterSeconds remaining :=
      (Nat.le_ceil _).trans (by exact_mod_cast le_max_right _ _)
    have hle : (roundHalfEven (remaining * 1000) : ℚ) ≤ (1000 * retryAfterSeconds remaining : ℕ) := by
      push_cast
      linarith
    exact absurd (by exact_mod_cast hle) (not_le.mpr hround)
  · rintro ⟨k, hk, hlow, hhigh⟩
    have hround : roundHalfEven (remaining * 1000) ≤ 1000 * k := by
      refine roundHalfEven_le_even (by omega) ?_ ?_
      · have hzero : (0 : ℚ) ≤ k := Nat.cast_nonneg k
        linarith
      · push_cast
        linarith
    have hceil : ⌈(roundHalfEven (remaining * 1000) / 1000 : ℚ)⌉₊ ≤ k := by
      refine Nat.ceil_le.mpr ?_
      have hcast : (roundHalfEven (remaining * 1000) : ℚ) ≤ (1000 * k : ℕ) := by
        exact_mod_cast hround
      push_cast at hcast
      linarith
    have hwait : retryAfterSeconds remaining ≤ k := max_le hk hceil
    exact lt_of_le_of_lt (by exact_mod_cast hwait) hlow

/-- The seconds of a refusal. -/
theorem decision_retryAfterSeconds {limit n : ℕ} {remaining : ℚ}
    (h : (decision limit ⟨n, roundHalfEven (remaining * 1000)⟩).allowed = false) :
    (decision limit ⟨n, roundHalfEven (remaining * 1000)⟩).retryAfterSeconds =
      retryAfterSeconds remaining := by
  have hdecide : decide (n ≤ limit) = false := h
  simp only [decision, hdecide, Bool.false_eq_true, if_false, retryAfterSeconds]

def isHitOf (subject : String) : Action → Prop
  | .hit s _ _ _ => s = subject
  | _ => False

/-- Whatever happens in between, the first hit of the subject at `time` or later is
allowed. -/
def AllowedFrom (window : ℕ) (w : World) (subject : String) (limit : ℕ) (time : ℚ) : Prop :=
  ∀ trace w₁ available counted w₂ x, (limiter window).run w trace = some w₁ →
    (∀ a ∈ trace, ¬ isHitOf subject a) → time ≤ w₁.now →
    (limiter window).step w₁ (.hit subject limit available counted) = some w₂ →
    w₂.hits.head? = some x → x.decision.allowed = true

section

variable {window : ℕ} {w w' : World} {subject : String} {limit : ℕ} {available : Bool}
  {counted : ℚ} {x : Hit}

/-- A hit never fails. -/
theorem exists_step_hit (h : Tracks window w) (hclock : w.now ≤ counted) (subject : String)
    (limit : ℕ) (available : Bool) :
    ∃ w', step window w (.hit subject limit available counted) = some w' := by
  simp only [step, if_pos hclock]
  cases available with
  | false => exact ⟨_, rfl⟩
  | true =>
    obtain ⟨win, older, earlier, -, -, hincrement⟩ := increment_eq
      (⟨subject, limit, true, w.now, counted, ⟨true, 0, 0, 0⟩⟩ : Hit) (h.entry subject)
    have hhit : hit w.store w.now counted window true subject limit = .ok
        (decision limit ⟨win.members.length,
          roundHalfEven ((win.first.counted + window - counted) * 1000)⟩,
        w.store.insert (rateLimitKey subject) (entryOf window win)) :=
      bind_eq_ok.mpr ⟨_, hincrement, rfl⟩
    rw [hhit]
    exact ⟨_, rfl⟩

/-- A refused hit has joined a window that was running and full. -/
theorem step_refused (h : Tracks window w) (hlimit : 1 ≤ limit)
    (hstep : step window w (.hit subject limit available counted) = some w')
    (hx : w'.hits.head? = some x) (hrefused : x.decision.allowed = false) :
    ∃ first later older,
      w.windowsOf window subject = ⟨first, later⟩ :: older ∧
      w'.windowsOf window subject = ⟨first, x :: later⟩ :: older ∧
      w.now < first.counted + window ∧ limit ≤ later.length + 1 ∧ w'.now = counted ∧
      x.decision.retryAfterSeconds = retryAfterSeconds (first.counted + window - counted) := by
  obtain ⟨-, ⟨-, rfl⟩ | ⟨win, older, earlier, d, -, hd, hadd, hmembers, rfl⟩⟩ :=
    step_hit_eq_some (h.entry subject) hstep
  · obtain rfl := Option.some.inj hx
    exact absurd hrefused.symm Bool.false_ne_true
  · obtain rfl := Option.some.inj hx
    have hmany : limit < win.members.length := by
      have hdecide : decide (win.members.length ≤ limit) = false := by
        rw [hd] at hrefused
        exact hrefused
      exact not_le.mp (of_decide_eq_false hdecide)
    have hwait : d.retryAfterSeconds =
        retryAfterSeconds (win.first.counted + window - counted) := by
      rw [hd] at hrefused ⊢
      exact decision_retryAfterSeconds hrefused
    have hwindows : World.windowsOf window ⟨w.store.insert (rateLimitKey subject)
        (entryOf window win), counted, ⟨subject, limit, true, w.now, counted, d⟩ :: w.hits⟩
        subject = win :: older := by
      rw [World.windowsOf, countedHits_cons, if_pos ⟨rfl, rfl⟩]
      exact hadd
    cases hws : w.windowsOf window subject with
    | nil =>
      rw [hws] at hadd
      obtain ⟨rfl, -⟩ := List.cons.inj hadd
      exact absurd (hlimit.trans_lt hmany) (lt_irrefl 1)
    | cons v rest =>
      rw [hws, add] at hadd
      split_ifs at hadd with hopen
      · obtain ⟨rfl, rfl⟩ := List.cons.inj hadd
        refine ⟨v.first, v.later, rest, rfl, hwindows, hopen, ?_, rfl, hwait⟩
        simp only [Window.members, List.length_append, List.length_cons, List.length_nil] at hmany
        omega
      · obtain ⟨rfl, -⟩ := List.cons.inj hadd
        exact absurd (hlimit.trans_lt hmany) (lt_irrefl 1)

/-- Only its own hits open or fill a window of a subject. -/
theorem step_windowsOf {action : Action} (h : Tracks window w) (hother : ¬ isHitOf subject action)
    (hstep : step window w action = some w') :
    w'.windowsOf window subject = w.windowsOf window subject := by
  cases action with
  | hit s limit available counted =>
    have hs : s ≠ subject := hother
    obtain ⟨-, ⟨-, rfl⟩ | ⟨win, older, earlier, d, -, -, -, -, rfl⟩⟩ :=
      step_hit_eq_some (h.entry s) hstep
    · rw [World.windowsOf, countedHits_cons, if_neg fun hand => hs hand.1]
      rfl
    · rw [World.windowsOf, countedHits_cons, if_neg fun hand => hs hand.1]
      rfl
  | set key value ttlSeconds onlyIfAbsent =>
    simp only [step] at hstep
    split_ifs at hstep with hkey
    obtain rfl := Option.some.inj hstep
    rfl
  | delete key =>
    simp only [step] at hstep
    split_ifs at hstep with hkey
    obtain rfl := Option.some.inj hstep
    rfl
  | tick now =>
    simp only [step] at hstep
    split_ifs at hstep with hclock
    obtain rfl := Option.some.inj hstep
    rfl

theorem run_windowsOf {trace : List Action} (h : Tracks window w)
    (hother : ∀ a ∈ trace, ¬ isHitOf subject a)
    (hrun : (limiter window).run w trace = some w') :
    Tracks window w' ∧ w'.windowsOf window subject = w.windowsOf window subject := by
  refine (limiter window).run_preserves_of_meets (fun _ a => ¬ isHitOf subject a)
    (fun s => Tracks window s ∧ s.windowsOf window subject = w.windowsOf window subject) ?_ hrun
    ((limiter window).runMeets_of_forall fun a ha _ => hother a ha) ⟨h, rfl⟩
  rintro s a s' ⟨hs, hsame⟩ ha hstep
  exact ⟨step_tracks hs hstep, (step_windowsOf hs ha hstep).trans hsame⟩

/-- After the window the next hit is the first of a new one. -/
theorem allowed_after_window {first : Hit} {later : List Hit} {older : List (Window Hit)}
    (h : Tracks window w) (hlimit : 1 ≤ limit)
    (hwindows : w.windowsOf window subject = ⟨first, later⟩ :: older)
    (hend : first.counted + window ≤ w.now)
    (hstep : step window w (.hit subject limit available counted) = some w')
    (hx : w'.hits.head? = some x) : x.decision.allowed = true := by
  obtain ⟨-, ⟨-, rfl⟩ | ⟨win, rest, earlier, d, -, hd, hadd, -, rfl⟩⟩ :=
    step_hit_eq_some (h.entry subject) hstep
  · obtain rfl := Option.some.inj hx
    rfl
  · obtain rfl := Option.some.inj hx
    rw [hwindows, add, if_neg (not_lt.mpr hend)] at hadd
    obtain ⟨rfl, -⟩ := List.cons.inj hadd
    rw [hd]
    exact decide_eq_true hlimit

/-- A full window refuses. -/
theorem refused_in_window {first : Hit} {later : List Hit} {older : List (Window Hit)}
    (h : Tracks window w) (hfull : limit ≤ later.length + 1)
    (hwindows : w.windowsOf window subject = ⟨first, later⟩ :: older)
    (hend : w.now < first.counted + window)
    (hstep : step window w (.hit subject limit true counted) = some w') :
    ∃ x, w'.hits.head? = some x ∧ x.decision.allowed = false := by
  obtain ⟨-, ⟨hfalse, -⟩ | ⟨win, rest, earlier, d, -, hd, hadd, -, rfl⟩⟩ :=
    step_hit_eq_some (h.entry subject) hstep
  · exact absurd hfalse.symm Bool.false_ne_true
  · rw [hwindows, add, if_pos hend] at hadd
    obtain ⟨rfl, -⟩ := List.cons.inj hadd
    refine ⟨_, rfl, ?_⟩
    rw [hd]
    refine decide_eq_false ?_
    simp only [Window.members, List.length_append, List.length_cons, List.length_nil]
    omega

/-- A client that was refused and waits as told is let in again, unless the time left
was rounded down to whole seconds. -/
theorem allowedFrom_retryAfter_iff (h : (limiter window).Reachable w) (hlimit : 1 ≤ limit)
    (hstep : (limiter window).step w (.hit subject limit available counted) = some w')
    (hx : w'.hits.head? = some x) (hrefused : x.decision.allowed = false) :
    ∃ entry, w.store.live w.now (rateLimitKey subject) = some entry ∧
      (AllowedFrom window w' subject limit (counted + x.decision.retryAfterSeconds) ↔
        ¬ RoundsDown (entry.expires - counted)) := by
  have hstep : step window w (.hit subject limit available counted) = some w' := hstep
  have htracks := tracks_of_reachable h
  have htracks' := step_tracks htracks hstep
  obtain ⟨first, later, older, hwindows, hwindows', hrunning, hfull, hnow, hwait⟩ :=
    step_refused htracks hlimit hstep hx hrefused
  have hfind : w.store.find (rateLimitKey subject) =
      some (entryOf window ⟨first, later⟩) := by
    rw [htracks.entry subject, hwindows]
    rfl
  refine ⟨_, live_eq_some.mpr ⟨hfind, hrunning⟩, ?_⟩
  have hremaining : (entryOf window ⟨first, later⟩).expires - counted =
      first.counted + window - counted := rfl
  rw [hremaining, ← retryAfterSeconds_lt_iff, hwait]
  constructor
  · intro hallowed hshort
    have htick : w'.now ≤ counted + retryAfterSeconds (first.counted + window - counted) := by
      rw [hnow]
      exact le_add_of_nonneg_right (Nat.cast_nonneg _)
    have hrun : (limiter window).run w'
        [.tick (counted + retryAfterSeconds (first.counted + window - counted))] =
        some { w' with now := counted + retryAfterSeconds (first.counted + window - counted) } := by
      simp only [Transition.System.run, limiter, step, if_pos htick, Option.bind_some]
    have hquiet : ∀ a ∈ [Action.tick (counted +
        retryAfterSeconds (first.counted + window - counted))], ¬ isHitOf subject a := by
      intro a ha
      rw [List.mem_singleton.mp ha]
      exact id
    obtain ⟨htracks₁, hwindows₁⟩ := run_windowsOf htracks' hquiet hrun
    obtain ⟨w₂, hstep₂⟩ := exists_step_hit htracks₁ le_rfl subject limit true
    have hrunning₁ : counted + retryAfterSeconds (first.counted + window - counted) <
        first.counted + window := by linarith
    obtain ⟨y, hy, hyrefused⟩ := refused_in_window htracks₁
      (hfull.trans (by rw [List.length_cons]; omega)) (hwindows₁.trans hwindows') hrunning₁ hstep₂
    have hpermitted := hallowed _ _ _ _ _ y hrun hquiet le_rfl hstep₂ hy
    exact Bool.false_ne_true (hyrefused.symm.trans hpermitted)
  · intro hlong trace w₁ available' counted' w₂ y hrun hquiet htime hstep₂ hy
    obtain ⟨htracks₁, hwindows₁⟩ := run_windowsOf htracks' hquiet hrun
    have hend : first.counted + window ≤ w₁.now := by
      have hle := not_lt.mp hlong
      linarith
    exact allowed_after_window htracks₁ hlimit (hwindows₁.trans hwindows') hend hstep₂ hy

end

/-- Two seconds before the end to the millisecond: the client is told the right time. -/
theorem allowedFrom_retryAfter_iff_two :
    ∃ w w' x, (limiter 60).Reachable w ∧
      (limiter 60).step w (.hit "user" 1 true 58) = some w' ∧
      w'.hits.head? = some x ∧ x.decision.allowed = false ∧
      ∃ entry, w.store.live w.now (rateLimitKey "user") = some entry ∧
        (AllowedFrom 60 w' "user" 1 (58 + x.decision.retryAfterSeconds) ↔
          ¬ RoundsDown (entry.expires - 58)) := by
  have hdecisions : ((limiter 60).run fresh [.hit "user" 1 true 0, .tick 58]).bind
      (fun w => ((limiter 60).step w (.hit "user" 1 true 58)).map fun w' =>
        w'.hits.head?.map fun h => h.decision.allowed) = some (some false) := by decide +kernel
  obtain ⟨w, hw, hnext⟩ := Option.bind_eq_some_iff.mp hdecisions
  obtain ⟨w', hstep, hhead⟩ := Option.map_eq_some_iff.mp hnext
  obtain ⟨x, hx, hrefused⟩ := Option.map_eq_some_iff.mp hhead
  have hreachable : (limiter 60).Reachable w := ⟨fresh, _, ⟨rfl, rfl⟩, hw⟩
  exact ⟨w, w', x, hreachable, hstep, hx, hrefused,
    allowedFrom_retryAfter_iff hreachable le_rfl hstep hx hrefused⟩

/-- Up to the refused hit: 2.0004 seconds of the window are left. -/
def beforeRefusal : List Action := [.hit "user" 1 true 0, .tick (579996 / 10000)]

def refusedHit : Action := .hit "user" 1 true (579996 / 10000)

def hitAgain : Action := .hit "user" 1 true (579996 / 10000 + 2)

/-- A client told to wait two seconds is refused two seconds later. -/
theorem not_allowedFrom_retryAfter : ∃ w w' x,
    (limiter 60).Reachable w ∧ (limiter 60).step w refusedHit = some w' ∧
      w'.hits.head? = some x ∧ x.decision = ⟨false, 1, 0, 2⟩ ∧
      ¬ AllowedFrom 60 w' "user" 1 (579996 / 10000 + x.decision.retryAfterSeconds) := by
  have hdecisions : ((limiter 60).run fresh beforeRefusal).bind (fun w =>
      ((limiter 60).step w refusedHit).bind fun w' =>
        ((limiter 60).step { w' with now := 579996 / 10000 + 2 } hitAgain).map fun w₂ =>
          (w'.hits.head?.map Hit.decision, w₂.hits.head?.map fun h => h.decision.allowed)) =
      some (some ⟨false, 1, 0, 2⟩, some false) := by decide +kernel
  obtain ⟨w, hw, hnext⟩ := Option.bind_eq_some_iff.mp hdecisions
  obtain ⟨w', hstep, hnext⟩ := Option.bind_eq_some_iff.mp hnext
  obtain ⟨w₂, hstep₂, hheads⟩ := Option.map_eq_some_iff.mp hnext
  obtain ⟨hfirst, hsecond⟩ := Prod.mk.inj hheads
  obtain ⟨x, hx, hdecision⟩ := Option.map_eq_some_iff.mp hfirst
  obtain ⟨y, hy, hfalse⟩ := Option.map_eq_some_iff.mp hsecond
  refine ⟨w, w', x, ⟨fresh, beforeRefusal, ⟨rfl, rfl⟩, hw⟩, hstep, hx, hdecision, ?_⟩
  intro hallowed
  rw [hdecision] at hallowed
  have hnow : w'.now = 579996 / 10000 := by
    simp only [limiter, step, refusedHit] at hstep
    split_ifs at hstep with hclock
    split at hstep
    · exact (congrArg World.now (Option.some.inj hstep)).symm
    · exact absurd hstep (Option.some_ne_none w').symm
  have htick : (limiter 60).run w' [.tick (579996 / 10000 + 2)] =
      some { w' with now := 579996 / 10000 + 2 } := by
    have hle : w'.now ≤ 579996 / 10000 + 2 := by
      rw [hnow]
      norm_num
    simp only [Transition.System.run, limiter, step, if_pos hle, Option.bind_some]
  have hpermitted := hallowed _ _ true (579996 / 10000 + 2) w₂ y htick
    (fun a ha => by rw [List.mem_singleton.mp ha]; exact id) le_rfl hstep₂ hy
  exact Bool.false_ne_true (hfalse.symm.trans hpermitted)

end ContextLedger.RetryAfter
