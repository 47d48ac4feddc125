import Mathlib.Algebra.Order.Ring.Rat
import ContextLedger.FixedWindows
import ContextLedger.MemoryStore
import ContextLedger.Transition

/-!
The rate limiter over a shared store. One counter per subject expires a window
after the hit that created it; hits up to the limit are allowed, later ones are
refused until the counter has expired. Between two hits other subjects are
counted, other keys are written and time passes.
-/
namespace ContextLedger.RateLimits

open Numerals Values MemoryStore FixedWindows

structure RateLimitDecision where
  allowed : Bool
  limit : ℕ
  remaining : ℕ
  retryAfterSeconds : ℕ
  deriving DecidableEq

/-- `Store.increment` as it reads the clock: once for the entry, and again for the
expiry. -/
def increment (store : Store) (checked now : ℚ) (key : String) (ttlSeconds : ℚ) :
    Result (Counter × Store) := do
  let (value, expires) ← (match store.live checked key with
    | none => .ok (1, now + ttlSeconds)
    | some entry => (readInt entry.value).map fun n => (n + 1, entry.expires))
  return (⟨value, FloatText.roundHalfEven ((expires - now) * 1000)⟩,
    store.insert key ⟨natText value, expires⟩)

def keyStart : String := "cl:ratelimit:"

def rateLimitKey (subject : String) : String := keyStart ++ subject

def isRateLimitKey (key : String) : Bool := keyStart.toList.isPrefixOf key.toList

/-- The decision on a counted hit. -/
def decision (limit : ℕ) (counter : Counter) : RateLimitDecision :=
  let allowed := decide (counter.value ≤ limit)
  ⟨allowed, limit, limit - counter.value,
    if allowed then 0 else max 1 ⌈(counter.ttlMs / 1000 : ℚ)⌉₊⟩

/-- A store that cannot be reached lets the request pass. -/
def hit (store : Store) (checked now : ℚ) (window : ℕ) (available : Bool) (subject : String)
    (limit : ℕ) : Result (RateLimitDecision × Store) :=
  if available then do
    let (counter, store) ← increment store checked now (rateLimitKey subject) window
    return (decision limit counter, store)
  else .ok (⟨true, limit, limit, 0⟩, store)

/-- A hit as it happened. `checked` and `counted` are the two readings of the clock. -/
structure Hit where
  subject : String
  limit : ℕ
  available : Bool
  checked : ℚ
  counted : ℚ
  decision : RateLimitDecision

/-- The last hit stands first. -/
structure World where
  store : Store
  now : ℚ
  hits : List Hit

/-- `set` and `delete` are the other users of the store, under keys of their own. -/
inductive Action where
  | hit (subject : String) (limit : ℕ) (available : Bool) (counted : ℚ)
  | set (key value : String) (ttlSeconds : ℚ) (onlyIfAbsent : Bool)
  | delete (key : String)
  | tick (now : ℚ)

/-- The clock of a step never runs back. -/
def step (window : ℕ) (w : World) : Action → Option World
  | .hit subject limit available counted =>
    if w.now ≤ counted then
      match hit w.store w.now counted window available subject limit with
      | .ok (decision, store) =>
        some ⟨store, counted, ⟨subject, limit, available, w.now, counted, decision⟩ :: w.hits⟩
      | .error _ => none
    else none
  | .set key value ttlSeconds onlyIfAbsent =>
    if isRateLimitKey key then none
    else some { w with store := (w.store.set w.now key value ttlSeconds onlyIfAbsent).2 }
  | .delete key => if isRateLimitKey key then none else some { w with store := w.store.delete key }
  | .tick now => if w.now ≤ now then some { w with now } else none

def limiter (window : ℕ) : Transition.System World Action where
  initial w := w.store = MemoryStore.empty ∧ w.hits = []
  step := step window

def World.hitsOf (w : World) (subject : String) : List Hit :=
  w.hits.filter fun h => h.subject = subject

/-- The hits of a subject that the store counted. -/
def World.countedHits (w : World) (subject : String) : List Hit :=
  w.hits.filter fun h => decide (h.subject = subject) && h.available

/-- The windows of a subject, the last one first. -/
def World.windowsOf (window : ℕ) (w : World) (subject : String) : List (Window Hit) :=
  windows Hit.checked Hit.counted (window : ℚ) (w.countedHits subject)

@[simp] theorem isRateLimitKey_rateLimitKey (subject : String) :
    isRateLimitKey (rateLimitKey subject) = true := by
  rw [isRateLimitKey, rateLimitKey, String.toList_append, List.isPrefixOf_iff_prefix]
  exact List.prefix_append _ _

theorem rateLimitKey_ne {key : String} (h : isRateLimitKey key = false) (subject : String) :
    rateLimitKey subject ≠ key := by
  rintro rfl
  exact Bool.false_ne_true (h.symm.trans (isRateLimitKey_rateLimitKey subject))

theorem rateLimitKey_inj {s t : String} : rateLimitKey s = rateLimitKey t ↔ s = t := by
  rw [rateLimitKey, rateLimitKey, String.ext_iff, String.toList_append, String.toList_append,
    List.append_cancel_left_eq, ← String.ext_iff]

/-- What the store keeps of a window. -/
def entryOf (window : ℕ) (win : Window Hit) : Entry :=
  ⟨natText win.members.length, win.first.counted + window⟩

/-- A counted hit joins the window that `add` puts it in, and its number is the
number of hits there. -/
theorem increment_eq {store : Store} {window : ℕ} {key : String} {ws : List (Window Hit)}
    (h : Hit) (hentry : store.find key = ws.head?.map (entryOf window)) :
    ∃ win older earlier, add Hit.checked Hit.counted (window : ℚ) h ws = win :: older ∧
      win.members = h :: earlier ∧
      increment store h.checked h.counted key window =
        .ok (⟨win.members.length,
            FloatText.roundHalfEven ((win.first.counted + window - h.counted) * 1000)⟩,
          store.insert key (entryOf window win)) := by
  cases ws with
  | nil =>
    have hlive : store.live h.checked key = none := by
      rw [Store.live, hentry]
      rfl
    refine ⟨⟨h, []⟩, [], [], rfl, rfl, ?_⟩
    rw [increment, hlive]
    rfl
  | cons win older =>
    have hfind : store.find key = some (entryOf window win) := hentry
    by_cases hopen : h.checked < win.first.counted + window
    · have hlive : store.live h.checked key = some (entryOf window win) :=
        live_eq_some.mpr ⟨hfind, hopen⟩
      refine ⟨⟨win.first, h :: win.later⟩, older, win.members, if_pos hopen, rfl, ?_⟩
      have hread : readInt (entryOf window win).value = .ok win.members.length :=
        readInt_natText _
      rw [increment, hlive]
      simp only [hread]
      rfl
    · have hlive : store.live h.checked key = none := by
        rw [Store.live, hfind]
        exact Option.filter_eq_none_iff.mpr fun e he hlt => by
          obtain rfl := Option.some.inj he
          exact hopen (of_decide_eq_true hlt)
      refine ⟨⟨h, []⟩, win :: older, [], if_neg hopen, rfl, ?_⟩
      rw [increment, hlive]
      rfl

/-- The hits of one window, the last one first: the hits up to the limit are allowed. -/
def Ranked : List Hit → Prop
  | [] => True
  | h :: earlier => h.decision.allowed = decide (earlier.length + 1 ≤ h.limit) ∧ Ranked earlier

theorem Ranked.countP_allowed {hits : List Hit} {limit : ℕ} (h : Ranked hits)
    (hfixed : ∀ x ∈ hits, x.limit = limit) :
    hits.countP (fun x => x.decision.allowed) = min limit hits.length := by
  induction hits with
  | nil => exact (Nat.min_zero limit).symm
  | cons x earlier ih =>
    have hearlier := ih h.2 fun y hy => hfixed y (List.mem_cons_of_mem x hy)
    have hallowed := h.1
    rw [hfixed x List.mem_cons_self] at hallowed
    rw [List.countP_cons, hearlier, hallowed, List.length_cons]
    by_cases hle : earlier.length + 1 ≤ limit
    · rw [decide_eq_true hle, if_pos rfl]
      omega
    · rw [decide_eq_false hle, if_neg Bool.false_ne_true]
      omega

theorem ranked_add {window : ℚ} {ws older : List (Window Hit)} {win : Window Hit} {h : Hit}
    {earlier : List Hit} (hws : ∀ v ∈ ws, Ranked v.members)
    (hadd : add Hit.checked Hit.counted window h ws = win :: older)
    (hmembers : win.members = h :: earlier)
    (hallowed : h.decision.allowed = decide (win.members.length ≤ h.limit)) :
    ∀ v ∈ win :: older, Ranked v.members := by
  rw [hmembers] at hallowed
  have hcases : Ranked earlier ∧ ∀ v ∈ older, Ranked v.members := by
    cases ws with
    | nil =>
      obtain ⟨rfl, rfl⟩ := List.cons.inj hadd
      obtain rfl : ([] : List Hit) = earlier := (List.cons.inj hmembers).2
      exact ⟨trivial, fun v hv => absurd hv List.not_mem_nil⟩
    | cons w rest =>
      rw [add] at hadd
      split_ifs at hadd with hopen
      · obtain ⟨rfl, rfl⟩ := List.cons.inj hadd
        obtain rfl : w.members = earlier := (List.cons.inj hmembers).2
        exact ⟨hws w List.mem_cons_self, fun v hv => hws v (List.mem_cons_of_mem w hv)⟩
      · obtain ⟨rfl, rfl⟩ := List.cons.inj hadd
        obtain rfl : ([] : List Hit) = earlier := (List.cons.inj hmembers).2
        exact ⟨trivial, hws⟩
  intro v hv
  rcases List.mem_cons.mp hv with rfl | hv
  · rw [hmembers]
    exact ⟨hallowed, hcases.1⟩
  · exact hcases.2 v hv

/-- The store keeps, for each subject, the last of its windows. -/
structure Tracks (window : ℕ) (w : World) : Prop where
  sequential : Sequential Hit.checked Hit.counted w.hits
  past : ∀ h ∈ w.hits, h.counted ≤ w.now
  entry : ∀ subject, w.store.find (rateLimitKey subject) =
    (w.windowsOf window subject).head?.map (entryOf window)
  ranked : ∀ subject, ∀ win ∈ w.windowsOf window subject, Ranked win.members

section

variable {window : ℕ} {w w' : World}

theorem countedHits_cons (store : Store) (now : ℚ) (h : Hit) (hits : List Hit) (subject : String) :
    World.countedHits ⟨store, now, h :: hits⟩ subject =
      if h.subject = subject ∧ h.available = true then
        h :: World.countedHits ⟨store, now, hits⟩ subject
      else World.countedHits ⟨store, now, hits⟩ subject := by
  simp only [World.countedHits, List.filter_cons, Bool.and_eq_true, decide_eq_true_eq]

theorem step_hit_eq_some {subject : String} {limit : ℕ} {available : Bool} {counted : ℚ}
    (hentry : w.store.find (rateLimitKey subject) =
      (w.windowsOf window subject).head?.map (entryOf window))
    (hstep : step window w (.hit subject limit available counted) = some w') :
    w.now ≤ counted ∧
      ((available = false ∧ w' = ⟨w.store, counted,
          ⟨subject, limit, false, w.now, counted, ⟨true, limit, limit, 0⟩⟩ :: w.hits⟩) ∨
        ∃ win older earlier d, available = true ∧
          d = decision limit ⟨win.members.length,
            FloatText.roundHalfEven ((win.first.counted + window - counted) * 1000)⟩ ∧
          add Hit.checked Hit.counted (window : ℚ) ⟨subject, limit, true, w.now, counted, d⟩
            (w.windowsOf window subject) = win :: older ∧
          win.members = ⟨subject, limit, true, w.now, counted, d⟩ :: earlier ∧
          w' = ⟨w.store.insert (rateLimitKey subject) (entryOf window win), counted,
            ⟨subject, limit, true, w.now, counted, d⟩ :: w.hits⟩) := by
  simp only [step] at hstep
  split_ifs at hstep with hclock
  refine ⟨hclock, ?_⟩
  cases available with
  | false =>
    left
    exact ⟨rfl, (Option.some.inj hstep).symm⟩
  | true =>
    right
    split at hstep
    · rename_i d store hhit
      unfold hit at hhit
      rw [if_pos rfl] at hhit
      obtain ⟨⟨counter, store'⟩, hincrement, hreturn⟩ := bind_eq_ok.mp hhit
      obtain ⟨rfl, rfl⟩ := Prod.mk.inj (Except.ok.inj hreturn)
      obtain ⟨win, older, earlier, hadd, hmembers, heq⟩ := increment_eq
        (⟨subject, limit, true, w.now, counted, decision limit counter⟩ : Hit) hentry
      obtain ⟨hcounter, rfl⟩ := Prod.mk.inj (Except.ok.inj (hincrement.symm.trans heq))
      exact ⟨win, older, earlier, _, rfl, congrArg (decision limit) hcounter, hadd, hmembers,
        (Option.some.inj hstep).symm⟩
    · exact absurd hstep (Option.some_ne_none w').symm

theorem Tracks.of_find {store : Store} {now : ℚ} (h : Tracks window w) (hnow : w.now ≤ now)
    (hfind : ∀ subject, store.find (rateLimitKey subject) = w.store.find (rateLimitKey subject)) :
    Tracks window { w with store, now } where
  sequential := h.sequential
  past x hx := (h.past x hx).trans hnow
  entry subject := (hfind subject).trans (h.entry subject)
  ranked := h.ranked

theorem step_tracks {action : Action} (h : Tracks window w)
    (hstep : step window w action = some w') : Tracks window w' := by
  cases action with
  | hit subject limit available counted =>
    obtain ⟨hclock, hcases⟩ := step_hit_eq_some (h.entry subject) hstep
    have hpast : ∀ x : Hit, x.counted = counted → ∀ y ∈ x :: w.hits, y.counted ≤ counted := by
      intro x hx y hy
      rcases List.mem_cons.mp hy with rfl | hy
      · exact hx.le
      · exact (h.past y hy).trans hclock
    rcases hcases with ⟨-, rfl⟩ | ⟨win, older, earlier, d, -, hd, hadd, hmembers, rfl⟩
    · have hsame : ∀ s, World.windowsOf window ⟨w.store, counted,
          ⟨subject, limit, false, w.now, counted, ⟨true, limit, limit, 0⟩⟩ :: w.hits⟩ s =
          w.windowsOf window s := by
        intro s
        rw [World.windowsOf, countedHits_cons, if_neg fun hand => Bool.false_ne_true hand.2]
        rfl
      exact {
        sequential := h.sequential.cons hclock h.past
        past := hpast _ rfl
        entry := fun s => (h.entry s).trans (by rw [hsame s])
        ranked := fun s => by
          rw [hsame s]
          exact h.ranked s }
    · have hself : World.windowsOf window ⟨w.store.insert (rateLimitKey subject)
          (entryOf window win), counted, ⟨subject, limit, true, w.now, counted, d⟩ :: w.hits⟩
          subject = win :: older := by
        rw [World.windowsOf, countedHits_cons, if_pos ⟨rfl, rfl⟩]
        exact hadd
      have hother : ∀ s, s ≠ subject → World.windowsOf window ⟨w.store.insert
          (rateLimitKey subject) (entryOf window win), counted,
          ⟨subject, limit, true, w.now, counted, d⟩ :: w.hits⟩ s = w.windowsOf window s := by
        intro s hs
        rw [World.windowsOf, countedHits_cons, if_neg fun hand => hs hand.1.symm]
        rfl
      exact {
        sequential := h.sequential.cons hclock h.past
        past := hpast _ rfl
        entry := fun s => by
          by_cases hs : s = subject
          · rw [hs, hself, find_insert_self]
            rfl
          · rw [hother s hs, find_insert_of_ne _ _ fun heq => hs (rateLimitKey_inj.mp heq)]
            exact h.entry s
        ranked := fun s v hv => by
          by_cases hs : s = subject
          · rw [hs, hself] at hv
            exact ranked_add (h.ranked subject) hadd hmembers
              (by rw [hd]; rfl) v hv
          · rw [hother s hs] at hv
            exact h.ranked s v hv }
  | set key value ttlSeconds onlyIfAbsent =>
    simp only [step] at hstep
    split_ifs at hstep with hkey
    obtain rfl := Option.some.inj hstep
    refine h.of_find le_rfl fun subject => ?_
    have hne := rateLimitKey_ne (Bool.eq_false_iff.mpr hkey) subject
    unfold Store.set
    split_ifs
    · rfl
    · exact find_insert_of_ne _ _ hne
  | delete key =>
    simp only [step] at hstep
    split_ifs at hstep with hkey
    obtain rfl := Option.some.inj hstep
    exact h.of_find le_rfl fun subject =>
      find_delete_of_ne _ (rateLimitKey_ne (Bool.eq_false_iff.mpr hkey) subject)
  | tick now =>
    simp only [step] at hstep
    split_ifs at hstep with hclock
    obtain rfl := Option.some.inj hstep
    exact h.of_find hclock fun _ => rfl

theorem tracks_of_reachable (h : (limiter window).Reachable w) : Tracks window w := by
  refine (limiter window).reachable_invariant (Tracks window) ?_
    (fun s a s' hs hstep => step_tracks hs hstep) h
  rintro ⟨store, now, hits⟩ ⟨rfl, rfl⟩
  exact ⟨⟨fun x hx => absurd hx List.not_mem_nil, List.Pairwise.nil⟩,
    fun x hx => absurd hx List.not_mem_nil, fun _ => rfl,
    fun _ v hv => absurd hv List.not_mem_nil⟩

theorem countedHits_eq_hitsOf {subject : String}
    (h : ∀ x ∈ w.hitsOf subject, x.available = true) :
    w.countedHits subject = w.hitsOf subject := by
  refine List.filter_congr ?_
  intro x hx
  by_cases hs : x.subject = subject
  · have hmem : x ∈ w.hitsOf subject := List.mem_filter.mpr ⟨hx, decide_eq_true hs⟩
    rw [h x hmem, Bool.and_true]
  · rw [decide_eq_false hs, Bool.false_and]

/-- With one limit and a store that answers, each window allows the hits up to the
limit, and a stretch of time as long as a window allows twice the limit. -/
theorem allowed_le_two_mul_limit (h : (limiter window).Reachable w) {subject : String}
    {limit : ℕ} (hfixed : ∀ x ∈ w.hitsOf subject, x.limit = limit ∧ x.available = true) :
    (w.windowsOf window subject).flatMap Window.members = w.hitsOf subject ∧
      (∀ win ∈ w.windowsOf window subject,
        win.members.countP (fun x => x.decision.allowed) = min limit win.members.length) ∧
      ∀ start : ℚ,
        (w.hitsOf subject).countP (fun x => x.decision.allowed &&
            decide (start ≤ x.counted ∧ x.counted < start + window)) ≤ 2 * limit ∧
          (w.hitsOf subject).countP (fun x => x.decision.allowed &&
            decide (start < x.counted ∧ x.counted ≤ start + window)) ≤ 2 * limit := by
  have htracks := tracks_of_reachable h
  have hcounted : w.countedHits subject = w.hitsOf subject :=
    countedHits_eq_hitsOf fun x hx => (hfixed x hx).2
  have hseq : Sequential Hit.checked Hit.counted (w.hitsOf subject) :=
    htracks.sequential.filter _
  have hwindows : w.windowsOf window subject =
      windows Hit.checked Hit.counted (window : ℚ) (w.hitsOf subject) := by
    rw [World.windowsOf, hcounted]
  have hranked := htracks.ranked subject
  rw [hwindows] at hranked ⊢
  have hallowed : ∀ win ∈ windows Hit.checked Hit.counted (window : ℚ) (w.hitsOf subject),
      win.members.countP (fun x => x.decision.allowed) = min limit win.members.length :=
    fun win hwin => (hranked win hwin).countP_allowed fun x hx =>
      (hfixed x (mem_of_mem_windows hwin hx)).1
  have hbound : ∀ p : Hit → Bool, ∀ win ∈ windows Hit.checked Hit.counted (window : ℚ)
      (w.hitsOf subject), win.members.countP (fun x => x.decision.allowed && p x) ≤ limit := by
    intro p win hwin
    have hmono : win.members.countP (fun x => x.decision.allowed && p x) ≤
        win.members.countP (fun x => x.decision.allowed) :=
      List.countP_mono_left fun x _ hx => (Bool.and_eq_true_iff.mp hx).1
    have hmin := hallowed win hwin
    omega
  refine ⟨flatMap_members _ _ _ _, hallowed, fun start => ⟨?_, ?_⟩⟩
  · refine hseq.countP_le_two_mul (hbound _) ?_
    intro a b ha hb
    have ha := of_decide_eq_true (Bool.and_eq_true_iff.mp ha).2
    have hb := of_decide_eq_true (Bool.and_eq_true_iff.mp hb).2
    linarith [ha.2, hb.1]
  · refine hseq.countP_le_two_mul (hbound _) ?_
    intro a b ha hb
    have ha := of_decide_eq_true (Bool.and_eq_true_iff.mp ha).2
    have hb := of_decide_eq_true (Bool.and_eq_true_iff.mp hb).2
    linarith [ha.2, hb.1]

end

def fresh : World := ⟨MemoryStore.empty, 0, []⟩

/-- The third hit finds the first window over. -/
def threeHits : List Action :=
  [.hit "user" 1 true 0, .tick 30, .hit "user" 1 true 30, .tick 60, .hit "user" 1 true 60]

theorem allowed_le_two_mul_limit_three : ∃ w, (limiter 60).run fresh threeHits = some w ∧
    (w.hitsOf "user").length = 3 ∧
    (w.hitsOf "user").countP (fun x => x.decision.allowed &&
      decide (0 < x.counted ∧ x.counted ≤ (0 : ℚ) + (60 : ℕ))) ≤ 2 * 1 := by
  have hrun : ((limiter 60).run fresh threeHits).isSome = true := by decide +kernel
  obtain ⟨w, hw⟩ := Option.isSome_iff_exists.mp hrun
  have hhits : (((limiter 60).run fresh threeHits).map fun w => ((w.hitsOf "user").length,
      decide (∀ x ∈ w.hitsOf "user", x.limit = 1 ∧ x.available = true))) = some (3, true) := by
    decide +kernel
  rw [hw] at hhits
  obtain ⟨hlength, hfixed⟩ := Prod.mk.inj (Option.some.inj hhits)
  exact ⟨w, hw, hlength, ((allowed_le_two_mul_limit ⟨fresh, threeHits, ⟨rfl, rfl⟩, hw⟩
    (of_decide_eq_true hfixed)).2.2 0).2⟩

end ContextLedger.RateLimits
