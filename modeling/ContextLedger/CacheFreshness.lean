import ContextLedger.SharedCache

/-!
A search does not return a result older than the last invalidation before it
started, as long as no generation number is issued again while a result filed
under it is alive or still to be filed. A number is issued by a bump, and 0 is
issued when the key of a generation expires. The key lives for a fixed time from
its creation, so a bump shortly after it expired can issue a number whose entries
are still alive.
-/
namespace ContextLedger.CacheFreshness

open JsonText Values Authorization Schema Facts Retrieval MemoryStore RetrievalCache SharedCache

/-- The generation and origin of a result that is still to be filed. -/
def pendingOf : Phase → Option (ℕ × ℕ)
  | .computed _ _ (some n) result origin => if result.vectorUsed then some (n, origin) else none
  | _ => none

theorem pendingOf_computed {first second : MembershipRole} {held : Option ℕ}
    {result : RetrievalResult} {origin n o : ℕ}
    (h : pendingOf (.computed first second held result origin) = some (n, o)) : origin = o := by
  cases held with
  | none => exact absurd h (by simp [pendingOf])
  | some m =>
    rw [pendingOf] at h
    split at h
    · exact (Prod.mk.inj (Option.some.inj h)).2
    · exact absurd h (by simp)

/-- A result under a generation, alive or still to be filed, by its origin. -/
inductive Filed (w : World) (org : Uuid) (n : ℕ) : ℕ → Prop
  | entry {digest : String} {e : Entry}
      (hlive : w.store.live w.now (resultKey org n digest) = some e) :
      Filed w org n (w.origin (resultKey org n digest))
  | pending {s : Search} {origin : ℕ} (hs : s ∈ w.searches) (horg : s.org = org)
      (hpending : pendingOf s.phase = some (n, origin)) : Filed w org n origin

/-- The commits behind a result in hand, or answered, reach the floor of the search. -/
def Settled (s : Search) : Prop :=
  match s.phase with
  | .computed _ _ _ _ origin => s.floor ≤ origin
  | .returned _ _ origin => s.floor ≤ origin
  | _ => True

/-- Results under the current generation reach the floor of the organization, and
those under a generation that a search is about to look up reach the floor of that
search. -/
structure Fresh (w : World) : Prop where
  floors : ∀ org, w.floor org ≤ w.commits
  started : ∀ s ∈ w.searches, s.floor ≤ w.floor s.org
  logged : ∀ org n digest e, w.store.find (resultKey org n digest) = some e →
    (org, n, resultKey org n digest) ∈ w.filed
  current : ∀ org n origin, generation w.store w.now org = .ok n → Filed w org n origin →
    w.floor org ≤ origin
  looking : ∀ s ∈ w.searches, ∀ role n origin, s.phase = .looking role n →
    Filed w s.org n origin → s.floor ≤ origin
  settled : ∀ s ∈ w.searches, Settled s

section Moving

variable {w : World} {s : Search} {i : ℕ}

theorem Fresh.floor_le_commits (h : Fresh w) (hs : s ∈ w.searches) : s.floor ≤ w.commits :=
  (h.started s hs).trans (h.floors s.org)

/-- A step that files nothing adds at most its own result. -/
theorem filed_of_stay {phase : Phase} {org : Uuid} {n origin : ℕ}
    (h : Filed (w.withMove i s ⟨phase, w.store, w.origin, w.filed⟩) org n origin) :
    Filed w org n origin ∨ pendingOf phase = some (n, origin) := by
  cases h with
  | entry hlive => exact Or.inl (Filed.entry hlive)
  | pending ht horg hpending =>
    rcases mem_withMove ht with rfl | ht
    · exact Or.inr hpending
    · exact Or.inl (Filed.pending ht horg hpending)

/-- A step that files nothing keeps results fresh when what it computes is current and
the number it reads is. -/
theorem fresh_stay (h : Fresh w) (hs : s ∈ w.searches) {phase : Phase}
    (hpending : ∀ n origin, pendingOf phase = some (n, origin) → origin = w.commits)
    (hlooking : ∀ role n, phase = .looking role n → generation w.store w.now s.org = .ok n)
    (hsettled : Settled { s with phase }) :
    Fresh (w.withMove i s ⟨phase, w.store, w.origin, w.filed⟩) := by
  refine ⟨h.floors, ?_, h.logged, ?_, ?_, ?_⟩
  · intro t ht
    rcases mem_withMove ht with rfl | ht
    · exact h.started s hs
    · exact h.started t ht
  · intro org n origin hread hfiled
    rcases filed_of_stay hfiled with hfiled | hnew
    · exact h.current org n origin hread hfiled
    · rw [hpending n origin hnew]
      exact h.floors org
  · intro t ht role n origin hphase hfiled
    rcases filed_of_stay hfiled with hfiled | hnew
    · rcases mem_withMove ht with rfl | ht
      · exact (h.started s hs).trans (h.current s.org n origin (hlooking role n hphase) hfiled)
      · exact h.looking t ht role n origin hphase hfiled
    · rw [hpending n origin hnew]
      rcases mem_withMove ht with rfl | ht
      · show s.floor ≤ w.commits
        exact h.floor_le_commits hs
      · exact h.floor_le_commits ht
  · intro t ht
    rcases mem_withMove ht with rfl | ht
    · exact hsettled
    · exact h.settled t ht

variable {rt : Runtime} {cache : Cache}

/-- What is filed by a step was in hand before it, or was there already. -/
theorem filed_of_put (hs : s ∈ w.searches) {first second : MembershipRole} {m : ℕ}
    {result : RetrievalResult} {origin : ℕ}
    (hphase : s.phase = .computed first second (some m) result origin)
    (hvector : result.vectorUsed = true) {org : Uuid} {n o : ℕ}
    (h : Filed (w.withMove i s ⟨.returned [first, second] result origin,
      cache.put w.store w.now (s.key rt first m) result,
      Function.update w.origin (s.key rt first m) origin,
      (s.org, m, s.key rt first m) :: w.filed⟩) org n o) : Filed w org n o := by
  cases h with
  | @entry digest e hlive =>
    simp only [World.withMove] at hlive ⊢
    by_cases hkey : resultKey org n digest = s.key rt first m
    · obtain ⟨rfl, rfl, -⟩ := resultKey_inj hkey
      rw [hkey, Function.update_self]
      exact Filed.pending hs rfl (by simp [pendingOf, hphase, hvector])
    · rw [Function.update_of_ne hkey]
      have hold : w.store.live w.now (resultKey org n digest) = some e := by
        rw [← live_insert_of_ne w.store _ hkey]
        exact hlive
      exact Filed.entry hold
  | pending ht horg hpending =>
    rcases mem_withMove ht with rfl | ht
    · exact absurd hpending (by simp [pendingOf])
    · exact Filed.pending ht horg hpending

/-- Filing a result changes no generation. -/
theorem generation_put (store : Store) (now : ℚ) (s : Search) (role : MembershipRole) (m : ℕ)
    (result : RetrievalResult) (org : Uuid) :
    generation (cache.put store now (s.key rt role m) result) now org =
      generation store now org := by
  unfold generation Store.get
  rw [put_eq, live_insert_of_ne store _ (s.key_ne_generationKey rt role m org).symm]

theorem fresh_put (h : Fresh w) (hs : s ∈ w.searches) {first second : MembershipRole} {m : ℕ}
    {result : RetrievalResult} {origin : ℕ}
    (hphase : s.phase = .computed first second (some m) result origin)
    (hvector : result.vectorUsed = true) :
    Fresh (w.withMove i s ⟨.returned [first, second] result origin,
      cache.put w.store w.now (s.key rt first m) result,
      Function.update w.origin (s.key rt first m) origin,
      (s.org, m, s.key rt first m) :: w.filed⟩) := by
  have hsettled := h.settled s hs
  simp only [Settled, hphase] at hsettled
  refine ⟨h.floors, ?_, ?_, ?_, ?_, ?_⟩
  · intro t ht
    rcases mem_withMove ht with rfl | ht
    · exact h.started s hs
    · exact h.started t ht
  · intro org n digest e hfind
    by_cases hkey : resultKey org n digest = s.key rt first m
    · obtain ⟨rfl, rfl, -⟩ := resultKey_inj hkey
      rw [hkey]
      exact List.mem_cons_self
    · refine List.mem_cons_of_mem _ (h.logged org n digest e ?_)
      rw [← find_insert_of_ne w.store _ hkey]
      exact hfind
  · intro org n o hread hfiled
    refine h.current org n o ?_ (filed_of_put hs hphase hvector hfiled)
    rw [← generation_put w.store w.now s first m result org]
    exact hread
  · intro t ht role n o hlooking hfiled
    rcases mem_withMove ht with rfl | ht
    · exact absurd hlooking (by simp)
    · exact h.looking t ht role n o hlooking (filed_of_put hs hphase hvector hfiled)
  · intro t ht
    rcases mem_withMove ht with rfl | ht
    · exact hsettled
    · exact h.settled t ht

/-- A hit was alive under the number the search holds. -/
theorem settled_hit (h : Fresh w) (hs : s ∈ w.searches) {role : MembershipRole} {n : ℕ}
    {result : RetrievalResult} (hphase : s.phase = .looking role n)
    (hget : cache.get w.store w.now (s.key rt role n) = some result) :
    s.floor ≤ w.origin (s.key rt role n) := by
  obtain ⟨entry, hlive, -⟩ := get_eq_some hget
  exact h.looking s hs role n _ hphase (Filed.entry hlive)

/-- One step of a search keeps results fresh. -/
theorem fresh_move (h : Fresh w) (hs : s ∈ w.searches) {move : Move} {moved : Moved}
    (hmove : Moves rt cache w s move moved) : Fresh (w.withMove i s moved) := by
  have hsettled := h.settled s hs
  cases hmove with
  | failed failure => exact fresh_stay h hs (by simp [pendingOf]) (by simp) trivial
  | authorized hphase hrole => exact fresh_stay h hs (by simp [pendingOf]) (by simp) trivial
  | looking hphase hread =>
    refine fresh_stay h hs (by simp [pendingOf]) ?_ trivial
    intro role n hlooking
    obtain ⟨-, rfl⟩ := Phase.looking.inj hlooking
    exact hread
  | skipped hphase => exact fresh_stay h hs (by simp [pendingOf]) (by simp) trivial
  | hit hphase hget =>
    exact fresh_stay h hs (by simp [pendingOf]) (by simp) (settled_hit h hs hphase hget)
  | missed hphase => exact fresh_stay h hs (by simp [pendingOf]) (by simp) trivial
  | computed hphase hrole hcompute =>
    have hfloor : s.floor ≤ w.commits := h.floor_le_commits hs
    refine fresh_stay h hs ?_ (by simp) hfloor
    intro n origin hpending
    exact (pendingOf_computed hpending).symm
  | filed hphase hvector => exact fresh_put h hs hphase hvector
  | finished hphase =>
    simp only [Settled, hphase] at hsettled
    exact fresh_stay h hs (by simp [pendingOf]) (by simp) hsettled

end Moving

/-- At time `now` no result filed under the number is alive, and none is still to be
filed under it. -/
def Unused (w : World) (now : ℚ) (org : Uuid) (n : ℕ) : Prop :=
  (∀ f ∈ w.filed, f.1 = org → f.2.1 = n → w.store.live now f.2.2 = none) ∧
    ∀ s ∈ w.searches, s.org = org → (pendingOf s.phase).map Prod.fst ≠ some n

/-- The key of the organization's generation is alive, and no longer so at `now`. -/
def GenerationExpires (w : World) (now : ℚ) (org : Uuid) : Prop :=
  (w.store.live w.now (generationKey org)).isSome = true ∧
    w.store.live now (generationKey org) = none

/-- The organizations that results were computed for. -/
def organizations (w : World) : List Uuid := w.filed.map Prod.fst ++ w.searches.map Search.org

/-- A generation number that is issued, by a bump or by an expiry, is unused. -/
def IssuesUnused (w : World) (e : Event) : Prop :=
  match e with
  | .invalidate org true =>
    match invalidate w.store w.now org with
    | .ok (counter, _) => Unused w w.now org counter.value
    | .error _ => True
  | .tick now =>
    ∀ org ∈ organizations w, GenerationExpires w now org → Unused w now org 0
  | _ => True

section Issuing

variable {w : World}

/-- Under an unused number there is nothing. -/
theorem Fresh.not_filed (h : Fresh w) {now : ℚ} {org : Uuid} {n origin : ℕ}
    (hunused : Unused w now org n) (hfiled : Filed { w with now } org n origin) : False := by
  cases hfiled with
  | @entry digest e hlive =>
    have hlogged := h.logged org n digest e (live_eq_some.mp hlive).1
    have hdead := hunused.1 _ hlogged rfl rfl
    simp only at hlive
    rw [hdead] at hlive
    exact absurd hlive (by simp)
  | pending hs horg hpending => exact hunused.2 _ hs horg (by rw [hpending]; rfl)

theorem Filed.organization_mem (h : Fresh w) {org : Uuid} {n origin : ℕ}
    (hfiled : Filed w org n origin) : org ∈ organizations w := by
  cases hfiled with
  | @entry digest e hlive =>
    have hlogged := h.logged org n digest e (live_eq_some.mp hlive).1
    exact List.mem_append_left _ (List.mem_map.mpr ⟨_, hlogged, rfl⟩)
  | pending hs horg hpending =>
    exact List.mem_append_right _ (List.mem_map.mpr ⟨_, hs, horg⟩)

/-- Time only takes entries away. -/
theorem Filed.of_later {now : ℚ} (hle : w.now ≤ now) {org : Uuid} {n origin : ℕ}
    (h : Filed { w with now } org n origin) : Filed w org n origin := by
  cases h with
  | entry hlive => exact Filed.entry (live_of_le hle hlive)
  | pending hs horg hpending => exact Filed.pending hs horg hpending

/-- The number read later is the one read now, unless its key expired in between. -/
theorem generation_later {store : Store} {now later : ℚ} (hle : now ≤ later) {org : Uuid} {n : ℕ}
    (h : generation store later org = .ok n) : generation store now org = .ok n ∨
      (n = 0 ∧ (store.live now (generationKey org)).isSome = true ∧
        store.live later (generationKey org) = none) := by
  unfold generation Store.get at h ⊢
  cases hlater : store.live later (generationKey org) with
  | some e =>
    rw [hlater] at h
    rw [live_of_le hle hlater]
    exact Or.inl h
  | none =>
    rw [hlater] at h
    cases hnow : store.live now (generationKey org) with
    | none => exact Or.inl h
    | some e => exact Or.inr ⟨(Except.ok.inj h).symm, rfl, rfl⟩

theorem fresh_tick (h : Fresh w) {now : ℚ} (hle : w.now ≤ now)
    (hissues : IssuesUnused w (.tick now)) : Fresh { w with now } := by
  refine ⟨h.floors, h.started, h.logged, ?_, ?_, h.settled⟩
  · intro org n origin hread hfiled
    rcases generation_later hle hread with hsame | ⟨rfl, hexpires⟩
    · exact h.current org n origin hsame (hfiled.of_later hle)
    · have horg := Filed.organization_mem h (hfiled.of_later hle)
      exact (h.not_filed (hissues org horg hexpires) hfiled).elim
  · intro s hs role n origin hphase hfiled
    exact h.looking s hs role n origin hphase (hfiled.of_later hle)

theorem filed_of_invalidate {org org' : Uuid} {counter : Counter} {store : Store}
    {floor : Uuid → ℕ} (hinvalidate : invalidate w.store w.now org = .ok (counter, store))
    {n origin : ℕ} (h : Filed { w with store, floor } org' n origin) : Filed w org' n origin := by
  obtain ⟨expires, -, rfl⟩ := invalidate_eq_ok hinvalidate
  cases h with
  | @entry digest e hlive =>
    simp only at hlive
    rw [live_insert_of_ne w.store _ (resultKey_ne_generationKey org' n digest org)] at hlive
    exact Filed.entry hlive
  | pending hs horg hpending => exact Filed.pending hs horg hpending

/-- After a bump the organization reads the number that was issued. -/
theorem generation_invalidate {store store' : Store} {now : ℚ} {org : Uuid} {counter : Counter}
    (h : invalidate store now org = .ok (counter, store')) :
    generation store' now org = .ok counter.value := by
  obtain ⟨expires, hlt, rfl⟩ := invalidate_eq_ok h
  unfold generation Store.get
  rw [live_insert_self store _ _ hlt]
  exact readInt_natText counter.value

theorem generation_invalidate_of_ne {store store' : Store} {now : ℚ} {org other : Uuid}
    {counter : Counter} (h : invalidate store now org = .ok (counter, store'))
    (hne : other ≠ org) : generation store' now other = generation store now other := by
  obtain ⟨expires, -, rfl⟩ := invalidate_eq_ok h
  unfold generation Store.get
  rw [live_insert_of_ne store _ (generationKey_injective.ne hne)]

theorem fresh_invalidate (h : Fresh w) {org : Uuid} {counter : Counter} {store : Store}
    (hinvalidate : invalidate w.store w.now org = .ok (counter, store))
    (hissues : IssuesUnused w (.invalidate org true)) :
    Fresh { w with store, floor := Function.update w.floor org w.commits } := by
  have hunused : Unused w w.now org counter.value := by
    simpa [IssuesUnused, hinvalidate] using hissues
  have hfloor : ∀ other, w.floor other ≤ Function.update w.floor org w.commits other := by
    intro other
    by_cases hother : other = org
    · rw [hother, Function.update_self]
      exact h.floors org
    · rw [Function.update_of_ne hother]
  refine ⟨?_, ?_, ?_, ?_, ?_, h.settled⟩
  · intro other
    by_cases hother : other = org
    · rw [hother]
      simp only [Function.update_self, le_refl]
    · simp only [Function.update_of_ne hother]
      exact h.floors other
  · intro s hs
    exact (h.started s hs).trans (hfloor s.org)
  · intro org' n digest e hfind
    obtain ⟨expires, -, rfl⟩ := invalidate_eq_ok hinvalidate
    apply h.logged org' n digest e
    rw [← find_insert_of_ne w.store _ (resultKey_ne_generationKey org' n digest org)]
    exact hfind
  · intro other n origin hread hfiled
    have hold := filed_of_invalidate hinvalidate hfiled
    by_cases hother : other = org
    · subst hother
      obtain rfl := Except.ok.inj ((generation_invalidate hinvalidate).symm.trans hread)
      exact (h.not_filed hunused hold).elim
    · simp only [Function.update_of_ne hother]
      refine h.current other n origin ?_ hold
      rw [← generation_invalidate_of_ne hinvalidate hother]
      exact hread
  · intro s hs role n origin hphase hfiled
    exact h.looking s hs role n origin hphase (filed_of_invalidate hinvalidate hfiled)

end Issuing

/-- Commits move no floor and no entry. -/
theorem fresh_commit {w : World} (h : Fresh w) (db : Database) :
    Fresh { w with db, commits := w.commits + 1 } := by
  have hfiled : ∀ {org n origin}, Filed { w with db, commits := w.commits + 1 } org n origin →
      Filed w org n origin := by
    intro org n origin hfiled
    cases hfiled with
    | entry hlive => exact Filed.entry hlive
    | pending hs horg hpending => exact Filed.pending hs horg hpending
  refine ⟨fun org => (h.floors org).trans (Nat.le_succ _), h.started, h.logged, ?_, ?_, h.settled⟩
  · intro org n origin hread hold
    exact h.current org n origin hread (hfiled hold)
  · intro s hs role n origin hphase hold
    exact h.looking s hs role n origin hphase (hfiled hold)

theorem fresh_start {w : World} (h : Fresh w) (ctx : TenantContext) (p : Prepared)
    (model : String) : Fresh { w with
      searches := w.searches ++ [⟨ctx, p, model, w.floor ctx.organizationId, .prepared⟩] } := by
  have hmem : ∀ {s : Search}, s ∈ w.searches ++ [⟨ctx, p, model, w.floor ctx.organizationId,
      .prepared⟩] → s ∈ w.searches ∨ (s.phase = .prepared ∧ s.floor = w.floor s.org) := by
    intro s hs
    rcases List.mem_append.mp hs with hs | hs
    · exact Or.inl hs
    · obtain rfl := List.mem_singleton.mp hs
      exact Or.inr ⟨rfl, rfl⟩
  have hfiled : ∀ {org n origin}, Filed { w with searches := w.searches ++ [⟨ctx, p, model,
      w.floor ctx.organizationId, .prepared⟩] } org n origin → Filed w org n origin := by
    intro org n origin hfiled
    cases hfiled with
    | entry hlive => exact Filed.entry hlive
    | pending hs horg hpending =>
      rcases hmem hs with hs | ⟨hphase, -⟩
      · exact Filed.pending hs horg hpending
      · rw [hphase] at hpending
        exact absurd hpending (by simp [pendingOf])
  refine ⟨h.floors, ?_, h.logged, ?_, ?_, ?_⟩
  · intro s hs
    rcases hmem hs with hs | ⟨-, hfloor⟩
    · exact h.started s hs
    · exact hfloor.le
  · intro org n origin hread hold
    exact h.current org n origin hread (hfiled hold)
  · intro s hs role n origin hphase hold
    rcases hmem hs with hs | ⟨hprepared, -⟩
    · exact h.looking s hs role n origin hphase (hfiled hold)
    · exact absurd (hprepared.symm.trans hphase) (by simp)
  · intro s hs
    rcases hmem hs with hs | ⟨hprepared, -⟩
    · exact h.settled s hs
    · simp [Settled, hprepared]

theorem fresh_step (rt : Runtime) (cache : Cache) {w w' : World} {e : Event} (h : Fresh w)
    (hissues : IssuesUnused w e) (hstep : step rt cache w e = some w') : Fresh w' := by
  cases step_happens hstep with
  | started ctx request clock model p => exact fresh_start h ctx p model
  | moved hs hmove => exact fresh_move h (List.mem_of_getElem? hs) hmove
  | roleChanged org userId role => exact fresh_commit h _
  | committed hkey => exact fresh_commit h _
  | invalidated hinvalidate => exact fresh_invalidate h hinvalidate hissues
  | unreached org => exact h
  | ticked hle => exact fresh_tick h hle hissues

theorem Start.fresh {w : World} (h : Start w) : Fresh w := by
  have hempty : ∀ key, w.store.find key = none := by
    intro key
    rw [h.store]
    rfl
  refine ⟨h.floor, by simp [h.searches], ?_, ?_, by simp [h.searches], by simp [h.searches]⟩
  · intro org n digest e hfind
    rw [hempty] at hfind
    exact absurd hfind (by simp)
  · intro org n origin _ hfiled
    cases hfiled with
    | entry hlive =>
      have hfind := (live_eq_some.mp hlive).1
      rw [hempty] at hfind
      exact absurd hfind (by simp)
    | pending hs horg hpending =>
      rw [h.searches] at hs
      exact absurd hs (by simp)

/-- While only unused generation numbers are issued, what a search returns was computed
from a state no older than the last invalidation before the search started. -/
theorem returned_since_invalidation (rt : Runtime) (cache : Cache) (start w : World)
    (trace : List Event) (hstart : Start start)
    (hrun : (system rt cache).run start trace = some w)
    (hmeets : (system rt cache).RunMeets IssuesUnused start trace) :
    ∀ s ∈ w.searches, ∀ roles result origin, s.phase = .returned roles result origin →
      s.floor ≤ origin := by
  have hfresh := (system rt cache).run_preserves_of_meets IssuesUnused Fresh
    (fun _ _ _ hw hissues hstep => fresh_step rt cache hw hissues hstep) hrun hmeets
    (Start.fresh hstart)
  intro s hs roles result origin hphase
  have hsettled := hfresh.settled s hs
  simp only [Settled, hphase] at hsettled
  exact hsettled

instance (w : World) (now : ℚ) (org : Uuid) (n : ℕ) : Decidable (Unused w now org n) :=
  inferInstanceAs (Decidable (_ ∧ _))

instance (w : World) (now : ℚ) (org : Uuid) : Decidable (GenerationExpires w now org) :=
  inferInstanceAs (Decidable (_ ∧ _))

instance (w : World) : DecidablePred (IssuesUnused w)
  | .invalidate org true =>
    match h : invalidate w.store w.now org with
    | .ok (counter, _) => decidable_of_iff (Unused w w.now org counter.value)
        (by simp [IssuesUnused, h])
    | .error _ => isTrue (by simp [IssuesUnused, h])
  | .tick now => List.decidableBAll
      (fun org => GenerationExpires w now org → Unused w now org 0) (organizations w)
  | .start .. => isTrue trivial
  | .move .. => isTrue trivial
  | .changeRole .. => isTrue trivial
  | .commit _ => isTrue trivial
  | .invalidate _ false => isTrue trivial

/-- The digest of what a viewer's search hashes, the only text hashed below. -/
def viewerHash : Runtime :=
  ⟨fun _ => true, fun _ => "b648825d88a81717b28e1959369d8dbf19de5ca24575e85e2e2cfd7b24449237"⟩

/-- The database after a second version. -/
def rewritten : Database :=
  viewersAfter [(exampleCommand true 0, 10, ⟨10, 11, 12⟩), (exampleCommand false 5, 30, ⟨20, 21, 22⟩)]

/-- A cache that reads back what is found before and after the second version. -/
def rewrittenCache : Cache :=
  ⟨listCodec (answers (viewersDatabase .internal) ++ answers rewritten), 60⟩

/-- A search files its result, a second version is recorded and the generation bumped;
the next search computes again, and the one after it finds that result. -/
def bumped : List Event :=
  looksUp 0 2 ++ computesAndFiles 0 ++ [.commit rewritten, .invalidate 1 true, .tick 10] ++
    looksUp 1 2 ++ computesAndFiles 1 ++ [.tick 20] ++ looksUp 2 4

/-- The floor of the last search, and the origin and status of what it returned. -/
def lastAges (w : World) : Option (ℕ × ℕ × CacheStatus) :=
  match w.searches.getLast? with
  | some s =>
    match s.phase with
    | .returned _ result origin => some (s.floor, origin, result.cache)
    | _ => none
  | none => none

theorem lastAges_eq_some {w : World} {floor origin : ℕ} {status : CacheStatus}
    (h : lastAges w = some (floor, origin, status)) :
    ∃ s ∈ w.searches, ∃ roles result, s.phase = .returned roles result origin ∧
      s.floor = floor ∧ result.cache = status := by
  unfold lastAges at h
  split at h
  · rename_i s hs
    split at h
    · rename_i roles result origin' hphase
      obtain ⟨hfloor, hrest⟩ := Prod.mk.inj (Option.some.inj h)
      obtain ⟨rfl, hstatus⟩ := Prod.mk.inj hrest
      exact ⟨s, List.mem_of_getLast? hs, roles, result, hphase, hfloor, hstatus⟩
    · exact absurd h (by simp)
  · exact absurd h (by simp)

theorem returned_since_invalidation_example :
    ∃ w, (system viewerHash rewrittenCache).run (viewersWorld .internal) bumped = some w ∧
      lastAges w = some (1, 1, .hit) ∧
      ∀ s ∈ w.searches, ∀ roles result origin, s.phase = .returned roles result origin →
        s.floor ≤ origin := by
  have hruns : ((system viewerHash rewrittenCache).run (viewersWorld .internal) bumped).bind
      lastAges = some (1, 1, .hit) := by
    decide +kernel
  obtain ⟨w, hrun, hages⟩ := Option.bind_eq_some_iff.mp hruns
  exact ⟨w, hrun, hages, returned_since_invalidation viewerHash rewrittenCache
    (viewersWorld .internal) w bumped (viewersWorld_start .internal) hrun (by decide +kernel)⟩

/-- Whether a step found the store available, if it used it. -/
def Event.reachesStore : Event → Bool
  | .move _ (.readGeneration available) => available
  | .move _ (.lookup available) => available
  | .move _ (.finish available) => available
  | .invalidate _ available => available
  | _ => true

/-- The first bump creates the key. A result is filed half a minute before the key
expires; five seconds after that a second version is recorded and the generation
bumped, which issues 1 once more. -/
def reissued : List Event :=
  [.commit (viewersDatabase .internal), .invalidate 1 true, .tick 604770] ++ looksUp 0 2 ++
    computesAndFiles 0 ++ [.tick 604805, .commit rewritten, .invalidate 1 true] ++ looksUp 1 4

/-- A search that starts after a bump can find a result older than the write before it. -/
theorem returned_before_invalidation :
    ¬ ∀ (rt : Runtime) (cache : Cache) (start w : World) (trace : List Event),
      Start start → (system rt cache).run start trace = some w →
      (∀ e ∈ trace, Event.reachesStore e = true) →
      ∀ s ∈ w.searches, ∀ roles result origin, s.phase = .returned roles result origin →
        result.cache = .hit → s.floor ≤ origin := by
  intro h
  have hruns : ((system viewerHash rewrittenCache).run (viewersWorld .internal) reissued).bind
      lastAges = some (2, 1, .hit) := by
    decide +kernel
  obtain ⟨w, hrun, hages⟩ := Option.bind_eq_some_iff.mp hruns
  obtain ⟨s, hs, roles, result, hphase, hfloor, hhit⟩ := lastAges_eq_some hages
  have hle := h viewerHash rewrittenCache _ w reissued (viewersWorld_start .internal) hrun
    (by decide) s hs roles result 1 hphase hhit
  rw [hfloor] at hle
  exact absurd hle (by decide)

end ContextLedger.CacheFreshness
