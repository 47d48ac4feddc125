import ContextLedger.SharedCache

/-!
The cache does not widen what a caller sees as long as no role is raised between
the two reads of one search. An entry then holds versions in the scopes of its
key only, whoever filed it, and a caller who finds it has those scopes. When the
role is raised in between, a wider result is filed under the narrower key.
-/
namespace ContextLedger.CachePrivacy

open JsonText JsonInjective Values Authorization Schema Facts Retrieval MemoryStore RetrievalCache
open SharedCache

/-- Every version of a result has one of the scopes. -/
def Within (result : RetrievalResult) (scopes : List PrivacyScope) : Prop :=
  ∀ f ∈ result.results, f.version.privacyScope ∈ scopes

theorem within_iff (result : RetrievalResult) (scopes : List PrivacyScope) :
    Within result scopes ↔ ∀ e ∈ scopesOf result, e.2 ∈ scopes := by
  simp [Within, scopesOf]

/-- What is read back from an entry is within the scopes of what was written. -/
theorem Within.decoded {codec : Codec} {result read : RetrievalResult}
    {scopes : List PrivacyScope} (h : Within result scopes)
    (hread : codec.validateJson (codec.dumpJson result) = some read) : Within read scopes := by
  rw [within_iff, codec.faithful hread, ← within_iff]
  exact h

/-- What a search has in hand, or has answered, is within scopes of its own roles. -/
def Proper (s : Search) : Prop :=
  match s.phase with
  | .computed first second held result _ =>
    Within result (s.scopes second) ∧
      (held.isSome = true → result.vectorUsed = true → Within result (s.scopes first))
  | .returned roles result _ =>
    ∀ f ∈ result.results, ∃ role ∈ roles, f.version.privacyScope ∈ s.scopes role
  | _ => True

/-- Whatever is filed under a key of a search is within the scopes of that key. -/
def EntriesWithin (rt : Runtime) (cache : Cache) (store : Store) : Prop :=
  ∀ (s : Search) (role : MembershipRole) (n : ℕ) (entry : Entry) (result : RetrievalResult),
    store.find (s.key rt role n) = some entry →
    cache.codec.validateJson entry.value = some result → Within result (s.scopes role)

structure Private (rt : Runtime) (cache : Cache) (w : World) : Prop where
  versionKey : VersionKey w.db
  entries : EntriesWithin rt cache w.store
  searches : ∀ s ∈ w.searches, Proper s

/-- The scopes of the role in the second read are among those of the first. -/
def RoleKept (db : Database) (s : Search) (index : SearchIndex) : Prop :=
  match s.phase, requirePermission db s.ctx .readFacts with
  | .missed first (some _), .ok second =>
    (index.embed s.prepared.query).isSome = true → s.scopes second ⊆ s.scopes first
  | _, _ => True

/-- No search whose result will be filed finds its caller's role raised. -/
def KeepsRole (w : World) (e : Event) : Prop :=
  match e with
  | .move i (.compute index) =>
    match w.searches[i]? with
    | some s => RoleKept w.db s index
    | none => True
  | _ => True

section Filing

variable {rt : Runtime} {cache : Cache}

theorem entriesWithin_put (hsha : Function.Injective rt.sha256) {store : Store} {now : ℚ}
    (h : EntriesWithin rt cache store) {s : Search} {role : MembershipRole} {n : ℕ}
    {result : RetrievalResult} (hresult : Within result (s.scopes role)) :
    EntriesWithin rt cache (cache.put store now (s.key rt role n) result) := by
  intro t role' n' entry read hfind hread
  rw [put_eq] at hfind
  by_cases hkey : t.key rt role' n' = s.key rt role n
  · rw [hkey] at hfind
    obtain rfl := Option.some.inj ((find_insert_self store _ _).symm.trans hfind)
    intro f hf
    exact (mem_scopes_of_key hsha hkey _).mpr (hresult.decoded hread f hf)
  · rw [find_insert_of_ne store _ hkey] at hfind
    exact h t role' n' entry read hfind hread

/-- Bumping a generation touches no result. -/
theorem entriesWithin_invalidate {store store' : Store} {now : ℚ} {org : Uuid}
    {counter : Counter} (h : EntriesWithin rt cache store)
    (hinvalidate : invalidate store now org = .ok (counter, store')) :
    EntriesWithin rt cache store' := by
  obtain ⟨expires, -, rfl⟩ := invalidate_eq_ok hinvalidate
  intro s role n entry read hfind hread
  rw [find_insert_of_ne store _ (s.key_ne_generationKey rt role n org)] at hfind
  exact h s role n entry read hfind hread

variable {w : World} {s : Search}

/-- A hit is within the scopes of the role that looked it up. -/
theorem proper_hit (h : Private rt cache w) {role : MembershipRole} {n : ℕ}
    {result : RetrievalResult} {origin : ℕ}
    (hget : cache.get w.store w.now (s.key rt role n) = some result) :
    Proper { s with phase := .returned [role] { result with cache := .hit } origin } := by
  obtain ⟨entry, hlive, hread⟩ := get_eq_some hget
  have hwithin := h.entries s role n entry result (live_eq_some.mp hlive).1 hread
  intro f hf
  exact ⟨role, by simp, hwithin f hf⟩

theorem proper_computed (h : Private rt cache w) {first second : MembershipRole}
    {held : Option ℕ} {index : SearchIndex} {status : CacheStatus} {result : RetrievalResult}
    (hphase : s.phase = .missed first held)
    (hrole : requirePermission w.db s.ctx .readFacts = .ok second)
    (hcompute : compute w.db s.ctx s.prepared index status = .ok result)
    (hkept : RoleKept w.db s index) :
    Proper { s with phase := .computed first second held result w.commits } := by
  obtain ⟨role, hread, -, hvector, hscopes⟩ := compute_eq_ok h.versionKey hcompute
  obtain rfl := Except.ok.inj (hread.symm.trans hrole)
  refine ⟨hscopes, ?_⟩
  intro hheld hused f hf
  obtain ⟨n, rfl⟩ := Option.isSome_iff_exists.mp hheld
  simp only [RoleKept, hphase, hrole] at hkept
  rw [hvector] at hused
  exact hkept hused (hscopes f hf)

/-- One step of a search keeps the searches proper and the entries within scopes. -/
theorem private_move (hsha : Function.Injective rt.sha256) (h : Private rt cache w)
    (hs : Proper s) {move : Move} {moved : Moved} (hmove : Moves rt cache w s move moved)
    (hkept : ∀ index, move = .compute index → RoleKept w.db s index) :
    EntriesWithin rt cache moved.store ∧ Proper { s with phase := moved.phase } := by
  cases hmove with
  | failed failure => exact ⟨h.entries, trivial⟩
  | authorized hphase hrole => exact ⟨h.entries, trivial⟩
  | looking hphase hread => exact ⟨h.entries, trivial⟩
  | skipped hphase => exact ⟨h.entries, trivial⟩
  | hit hphase hget => exact ⟨h.entries, proper_hit h hget⟩
  | missed hphase => exact ⟨h.entries, trivial⟩
  | computed hphase hrole hcompute =>
    exact ⟨h.entries, proper_computed h hphase hrole hcompute (hkept _ rfl)⟩
  | filed hphase hvector =>
    simp only [Proper, hphase] at hs
    refine ⟨entriesWithin_put hsha h.entries (hs.2 rfl hvector), ?_⟩
    intro f hf
    exact ⟨_, by simp, hs.1 f hf⟩
  | finished hphase =>
    simp only [Proper, hphase] at hs
    refine ⟨h.entries, ?_⟩
    intro f hf
    exact ⟨_, by simp, hs.1 f hf⟩

end Filing

theorem private_step {rt : Runtime} {cache : Cache} (hsha : Function.Injective rt.sha256)
    {w w' : World} {e : Event} (h : Private rt cache w) (hkept : KeepsRole w e)
    (hstep : step rt cache w e = some w') : Private rt cache w' := by
  cases step_happens hstep with
  | started ctx request clock model p =>
    refine ⟨h.versionKey, h.entries, ?_⟩
    intro s hs
    rcases List.mem_append.mp hs with hs | hs
    · exact h.searches s hs
    · obtain rfl := List.mem_singleton.mp hs
      trivial
  | @moved i s move moved hs hmove =>
    have hmem := List.mem_of_getElem? hs
    obtain ⟨hentries, hproper⟩ := private_move hsha h (h.searches s hmem) hmove (by
      rintro index rfl
      simpa [KeepsRole, hs] using hkept)
    refine ⟨h.versionKey, hentries, ?_⟩
    intro t ht
    rcases mem_withMove ht with rfl | ht
    · exact hproper
    · exact h.searches t ht
  | roleChanged org userId role => exact ⟨h.versionKey, h.entries, h.searches⟩
  | committed hkey => exact ⟨hkey, h.entries, h.searches⟩
  | invalidated hinvalidate =>
    exact ⟨h.versionKey, entriesWithin_invalidate h.entries hinvalidate, h.searches⟩
  | unreached org => exact h
  | ticked hle => exact ⟨h.versionKey, h.entries, h.searches⟩

/-- While no role is raised between the two reads of a search, every version a search
returns has a scope that one of its own roles may see. -/
theorem cache_never_widens (rt : Runtime) (cache : Cache) (hsha : Function.Injective rt.sha256)
    (start w : World) (trace : List Event) (hstart : Start start)
    (hrun : (system rt cache).run start trace = some w)
    (hmeets : (system rt cache).RunMeets KeepsRole start trace) :
    ∀ s ∈ w.searches, ∀ roles result origin, s.phase = .returned roles result origin →
      ∀ f ∈ result.results, ∃ role ∈ roles, f.version.privacyScope ∈
        visiblePrivacyScopes role [s.prepared.request.maxPrivacyScope, s.ctx.maxPrivacyScope] := by
  have hinit : Private rt cache start :=
    ⟨hstart.versionKey, by simp [EntriesWithin, hstart.store, Store.find, MemoryStore.empty],
      by simp [hstart.searches]⟩
  have hprivate := (system rt cache).run_preserves_of_meets KeepsRole (Private rt cache)
    (fun _ _ _ hw hkept hstep => private_step hsha hw hkept hstep) hrun hmeets hinit
  intro s hs roles result origin hphase
  have hproper := hprivate.searches s hs
  simp only [Proper, hphase] at hproper
  exact hproper

instance (db : Database) (s : Search) (index : SearchIndex) : Decidable (RoleKept db s index) := by
  unfold RoleKept
  split <;> infer_instance

instance (w : World) (e : Event) : Decidable (KeepsRole w e) := by
  unfold KeepsRole
  split
  · split <;> infer_instance
  · infer_instance

/-- The digest of what a viewer's search hashes. -/
def viewerDigests : List (String × String) :=
  (prepare exampleRuntime (exampleQuery none) 20).toOption.toList.map fun p =>
    (dumpsSorted defaultStyle (material [.public, .internal] "hash-v1" p),
      "b648825d88a81717b28e1959369d8dbf19de5ca24575e85e2e2cfd7b24449237")

def viewerRuntime : Runtime := ⟨fun _ => true, digesting viewerDigests⟩

/-- One viewer's search files its result, and another viewer finds it. -/
def shares : List Event := looksUp 0 2 ++ computesAndFiles 0 ++ looksUp 1 4

theorem cache_never_widens_example :
    ∃ w, (system viewerRuntime (answersCache (viewersDatabase .internal))).run
        (viewersWorld .internal) shares = some w ∧
      lastReturned w = some ([.viewer], [.internal], .hit) ∧
      ∀ s ∈ w.searches, ∀ roles result origin, s.phase = .returned roles result origin →
        ∀ f ∈ result.results, ∃ role ∈ roles, f.version.privacyScope ∈
          visiblePrivacyScopes role
            [s.prepared.request.maxPrivacyScope, s.ctx.maxPrivacyScope] := by
  have hruns : ((system viewerRuntime (answersCache (viewersDatabase .internal))).run
      (viewersWorld .internal) shares).bind lastReturned =
        some ([.viewer], [.internal], .hit) := by
    decide +kernel
  obtain ⟨w, hrun, hlast⟩ := Option.bind_eq_some_iff.mp hruns
  exact ⟨w, hrun, hlast, cache_never_widens viewerRuntime _ (digesting viewerDigests).injective
    (viewersWorld .internal) w shares (viewersWorld_start .internal) hrun (by decide +kernel)⟩

/-- Searches, role changes and invalidations. -/
def Event.isAccess : Event → Bool
  | .commit _ => false
  | .tick _ => false
  | _ => true

/-- The role of a viewer is raised between the two reads of a search; then another
viewer searches. -/
def raisedBetween : List Event :=
  looksUp 0 2 ++ .changeRole 1 2 .engineer :: computesAndFiles 0 ++ looksUp 1 4

/-- A viewer who stays a viewer is shown a confidential version. -/
theorem cache_widens :
    ¬ ∀ (rt : Runtime) (cache : Cache) (start w : World) (trace : List Event),
      Function.Injective rt.sha256 → Start start → (system rt cache).run start trace = some w →
      (∀ e ∈ trace, Event.isAccess e = true) →
      ∀ s ∈ w.searches, ∀ roles result origin, s.phase = .returned roles result origin →
        ∀ f ∈ result.results, ∃ role ∈ roles, f.version.privacyScope ∈
          visiblePrivacyScopes role
            [s.prepared.request.maxPrivacyScope, s.ctx.maxPrivacyScope] := by
  intro h
  have hruns : ((system viewerRuntime (answersCache (withRole (viewersDatabase .confidential) 1 2
      .engineer))).run (viewersWorld .confidential) raisedBetween).bind lastReturned =
        some ([.viewer], [.confidential], .hit) := by
    decide +kernel
  obtain ⟨w, hrun, hlast⟩ := Option.bind_eq_some_iff.mp hruns
  obtain ⟨s, hs, result, origin, hphase, hscopes, -⟩ := lastReturned_eq_some hlast
  have hwithin := h viewerRuntime _ _ w raisedBetween (digesting viewerDigests).injective
    (viewersWorld_start .confidential) hrun (by decide) s hs _ result origin hphase
  obtain ⟨f, hf, hscope⟩ : ∃ f ∈ result.results, f.version.privacyScope = .confidential := by
    simpa using (List.mem_map.mp (hscopes ▸ List.mem_singleton.mpr rfl))
  obtain ⟨role, hrole, hmem⟩ := hwithin f hf
  obtain rfl := List.mem_singleton.mp hrole
  have hrank := privacyRank_le_of_visible hmem
  rw [hscope] at hrank
  exact absurd hrank (by decide)

end ContextLedger.CachePrivacy
