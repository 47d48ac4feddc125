import ContextLedger.RetrievalCache
import ContextLedger.Transition

/-!
Searches that share one cache, step by step. A search reads the caller's role,
the generation and the cache, and on a miss reads the role again in the
transaction that computes the result, and files it under the key it looked up.
Between any two of its steps other searches move, writes commit, generations are
bumped and time passes. The world also counts commits and remembers how many a
cached result and an invalidation had behind them; the code knows nothing of it.
-/
namespace ContextLedger.SharedCache

open Values Authorization Schema Facts Retrieval MemoryStore RetrievalCache

/-- Where a search stands, with the roles it has read. `generation` is missing
when the store could not be reached, and then the cache is not used. -/
inductive Phase where
  | prepared
  | authorized (role : MembershipRole)
  | looking (role : MembershipRole) (generation : ℕ)
  | missed (role : MembershipRole) (generation : Option ℕ)
  | computed (first second : MembershipRole) (generation : Option ℕ) (result : RetrievalResult)
      (origin : ℕ)
  | returned (roles : List MembershipRole) (result : RetrievalResult) (origin : ℕ)
  | failed (failure : Failure)

/-- `floor` is what the last invalidation before the start had behind it. -/
structure Search where
  ctx : TenantContext
  prepared : Prepared
  model : String
  floor : ℕ
  phase : Phase

def Search.org (s : Search) : Uuid := s.ctx.organizationId

def Search.scopes (s : Search) (role : MembershipRole) : List PrivacyScope :=
  visiblePrivacyScopes role [s.prepared.request.maxPrivacyScope, s.ctx.maxPrivacyScope]

def Search.key (rt : Runtime) (s : Search) (role : MembershipRole) (generation : ℕ) : String :=
  RetrievalCache.key rt s.org generation (s.scopes role) s.model s.prepared

theorem Search.key_ne_generationKey (rt : Runtime) (s : Search) (role : MembershipRole) (n : ℕ)
    (org : Uuid) : s.key rt role n ≠ generationKey org :=
  resultKey_ne_generationKey _ _ _ org

/-- `floor` by organization, `origin` by cache key; `filed` lists the organization,
generation and key of every result that was filed. -/
structure World where
  db : Database
  store : Store
  now : ℚ
  searches : List Search
  commits : ℕ
  floor : Uuid → ℕ
  origin : String → ℕ
  filed : List (Uuid × ℕ × String)

/-- The next step of one search; a store operation may find the store unavailable. -/
inductive Move where
  | authorize
  | readGeneration (available : Bool)
  | lookup (available : Bool)
  | compute (index : SearchIndex)
  | finish (available : Bool)

inductive Event where
  | start (ctx : TenantContext) (request : RetrievalQuery) (clock : Instant) (model : String)
  | move (i : ℕ) (move : Move)
  | changeRole (org userId : Uuid) (role : MembershipRole)
  | commit (db : Database)
  | invalidate (org : Uuid) (available : Bool)
  | tick (now : ℚ)

/-- The membership row of a user takes another role. -/
def withRole (db : Database) (org userId : Uuid) (role : MembershipRole) : Database :=
  { db with memberships := db.memberships.map fun m =>
      if m.organizationId = org ∧ m.userId = userId then { m with role } else m }

/-- What a step of a search leaves: its phase, the store, and where entries come from. -/
structure Moved where
  phase : Phase
  store : Store
  origin : String → ℕ
  filed : List (Uuid × ℕ × String)

variable (rt : Runtime) (cache : Cache)

/-- The phase after a lookup; a store that cannot be reached is a miss. -/
def lookupPhase (w : World) (s : Search) (role : MembershipRole) (generation : ℕ)
    (available : Bool) : Phase :=
  let found := if available then cache.get w.store w.now (s.key rt role generation) else none
  match found with
  | some result =>
    .returned [role] { result with cache := .hit } (w.origin (s.key rt role generation))
  | none => .missed role (some generation)

/-- The phase after the transaction that computes the result. -/
def computePhase (w : World) (s : Search) (first : MembershipRole) (generation : Option ℕ)
    (index : SearchIndex) : Phase :=
  let status : CacheStatus := if generation.isSome then .miss else .off
  match requirePermission w.db s.ctx .readFacts with
  | .error failure => .failed failure
  | .ok second =>
    match compute w.db s.ctx s.prepared index status with
    | .error failure => .failed failure
    | .ok result => .computed first second generation result w.commits

/-- A degraded answer is not cached. -/
def finishMove (w : World) (s : Search) (first second : MembershipRole) (generation : Option ℕ)
    (result : RetrievalResult) (origin : ℕ) (available : Bool) : Moved :=
  let phase : Phase := .returned [first, second] result origin
  match generation with
  | none => ⟨phase, w.store, w.origin, w.filed⟩
  | some n =>
    if result.vectorUsed && available then
      ⟨phase, cache.put w.store w.now (s.key rt first n) result,
        Function.update w.origin (s.key rt first n) origin,
        (s.org, n, s.key rt first n) :: w.filed⟩
    else ⟨phase, w.store, w.origin, w.filed⟩

def moveSearch (w : World) (s : Search) (move : Move) : Option Moved :=
  let stay (phase : Phase) : Moved := ⟨phase, w.store, w.origin, w.filed⟩
  match s.phase, move with
  | .prepared, .authorize =>
    match requirePermission w.db s.ctx .readFacts with
    | .error failure => some (stay (.failed failure))
    | .ok role => some (stay (.authorized role))
  | .authorized role, .readGeneration available =>
    if available then
      match generation w.store w.now s.org with
      | .error failure => some (stay (.failed failure))
      | .ok n => some (stay (.looking role n))
    else some (stay (.missed role none))
  | .looking role n, .lookup available => some (stay (lookupPhase rt cache w s role n available))
  | .missed role generation, .compute index =>
    if index.modelId = s.model then some (stay (computePhase w s role generation index)) else none
  | .computed first second generation result origin, .finish available =>
    some (finishMove rt cache w s first second generation result origin available)
  | _, _ => none

def step (w : World) : Event → Option World
  | .start ctx request clock model =>
    match prepare rt request clock with
    | .error _ => none
    | .ok p => some { w with
        searches := w.searches ++ [⟨ctx, p, model, w.floor ctx.organizationId, .prepared⟩] }
  | .move i move =>
    match w.searches[i]? with
    | none => none
    | some s => (moveSearch rt cache w s move).map fun moved =>
      { w with
        store := moved.store
        origin := moved.origin
        filed := moved.filed
        searches := w.searches.set i { s with phase := moved.phase } }
  | .changeRole org userId role =>
    some { w with db := withRole w.db org userId role, commits := w.commits + 1 }
  | .commit db => if VersionKey db then some { w with db, commits := w.commits + 1 } else none
  | .invalidate org available =>
    if available then
      match invalidate w.store w.now org with
      | .error _ => none
      | .ok (_, store) => some { w with store, floor := Function.update w.floor org w.commits }
    else some w
  | .tick now => if w.now ≤ now then some { w with now } else none

/-- An empty cache, and no search under way. -/
structure Start (w : World) : Prop where
  store : w.store = MemoryStore.empty
  searches : w.searches = []
  versionKey : VersionKey w.db
  floor : ∀ org, w.floor org ≤ w.commits

def system : Transition.System World Event := ⟨Start, step rt cache⟩

/-- What a step of a search can do. -/
inductive Moves (w : World) (s : Search) : Move → Moved → Prop
  | failed {move : Move} (failure : Failure) :
      Moves w s move ⟨.failed failure, w.store, w.origin, w.filed⟩
  | authorized {role : MembershipRole} (hphase : s.phase = .prepared)
      (hrole : requirePermission w.db s.ctx .readFacts = .ok role) :
      Moves w s .authorize ⟨.authorized role, w.store, w.origin, w.filed⟩
  | looking {role : MembershipRole} {n : ℕ} (hphase : s.phase = .authorized role)
      (hread : generation w.store w.now s.org = .ok n) :
      Moves w s (.readGeneration true) ⟨.looking role n, w.store, w.origin, w.filed⟩
  | skipped {role : MembershipRole} (hphase : s.phase = .authorized role) :
      Moves w s (.readGeneration false) ⟨.missed role none, w.store, w.origin, w.filed⟩
  | hit {role : MembershipRole} {n : ℕ} {result : RetrievalResult}
      (hphase : s.phase = .looking role n)
      (hget : cache.get w.store w.now (s.key rt role n) = some result) :
      Moves w s (.lookup true) ⟨.returned [role] { result with cache := .hit }
        (w.origin (s.key rt role n)), w.store, w.origin, w.filed⟩
  | missed {role : MembershipRole} {n : ℕ} {available : Bool}
      (hphase : s.phase = .looking role n) :
      Moves w s (.lookup available) ⟨.missed role (some n), w.store, w.origin, w.filed⟩
  | computed {first second : MembershipRole} {held : Option ℕ} {index : SearchIndex}
      {status : CacheStatus} {result : RetrievalResult} (hphase : s.phase = .missed first held)
      (hrole : requirePermission w.db s.ctx .readFacts = .ok second)
      (hcompute : compute w.db s.ctx s.prepared index status = .ok result) :
      Moves w s (.compute index)
        ⟨.computed first second held result w.commits, w.store, w.origin, w.filed⟩
  | filed {first second : MembershipRole} {n : ℕ} {result : RetrievalResult} {origin : ℕ}
      (hphase : s.phase = .computed first second (some n) result origin)
      (hvector : result.vectorUsed = true) :
      Moves w s (.finish true) ⟨.returned [first, second] result origin,
        cache.put w.store w.now (s.key rt first n) result,
        Function.update w.origin (s.key rt first n) origin,
        (s.org, n, s.key rt first n) :: w.filed⟩
  | finished {first second : MembershipRole} {held : Option ℕ} {result : RetrievalResult}
      {origin : ℕ} {available : Bool}
      (hphase : s.phase = .computed first second held result origin) :
      Moves w s (.finish available)
        ⟨.returned [first, second] result origin, w.store, w.origin, w.filed⟩

variable {rt cache} {w : World} {s : Search}

theorem moves_lookup {role : MembershipRole} {n : ℕ} (available : Bool)
    (hphase : s.phase = .looking role n) : Moves rt cache w s (.lookup available)
      ⟨lookupPhase rt cache w s role n available, w.store, w.origin, w.filed⟩ := by
  unfold lookupPhase
  cases available with
  | false => exact Moves.missed hphase
  | true =>
    cases hget : cache.get w.store w.now (s.key rt role n) with
    | none => simpa [hget] using Moves.missed hphase
    | some result => simpa [hget] using Moves.hit hphase hget

theorem moves_compute {first : MembershipRole} {held : Option ℕ} (index : SearchIndex)
    (hphase : s.phase = .missed first held) : Moves rt cache w s (.compute index)
      ⟨computePhase w s first held index, w.store, w.origin, w.filed⟩ := by
  unfold computePhase
  cases hrole : requirePermission w.db s.ctx .readFacts with
  | error failure => exact Moves.failed failure
  | ok second =>
    simp only
    split
    · exact Moves.failed _
    · rename_i result hcompute
      exact Moves.computed hphase hrole hcompute

theorem moves_finish {first second : MembershipRole} {held : Option ℕ} {result : RetrievalResult}
    {origin : ℕ} (available : Bool) (hphase : s.phase = .computed first second held result origin) :
    Moves rt cache w s (.finish available)
      (finishMove rt cache w s first second held result origin available) := by
  unfold finishMove
  cases held with
  | none => exact Moves.finished hphase
  | some n =>
    simp only
    split
    · rename_i hfiled
      obtain ⟨hvector, rfl⟩ := Bool.and_eq_true_iff.mp hfiled
      exact Moves.filed hphase hvector
    · exact Moves.finished hphase

theorem moveSearch_moves {move : Move} {moved : Moved}
    (h : moveSearch rt cache w s move = some moved) : Moves rt cache w s move moved := by
  unfold moveSearch at h
  split at h
  · rename_i hphase
    split at h
    · obtain rfl := Option.some.inj h
      exact Moves.failed _
    · rename_i hrole
      obtain rfl := Option.some.inj h
      exact Moves.authorized hphase hrole
  · rename_i hphase
    split at h
    · rename_i havailable
      subst havailable
      split at h
      · obtain rfl := Option.some.inj h
        exact Moves.failed _
      · rename_i hread
        obtain rfl := Option.some.inj h
        exact Moves.looking hphase hread
    · rename_i havailable
      obtain rfl := Option.some.inj h
      rw [Bool.not_eq_true] at havailable
      subst havailable
      exact Moves.skipped hphase
  · rename_i hphase
    obtain rfl := Option.some.inj h
    exact moves_lookup _ hphase
  · rename_i hphase
    split at h
    · obtain rfl := Option.some.inj h
      exact moves_compute _ hphase
    · exact absurd h (by simp)
  · rename_i hphase
    obtain rfl := Option.some.inj h
    exact moves_finish _ hphase
  · exact absurd h (by simp)

/-- The world after a step of its search number `i`. -/
def World.withMove (w : World) (i : ℕ) (s : Search) (moved : Moved) : World :=
  { w with
    store := moved.store
    origin := moved.origin
    filed := moved.filed
    searches := w.searches.set i { s with phase := moved.phase } }

variable (rt cache w) in
/-- What an event can do. -/
inductive Happens : Event → World → Prop
  | started (ctx : TenantContext) (request : RetrievalQuery) (clock : Instant) (model : String)
      (p : Prepared) : Happens (.start ctx request clock model) { w with
        searches := w.searches ++ [⟨ctx, p, model, w.floor ctx.organizationId, .prepared⟩] }
  | moved {i : ℕ} {s : Search} {move : Move} {moved : Moved} (hs : w.searches[i]? = some s)
      (hmove : Moves rt cache w s move moved) : Happens (.move i move) (w.withMove i s moved)
  | roleChanged (org userId : Uuid) (role : MembershipRole) :
      Happens (.changeRole org userId role)
        { w with db := withRole w.db org userId role, commits := w.commits + 1 }
  | committed {db : Database} (hkey : VersionKey db) :
      Happens (.commit db) { w with db, commits := w.commits + 1 }
  | invalidated {org : Uuid} {counter : Counter} {store : Store}
      (hinvalidate : invalidate w.store w.now org = .ok (counter, store)) :
      Happens (.invalidate org true)
        { w with store, floor := Function.update w.floor org w.commits }
  | unreached (org : Uuid) : Happens (.invalidate org false) w
  | ticked {now : ℚ} (hle : w.now ≤ now) : Happens (.tick now) { w with now }

theorem step_happens {e : Event} {w' : World} (h : step rt cache w e = some w') :
    Happens rt cache w e w' := by
  unfold step at h
  split at h
  · split at h
    · exact absurd h (by simp)
    · obtain rfl := Option.some.inj h
      exact Happens.started _ _ _ _ _
  · split at h
    · exact absurd h (by simp)
    · rename_i s hs
      obtain ⟨moved, hmoved, rfl⟩ := Option.map_eq_some_iff.mp h
      exact Happens.moved hs (moveSearch_moves hmoved)
  · obtain rfl := Option.some.inj h
    exact Happens.roleChanged _ _ _
  · split at h
    · rename_i hkey
      obtain rfl := Option.some.inj h
      exact Happens.committed hkey
    · exact absurd h (by simp)
  · rename_i org available
    cases available with
    | false =>
      obtain rfl := Option.some.inj h
      exact Happens.unreached org
    | true =>
      rw [if_pos rfl] at h
      split at h
      · exact absurd h (by simp)
      · rename_i counter store hinvalidate
        obtain rfl := Option.some.inj h
        exact Happens.invalidated hinvalidate
  · split at h
    · rename_i hle
      obtain rfl := Option.some.inj h
      exact Happens.ticked hle
    · exact absurd h (by simp)

/-- After a step of one search, every search is that one or as it was. -/
theorem mem_withMove {i : ℕ} {moved : Moved} {t : Search}
    (ht : t ∈ (w.withMove i s moved).searches) :
    t = { s with phase := moved.phase } ∨ t ∈ w.searches :=
  (List.mem_or_eq_of_mem_set ht).symm

/-- Every version is as near as any other. -/
def embeddingIndex : SearchIndex :=
  ⟨"hash-v1", fun _ => some [1], fun _ _ => none, fun _ _ _ => some 0⟩

/-- The database after the given versions, with two viewers in place of the writer. -/
def viewersAfter (writes : List (RecordFactVersion × Instant × FreshIds)) : Database :=
  { writes.foldl (fun db write =>
      match recordVersion exampleRuntime exampleContext write.1 write.2.1 write.2.2 db with
      | .error _ => db
      | .ok (_, db) => db) exampleDatabase with
    users := [⟨2, true⟩, ⟨4, true⟩]
    memberships := [⟨1, 2, .viewer⟩, ⟨1, 4, .viewer⟩] }

/-- One version in the given scope. -/
def viewersDatabase (scope : PrivacyScope) : Database :=
  viewersAfter [({ exampleCommand true 0 with privacyScope := scope }, 10, ⟨10, 11, 12⟩)]

def viewersWorld (scope : PrivacyScope) : World :=
  ⟨viewersDatabase scope, MemoryStore.empty, 0, [], 0, fun _ => 0, fun _ => 0, []⟩

theorem viewersWorld_start (scope : PrivacyScope) : Start (viewersWorld scope) := by
  refine ⟨rfl, rfl, ?_, fun _ => le_rfl⟩
  cases scope <;> decide +kernel

def viewer (userId : Uuid) : TenantContext := ⟨1, userId, .viewer, none, none, none⟩

/-- What the search of a viewer finds in a database. -/
def answers (db : Database) : List RetrievalResult :=
  (prepare exampleRuntime (exampleQuery none) 20 >>= fun p =>
    compute db (viewer 2) p embeddingIndex .miss).toOption.toList

/-- A cache whose entries hold what such a search finds. -/
def answersCache (db : Database) : Cache := ⟨listCodec (answers db), 60⟩

/-- A search up to its lookup. -/
def looksUp (i : ℕ) (userId : Uuid) : List Event :=
  [.start (viewer userId) (exampleQuery none) 20 "hash-v1",
   .move i .authorize,
   .move i (.readGeneration true),
   .move i (.lookup true)]

/-- A search that computes its result and files it. -/
def computesAndFiles (i : ℕ) : List Event :=
  [.move i (.compute embeddingIndex), .move i (.finish true)]

/-- The roles and scopes of what the last search returned. -/
def lastReturned (w : World) : Option (List MembershipRole × List PrivacyScope × CacheStatus) :=
  match w.searches.getLast?.map Search.phase with
  | some (.returned roles result _) =>
    some (roles, result.results.map fun f => f.version.privacyScope, result.cache)
  | _ => none

theorem lastReturned_eq_some {w : World} {roles : List MembershipRole}
    {scopes : List PrivacyScope} {status : CacheStatus}
    (h : lastReturned w = some (roles, scopes, status)) :
    ∃ s ∈ w.searches, ∃ result origin, s.phase = .returned roles result origin ∧
      (result.results.map fun f => f.version.privacyScope) = scopes ∧ result.cache = status := by
  unfold lastReturned at h
  split at h
  · rename_i roles' result origin hphase
    obtain ⟨s, hs, hreturned⟩ := Option.map_eq_some_iff.mp hphase
    obtain ⟨rfl, hrest⟩ := Prod.mk.inj (Option.some.inj h)
    obtain ⟨hscopes, hstatus⟩ := Prod.mk.inj hrest
    exact ⟨s, List.mem_of_getLast? hs, result, origin, hreturned, hscopes, hstatus⟩
  · exact absurd h (by simp)

end ContextLedger.SharedCache
