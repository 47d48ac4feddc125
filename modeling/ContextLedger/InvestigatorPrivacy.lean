import ContextLedger.InvestigatorTools
import ContextLedger.CachePrivacy
import ContextLedger.AdminPresence
import ContextLedger.VersionTable

/-!
Which versions the investigator's tools show. A receipt redacts what the caller
may not see and a search filters it, but the lineage of a version is every version
of its fact: the tools keep to the caller's scopes exactly when every chain that is
asked for lies in them and every cache entry that is found holds nothing else.
-/
namespace ContextLedger.InvestigatorPrivacy

open Values Authorization Schema Facts Reference Retrieval RetrievalCache CachePrivacy Decisions
open ServiceReads AdminPresence VersionTable SharedCache InvestigatorTools
open Tenancy (getMembership)

/-- The scopes of a member's current role under a ceiling; nobody else sees anything. -/
def visibleNow (db : Database) (ctx : TenantContext) : List PrivacyScope :=
  (getMembership db ctx.organizationId ctx.userId).elim [] fun m =>
    visiblePrivacyScopes m.role [ctx.maxPrivacyScope]

/-- The number of a version is unique within its fact. -/
def NumberKey (db : Database) : Prop :=
  (db.versions.map fun v => (v.factId, v.version)).Nodup

instance : DecidablePred NumberKey := fun _ => inferInstanceAs (Decidable (List.Nodup _))

theorem visibleNow_eq {db : Database} {ctx : TenantContext} {permission : Permission}
    {role : MembershipRole} (h : requirePermission db ctx permission = .ok role) :
    visibleNow db ctx = visiblePrivacyScopes role [ctx.maxPrivacyScope] := by
  obtain ⟨-, membership, -, hmember, -, -, -, rfl⟩ := requirePermission_eq_ok.mp h
  rw [visibleNow, hmember]
  rfl

/-- A result comes out of the cache for a search. -/
structure Found (b : ServiceBackend) (ctx : TenantContext) (m : Moment) (request : RetrievalQuery)
    (cache : Cache) (p : Prepared) (role : MembershipRole) (n : ℕ) (result : RetrievalResult) :
    Prop where
  cached : b.cache = some cache
  answered : m.generationAnswered = true
  prepared : prepare b.rt request m.clock = .ok p
  allowed : requirePermission m.db ctx .readFacts = .ok role
  generation : generation m.store m.now ctx.organizationId = .ok n
  found : lookup b ctx m cache role n p = some result

/-- The calls that show nothing beyond the caller's scopes: a chain that is asked for
is visible from end to end, and the cache holds nothing wider than the scopes. -/
def Clear (b : ServiceBackend) (ctx : TenantContext) (m : Moment) : ToolCall → Prop
  | .getFactLineage versionId => ∀ role target,
      requirePermission m.db ctx .readFacts = .ok role →
      getVersion m.db ctx.organizationId versionId = some target →
      ∀ v ∈ versionsOf m.db ctx.organizationId target.factId,
        v.privacyScope ∈ visiblePrivacyScopes role [ctx.maxPrivacyScope]
  | .searchFacts args => ∀ cache p role n result,
      Found b ctx m args.request cache p role n result →
        Within result (visiblePrivacyScopes role [ctx.maxPrivacyScope])
  | _ => True

variable {b : ServiceBackend} {ctx : TenantContext} {m : Moment}

theorem mem_rendered_receiptShown {fact : ReceiptFact} {v : VersionSnapshot}
    (h : v ∈ (receiptShown fact).rendered) : fact.redacted = false ∧ fact.version = some v := by
  unfold receiptShown at h
  cases hredacted : fact.redacted with
  | true => simp [hredacted, Shown.rendered] at h
  | false =>
    cases hversion : fact.version with
    | none => simp [hredacted, hversion, Shown.rendered] at h
    | some w =>
      simp only [hredacted, hversion, Shown.rendered, List.mem_singleton] at h
      rw [h]
      exact ⟨rfl, rfl⟩

/-- A fact of a receipt shows its version only in the scopes of the reader. -/
theorem receiptFact_version {db : Database} {org : Uuid} {snapshot : ContextSnapshot}
    {relied : List Uuid} {visible : List PrivacyScope} {row : SnapshotFactRow}
    {v : VersionSnapshot} (h : (receiptFact db org snapshot relied visible row).version = some v) :
    v.privacyScope ∈ visible := by
  unfold receiptFact at h
  cases hscope : visible.contains row.version.privacyScope with
  | false =>
    rw [hscope] at h
    exact absurd h (by simp)
  | true =>
    rw [hscope, if_pos rfl] at h
    rw [← Option.some.inj h, asKnown_privacyScope]
    exact List.contains_iff_mem.mp hscope

theorem receipt_rendered {decisionId : Uuid} {answer : Answer}
    (h : getDecisionReceipt b ctx m decisionId = .ok answer) :
    ∀ v ∈ answer.payload.rendered, v.privacyScope ∈ visibleNow m.db ctx := by
  unfold getDecisionReceipt at h
  obtain ⟨r, hr, h⟩ := bind_eq_ok.mp h
  obtain rfl := Except.ok.inj h
  obtain ⟨role, decision, snapshot, hrole, -, -, hfacts⟩ := receipt_eq_ok hr
  intro v hv
  simp only [Payload.rendered, List.flatMap_cons, List.flatMap_nil, Part.rendered, hfacts,
    List.nil_append, List.append_nil, List.mem_flatMap, List.mem_map] at hv
  obtain ⟨_, ⟨_, ⟨row, -, rfl⟩, rfl⟩, hv⟩ := hv
  rw [visibleNow_eq hrole]
  exact receiptFact_version (mem_rendered_receiptShown hv).2

theorem mem_lineagePayload {l : Lineage} {v : VersionSnapshot} :
    v ∈ (lineagePayload l).rendered ↔ v = l.version ∨ v ∈ l.descendants ∨ v ∈ l.ancestors := by
  simp [lineagePayload, Payload.rendered, Part.rendered, Shown.rendered, List.mem_flatMap]

theorem mem_listVersions {db : Database} {org factId : Uuid} {v : FactVersion} :
    v ∈ listVersions db org factId ↔ v ∈ versionsOf db org factId :=
  List.mem_insertionSort _

theorem getVersion_mem {db : Database} {org id : Uuid} {v : FactVersion}
    (h : getVersion db org id = some v) : v ∈ db.versions ∧ v.organizationId = org ∧ v.id = id := by
  have hkey := List.find?_some h
  simp only [Bool.and_eq_true, beq_iff_eq] at hkey
  exact ⟨List.mem_of_find?_eq_some h, hkey⟩

/-- The lineage of a version that is found is made of every version of its fact. -/
theorem mem_lineage {versionId : Uuid} {target : FactVersion} {role : MembershipRole}
    (hnumbers : NumberKey m.db) (hrole : requirePermission m.db ctx .readFacts = .ok role)
    (htarget : getVersion m.db ctx.organizationId versionId = some target) :
    ∃ l, lineage m.db ctx versionId = .ok l ∧ ∀ v : VersionSnapshot,
      (v = l.version ∨ v ∈ l.descendants ∨ v ∈ l.ancestors) ↔
        ∃ row ∈ versionsOf m.db ctx.organizationId target.factId, toSnapshot row = v := by
  obtain ⟨hmem, horg, hid⟩ := getVersion_mem htarget
  have hchain : toSnapshot target ∈
      (listVersions m.db ctx.organizationId target.factId).map toSnapshot :=
    List.mem_map_of_mem (mem_listVersions.mpr (mem_versionsOf.mpr ⟨hmem, horg, rfl⟩))
  unfold lineage
  rw [hrole]
  simp only [bind, Except.bind, htarget]
  cases hfind : ((listVersions m.db ctx.organizationId target.factId).map toSnapshot).find?
      fun v => v.id == versionId with
  | none =>
    have habsent := List.find?_eq_none.mp hfind _ hchain
    exact absurd hid (by simpa [toSnapshot] using habsent)
  | some current =>
    refine ⟨_, rfl, ?_⟩
    intro v
    have hcurrent := List.mem_of_find?_eq_some hfind
    simp only [List.mem_filter, decide_eq_true_eq]
    constructor
    · rintro (rfl | ⟨hv, -⟩ | ⟨hv, -⟩)
      · obtain ⟨row, hrow, hv⟩ := List.mem_map.mp hcurrent
        exact ⟨row, mem_listVersions.mp hrow, hv⟩
      · obtain ⟨row, hrow, hv⟩ := List.mem_map.mp hv
        exact ⟨row, mem_listVersions.mp hrow, hv⟩
      · obtain ⟨row, hrow, hv⟩ := List.mem_map.mp hv
        exact ⟨row, mem_listVersions.mp hrow, hv⟩
    · rintro ⟨row, hrow, rfl⟩
      have hv := List.mem_map_of_mem (f := toSnapshot) (mem_listVersions.mpr hrow)
      rcases lt_trichotomy current.version (toSnapshot row).version with hlt | heq | hgt
      · exact Or.inr (Or.inl ⟨hv, hlt⟩)
      · left
        obtain ⟨other, hother, rfl⟩ := List.mem_map.mp hcurrent
        obtain ⟨hrowMem, -, hrowFact⟩ := mem_versionsOf.mp hrow
        obtain ⟨hotherMem, -, hotherFact⟩ := mem_versionsOf.mp (mem_listVersions.mp hother)
        have hsame : other = row := List.inj_on_of_nodup_map hnumbers hotherMem hrowMem
          (Prod.ext (hotherFact.trans hrowFact.symm) heq)
        rw [hsame]
      · exact Or.inr (Or.inr ⟨hv, hgt⟩)

theorem lineage_rendered_iff {versionId : Uuid} (hnumbers : NumberKey m.db) :
    (∀ answer, getFactLineage ctx m versionId = .ok answer →
        ∀ v ∈ answer.payload.rendered, v.privacyScope ∈ visibleNow m.db ctx) ↔
      Clear b ctx m (.getFactLineage versionId) := by
  constructor
  · intro h role target hrole htarget v hv
    obtain ⟨l, hl, hmem⟩ := mem_lineage hnumbers hrole htarget
    have hanswer := h _ (bind_eq_ok.mpr ⟨l, hl, rfl⟩) (toSnapshot v)
      (mem_lineagePayload.mpr ((hmem _).mpr ⟨v, hv, rfl⟩))
    rwa [visibleNow_eq hrole] at hanswer
  · intro h answer hanswer v hv
    obtain ⟨l, hl, hanswer⟩ := bind_eq_ok.mp hanswer
    obtain rfl := Except.ok.inj hanswer
    obtain ⟨role, hrole, hfound⟩ := bind_eq_ok.mp hl
    cases htarget : getVersion m.db ctx.organizationId versionId with
    | none =>
      rw [htarget] at hfound
      exact absurd hfound (by simp [notFound])
    | some target =>
      obtain ⟨l', hl', hmem⟩ := mem_lineage hnumbers hrole htarget
      obtain rfl := Except.ok.inj (hl.symm.trans hl')
      obtain ⟨row, hrow, rfl⟩ := (hmem v).mp (mem_lineagePayload.mp hv)
      rw [visibleNow_eq hrole]
      exact h role target hrole htarget row hrow

theorem Found.search_eq {request : RetrievalQuery} {cache : Cache} {p : Prepared}
    {role : MembershipRole} {n : ℕ} {result : RetrievalResult}
    (h : Found b ctx m request cache p role n result) :
    InvestigatorTools.search b ctx m request = .ok { result with cache := .hit } := by
  unfold InvestigatorTools.search
  rw [h.prepared, h.allowed, h.cached, h.answered]
  simp only [bind, Except.bind, h.generation, h.found]
  rfl

/-- A search gives what it finds in the cache, or what it computes. -/
theorem search_eq_ok {request : RetrievalQuery} {result : RetrievalResult}
    (h : InvestigatorTools.search b ctx m request = .ok result) :
    ∃ p role, prepare b.rt request m.clock = .ok p ∧
      requirePermission m.db ctx .readFacts = .ok role ∧
      ((∃ cache n found, Found b ctx m request cache p role n found ∧
          result = { found with cache := .hit }) ∨
        ∃ status, compute m.db ctx p b.index status = .ok result) := by
  unfold InvestigatorTools.search at h
  obtain ⟨p, hp, h⟩ := bind_eq_ok.mp h
  obtain ⟨role, hrole, h⟩ := bind_eq_ok.mp h
  refine ⟨p, role, hp, hrole, ?_⟩
  cases hcache : b.cache with
  | none =>
    rw [hcache] at h
    exact Or.inr ⟨.off, h⟩
  | some cache =>
    cases hanswered : m.generationAnswered with
    | false =>
      rw [hcache, hanswered] at h
      exact Or.inr ⟨.off, h⟩
    | true =>
      rw [hcache, hanswered] at h
      obtain ⟨n, hn, h⟩ := bind_eq_ok.mp h
      cases hfound : lookup b ctx m cache role n p with
      | none =>
        rw [hfound] at h
        exact Or.inr ⟨.miss, h⟩
      | some found =>
        rw [hfound] at h
        exact Or.inl ⟨cache, n, found, ⟨hcache, hanswered, hp, hrole, hn, hfound⟩,
          (Except.ok.inj h).symm⟩

theorem mem_searchAnswer {args : SearchArgs} {result : RetrievalResult} {v : VersionSnapshot} :
    v ∈ (searchAnswer args result).payload.rendered ↔ ∃ f ∈ result.results, f.version = v := by
  simp [searchAnswer, Payload.rendered, Part.rendered, retrievedShown, Shown.rendered,
    List.mem_flatMap, eq_comm]

theorem prepare_request {rt : Runtime} {request : RetrievalQuery} {clock : Instant} {p : Prepared}
    (h : prepare rt request clock = .ok p) : p.request = request := by
  unfold prepare at h
  obtain ⟨query, -, h⟩ := bind_eq_ok.mp h
  obtain ⟨limit, -, h⟩ := bind_eq_ok.mp h
  obtain ⟨weight, -, h⟩ := bind_eq_ok.mp h
  obtain ⟨filters, -, h⟩ := bind_eq_ok.mp h
  obtain ⟨validAt, -, h⟩ := bind_eq_ok.mp h
  obtain ⟨knownAt, -, h⟩ := bind_eq_ok.mp h
  rw [← Except.ok.inj h]

theorem search_rendered_iff {args : SearchArgs} (hkey : VersionKey m.db) :
    (∀ answer, searchFacts b ctx m args = .ok answer →
        ∀ v ∈ answer.payload.rendered, v.privacyScope ∈ visibleNow m.db ctx) ↔
      Clear b ctx m (.searchFacts args) := by
  constructor
  · intro h cache p role n result hfound f hf
    have hanswer : searchFacts b ctx m args =
        .ok (searchAnswer args { result with cache := .hit }) := by
      rw [searchFacts, hfound.search_eq]
      rfl
    have hshown := h _ hanswer f.version (mem_searchAnswer.mpr ⟨f, hf, rfl⟩)
    rwa [visibleNow_eq hfound.allowed] at hshown
  · intro h answer hanswer v hv
    cases hresult : InvestigatorTools.search b ctx m args.request with
    | error failure =>
      rw [searchFacts, hresult] at hanswer
      exact absurd hanswer (by simp [Except.map])
    | ok result =>
      rw [searchFacts, hresult] at hanswer
      obtain rfl := Except.ok.inj hanswer
      obtain ⟨f, hf, rfl⟩ := mem_searchAnswer.mp hv
      obtain ⟨p, role, hp, hrole, hresult⟩ := search_eq_ok hresult
      rw [visibleNow_eq hrole]
      rcases hresult with ⟨cache, n, found, hfound, rfl⟩ | ⟨status, hcompute⟩
      · exact h cache p role n found hfound f hf
      · obtain ⟨role', hrole', -, -, hscopes⟩ := compute_eq_ok hkey hcompute
        obtain rfl := Except.ok.inj (hrole.symm.trans hrole')
        have hscope := hscopes f hf
        rwa [prepare_request hp] at hscope

theorem decisions_rendered {versionId : Uuid} {answer : Answer}
    (h : findDecisionsRelyingOn ctx m versionId = .ok answer) : answer.payload.rendered = [] := by
  obtain ⟨ids, -, h⟩ := bind_eq_ok.mp h
  obtain rfl := Except.ok.inj h
  rfl

/-- What one call shows is visible exactly when the call is clear. -/
theorem runTool_rendered_iff (hkey : VersionKey m.db) (hnumbers : NumberKey m.db)
    (call : ToolCall) :
    (∀ answer, runTool b ctx m call = .ok answer →
        ∀ v ∈ answer.payload.rendered, v.privacyScope ∈ visibleNow m.db ctx) ↔
      Clear b ctx m call := by
  cases call with
  | getDecisionReceipt decisionId =>
    exact iff_of_true (fun answer h => receipt_rendered h) trivial
  | getFactLineage versionId => exact lineage_rendered_iff hnumbers
  | findDecisionsRelyingOn versionId =>
    refine iff_of_true (fun answer h v hv => ?_) trivial
    rw [decisions_rendered h] at hv
    exact absurd hv (List.not_mem_nil)
  | searchFacts args => exact search_rendered_iff hkey

/-- What is shown in a reply is what the tool rendered. -/
theorem mem_rendered_guarded {call : ToolCall} {ledger ledger' : ToolLedger} {reply : Reply}
    {v : VersionSnapshot} (h : guarded b ctx m call ledger = .ok (reply, ledger')) :
    v ∈ reply.rendered ↔ ∃ answer, runTool b ctx m call = .ok answer ∧
      v ∈ answer.payload.rendered := by
  unfold guarded at h
  cases hrun : runTool b ctx m call with
  | ok answer =>
    rw [hrun] at h
    obtain ⟨rfl, -⟩ := Prod.mk.inj (Except.ok.inj h)
    simp [Reply.rendered]
  | error failure =>
    rw [hrun] at h
    cases failure with
    | domain error =>
      obtain ⟨rfl, -⟩ := Prod.mk.inj (Except.ok.inj h)
      simp [Reply.rendered]
    | _ => exact absurd h (by simp)

/-- A tool that answers gives a reply, whatever the ledger holds. -/
theorem guarded_of_ok {call : ToolCall} {answer : Answer} (ledger : ToolLedger)
    (h : runTool b ctx m call = .ok answer) :
    ∃ ledger', guarded b ctx m call ledger = .ok (.answer answer.payload, ledger') := by
  unfold guarded
  rw [h]
  exact ⟨_, rfl⟩

/-- Over any sequence of calls, whatever each of them finds, every version that is
shown is in the scopes of the caller exactly when every call is clear. -/
theorem tools_private_iff (b : ServiceBackend) (ctx : TenantContext) (ledger : ToolLedger)
    (calls : List (Moment × ToolCall))
    (hkeys : ∀ call ∈ calls, VersionKey call.1.db ∧ NumberKey call.1.db) :
    (∀ reply ∈ replies b ctx ledger calls, ∀ v ∈ reply.2.rendered,
        v.privacyScope ∈ visibleNow reply.1.db ctx) ↔
      ∀ call ∈ calls, Clear b ctx call.1 call.2 := by
  induction calls generalizing ledger with
  | nil => simp [replies]
  | cons step rest ih =>
    obtain ⟨m, call⟩ := step
    obtain ⟨⟨hkey, hnumbers⟩, hrest⟩ := List.forall_mem_cons.mp hkeys
    rw [List.forall_mem_cons, ← runTool_rendered_iff hkey hnumbers call]
    unfold replies
    cases hguarded : guarded b ctx m call ledger with
    | ok result =>
      obtain ⟨reply, ledger'⟩ := result
      simp only [List.forall_mem_cons]
      refine and_congr ?_ (ih ledger' hrest)
      constructor
      · intro h answer hanswer v hv
        exact h v ((mem_rendered_guarded hguarded).mpr ⟨answer, hanswer, hv⟩)
      · intro h v hv
        obtain ⟨answer, hanswer, hv⟩ := (mem_rendered_guarded hguarded).mp hv
        exact h answer hanswer v hv
    | error failure =>
      refine (ih ledger hrest).trans (iff_and_self.mpr fun _ answer hanswer => ?_)
      obtain ⟨ledger', hok⟩ := guarded_of_ok ledger hanswer
      exact absurd (hguarded.symm.trans hok) (by simp)

def exampleBackend : ServiceBackend := ⟨exampleRuntime, embeddingIndex, none⟩

/-- One version in the given scope, and no cache. -/
def exampleMoment (scope : PrivacyScope) : Moment :=
  ⟨viewersDatabase scope, MemoryStore.empty, 0, 20, false, false⟩

def exampleCalls (scope : PrivacyScope) : List (Moment × ToolCall) :=
  [(exampleMoment scope, .getFactLineage 12),
   (exampleMoment scope, .findDecisionsRelyingOn 12),
   (exampleMoment scope, .searchFacts ⟨"active customers", none, 5, by decide, by decide⟩)]

theorem exampleCalls_keys (scope : PrivacyScope) :
    ∀ call ∈ exampleCalls scope, VersionKey call.1.db ∧ NumberKey call.1.db := by
  cases scope <;> decide +kernel

theorem tools_private_public :
    (replies exampleBackend (viewer 2) ⟨[], []⟩ (exampleCalls .public)).map
        (fun reply => reply.2.rendered.map VersionSnapshot.id) = [[12], [], [12]] ∧
      ∀ reply ∈ replies exampleBackend (viewer 2) ⟨[], []⟩ (exampleCalls .public),
        ∀ v ∈ reply.2.rendered, v.privacyScope ∈ visibleNow reply.1.db (viewer 2) := by
  refine ⟨by decide +kernel, (tools_private_iff exampleBackend (viewer 2) ⟨[], []⟩ _
    (exampleCalls_keys .public)).mpr ?_⟩
  have hchain : (getVersion (viewersDatabase .public) 1 12).all (fun target =>
      (versionsOf (viewersDatabase .public) 1 target.factId).all fun v =>
        v.privacyScope == .public) = true := by
    decide +kernel
  have hpublic : ∀ role, PrivacyScope.public ∈ visiblePrivacyScopes role [none] := by
    intro role
    cases role <;> decide
  intro call hcall
  simp only [exampleCalls, List.mem_cons, List.not_mem_nil, or_false] at hcall
  rcases hcall with rfl | rfl | rfl
  · intro role target _ htarget v hv
    have hall := (Option.all_eq_true _ _).mp hchain target htarget
    rw [beq_iff_eq.mp (List.all_eq_true.mp hall v hv)]
    exact hpublic role
  · trivial
  · intro cache p role n result hfound
    exact absurd hfound.cached (by simp [exampleBackend])

/-- A viewer is shown the value of a restricted version. -/
theorem lineage_shows_restricted :
    ∃ reply ∈ replies exampleBackend (viewer 2) ⟨[], []⟩
        [(exampleMoment .restricted, .getFactLineage 12)],
      ∃ v ∈ reply.2.rendered, v.privacyScope ∉ visibleNow reply.1.db (viewer 2) := by
  decide +kernel

end ContextLedger.InvestigatorPrivacy
