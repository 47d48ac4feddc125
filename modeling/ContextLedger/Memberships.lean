import ContextLedger.Processes
import ContextLedger.Tenancy
import ContextLedger.Transition

/-!
Any number of requests to the organization, membership and agent services, each a
transaction whose statements interleave with those of the others. A change of the
members locks the row of its organization, checks the permission of the actor,
looks at its target, counts the ADMINs if it has to, and writes. Statements read
the rows committed when they run, and a lock is held until the transaction ends.
-/
namespace ContextLedger.Memberships

open Values Authorization Schema Facts Tenancy Transition Processes

/-- Named after the statement that comes next. -/
inductive Phase where
  | locking
  | authorizing
  | inspecting
  | counting
  | writing
  | finished (outcome : Result Unit)
  | aborted

/-- A transaction remembers the rows that were committed when it got its lock. -/
structure Transaction where
  operation : Operation
  phase : Phase
  observed : Option Directory

def Phase.open : Phase → Bool
  | .finished _ => false
  | .aborted => false
  | _ => true

/-- The lock is taken by the first statement and released by the end. -/
def Phase.locked : Phase → Bool
  | .authorizing => true
  | .inspecting => true
  | .counting => true
  | .writing => true
  | _ => false

/-- The organization whose row the transaction has locked. -/
def Transaction.held (t : Transaction) : Option Uuid :=
  if t.operation.locks && t.phase.locked then
    t.operation.context.map TenantContext.organizationId
  else none

structure World where
  directory : Directory
  transactions : List Transaction

def firstPhase : Operation → Phase
  | .createOrganization _ _ => .inspecting
  | .revokeAgent _ _ _ => .authorizing
  | _ => .locking

def begin (operation : Operation) : Transaction := ⟨operation, firstPhase operation, none⟩

/-- A statement that fails ends its transaction. -/
def Transaction.proceed {α : Type} (t : Transaction) (result : Result α)
    (next : α → Transaction) : Transaction :=
  match result with
  | .error failure => { t with phase := .finished (.error failure) }
  | .ok a => next a

/-- The statement of a transaction that only reads or locks. -/
def Transaction.read (d : Directory) (t : Transaction) : Option Transaction :=
  match t.phase, t.operation.context with
  | .locking, some ctx =>
    some (t.proceed (lockOrganization d ctx.organizationId)
      fun _ => { t with phase := .authorizing, observed := some d })
  | .authorizing, some ctx =>
    some (t.proceed (requirePermission d.db ctx .manageMembers)
      fun _ => { t with phase := .inspecting })
  | .inspecting, _ =>
    some (t.proceed (inspect d t.operation)
      fun count => { t with phase := if count then .counting else .writing })
  | .counting, some ctx =>
    some (t.proceed (ensureAnotherAdmin d.db ctx.organizationId)
      fun _ => { t with phase := .writing })
  | _, _ => none

/-- Another transaction has the lock that this one asks for. -/
def blocked (w : World) (t : Transaction) : Bool :=
  match t.phase with
  | .locking => w.transactions.any fun u =>
      u.held.isSome && u.held == t.operation.context.map TenantContext.organizationId
  | _ => false

/-- Requests arrive, users register, and a transaction can be aborted at any time. -/
inductive Action where
  | start (request : Request)
  | register (userId : Uuid)
  | advance (i : ℕ)
  | abort (i : ℕ)

def World.put (w : World) (i : ℕ) (t : Transaction) : World :=
  { w with transactions := w.transactions.set i t }

def World.commit (w : World) (i : ℕ) (t : Transaction) : World :=
  match write w.directory t.operation with
  | .error failure => w.put i { t with phase := .finished (.error failure) }
  | .ok d => { w.put i { t with phase := .finished (.ok ()) } with directory := d }

def step (w : World) : Action → Option World
  | .start request =>
    match prepare request with
    | .error _ => none
    | .ok operation => some { w with transactions := w.transactions ++ [begin operation] }
  | .register userId =>
    if w.directory.db.users.any fun u => u.id == userId then none
    else some { w with directory := w.directory.addUser ⟨userId, true⟩ }
  | .advance i =>
    match w.transactions[i]? with
    | none => none
    | some t =>
      if blocked w t then none
      else
        match t.phase with
        | .writing => some (w.commit i t)
        | _ => (t.read w.directory).map (w.put i)
  | .abort i =>
    match w.transactions[i]? with
    | none => none
    | some t => if t.phase.open then some (w.put i { t with phase := .aborted }) else none

structure Start (w : World) : Prop where
  organizations : w.directory.organizations = []
  memberships : w.directory.db.memberships = []
  agentClients : w.directory.agentClients = []
  transactions : w.transactions = []

def system : System World Action := ⟨Start, step⟩

/-- What a statement that writes nothing makes of its transaction. -/
inductive Moved (d : Directory) (t : Transaction) : Transaction → Prop where
  | locked (ctx : TenantContext) (hctx : t.operation.context = some ctx)
      (hphase : t.phase = .locking) (hlock : lockOrganization d ctx.organizationId = .ok ()) :
      Moved d t { t with phase := .authorizing, observed := some d }
  | authorized (ctx : TenantContext) (role : MembershipRole)
      (hctx : t.operation.context = some ctx) (hphase : t.phase = .authorizing)
      (hrole : requirePermission d.db ctx .manageMembers = .ok role) :
      Moved d t { t with phase := .inspecting }
  | inspected (count : Bool) (hphase : t.phase = .inspecting)
      (hinspect : inspect d t.operation = .ok count) :
      Moved d t { t with phase := if count then .counting else .writing }
  | counted (ctx : TenantContext) (hctx : t.operation.context = some ctx)
      (hphase : t.phase = .counting)
      (hcount : ensureAnotherAdmin d.db ctx.organizationId = .ok ()) :
      Moved d t { t with phase := .writing }
  | failed (failure : Failure) : Moved d t { t with phase := .finished (.error failure) }
  | aborted : Moved d t { t with phase := .aborted }

theorem moved_of_proceed {α : Type} {d : Directory} {t : Transaction} {result : Result α}
    {next : α → Transaction} (h : ∀ a, result = .ok a → Moved d t (next a)) :
    Moved d t (t.proceed result next) := by
  cases hresult : result with
  | error failure => exact Moved.failed failure
  | ok a => exact h a hresult

theorem moved_of_read {d : Directory} {t t' : Transaction} (h : t.read d = some t') :
    Moved d t t' := by
  cases hphase : t.phase with
  | locking =>
    cases hctx : t.operation.context with
    | none => exact absurd h (by simp [Transaction.read, hphase, hctx])
    | some ctx =>
      simp only [Transaction.read, hphase, hctx, Option.some.injEq] at h
      subst h
      exact moved_of_proceed fun _ hlock => Moved.locked ctx hctx hphase hlock
  | authorizing =>
    cases hctx : t.operation.context with
    | none => exact absurd h (by simp [Transaction.read, hphase, hctx])
    | some ctx =>
      simp only [Transaction.read, hphase, hctx, Option.some.injEq] at h
      subst h
      exact moved_of_proceed fun role hrole => Moved.authorized ctx role hctx hphase hrole
  | inspecting =>
    simp only [Transaction.read, hphase, Option.some.injEq] at h
    subst h
    exact moved_of_proceed fun count hcount => Moved.inspected count hphase hcount
  | counting =>
    cases hctx : t.operation.context with
    | none => exact absurd h (by simp [Transaction.read, hphase, hctx])
    | some ctx =>
      simp only [Transaction.read, hphase, hctx, Option.some.injEq] at h
      subst h
      exact moved_of_proceed fun _ hcount => Moved.counted ctx hctx hphase hcount
  | writing => exact absurd h (by simp [Transaction.read, hphase])
  | finished outcome => exact absurd h (by simp [Transaction.read, hphase])
  | aborted => exact absurd h (by simp [Transaction.read, hphase])

/-- Everything a step can do. -/
inductive Stepped (w : World) : Action → World → Prop where
  | started (request : Request) (operation : Operation)
      (hprepare : prepare request = .ok operation) :
      Stepped w (.start request) { w with transactions := w.transactions ++ [begin operation] }
  | registered (userId : Uuid) (hnew : ∀ u ∈ w.directory.db.users, u.id ≠ userId) :
      Stepped w (.register userId) { w with directory := w.directory.addUser ⟨userId, true⟩ }
  | moved (a : Action) (i : ℕ) (t t' : Transaction) (ht : w.transactions[i]? = some t)
      (hfree : t'.phase = .authorizing → blocked w t = false)
      (hmoved : Moved w.directory t t') : Stepped w a (w.put i t')
  | committed (i : ℕ) (t : Transaction) (d : Directory) (ht : w.transactions[i]? = some t)
      (hphase : t.phase = .writing) (hwrite : write w.directory t.operation = .ok d) :
      Stepped w (.advance i) { w.put i { t with phase := .finished (.ok ()) } with directory := d }

theorem step_cases {w w' : World} {a : Action} (h : step w a = some w') : Stepped w a w' := by
  cases a with
  | start request =>
    cases hprepare : prepare request with
    | error failure => exact absurd h (by simp [step, hprepare])
    | ok operation =>
      simp only [step, hprepare, Option.some.injEq] at h
      subst h
      exact Stepped.started request operation hprepare
  | register userId =>
    simp only [step] at h
    by_cases hany : (w.directory.db.users.any fun u => u.id == userId) = true
    · rw [if_pos hany] at h
      exact absurd h (by simp)
    · rw [if_neg hany, Option.some.injEq] at h
      subst h
      refine Stepped.registered userId fun u hu hid => hany ?_
      exact List.any_eq_true.mpr ⟨u, hu, by simp [hid]⟩
  | advance i =>
    cases ht : w.transactions[i]? with
    | none => exact absurd h (by simp [step, ht])
    | some t =>
      simp only [step, ht] at h
      cases hfree : blocked w t with
      | true => exact absurd h (by simp [hfree])
      | false =>
        rw [hfree, if_neg (by simp)] at h
        by_cases hphase : t.phase = .writing
        · rw [hphase] at h
          simp only [Option.some.injEq] at h
          subst h
          cases hwrite : write w.directory t.operation with
          | error failure =>
            simp only [World.commit, hwrite]
            exact Stepped.moved _ i t _ ht (fun _ => hfree) (Moved.failed failure)
          | ok d =>
            simp only [World.commit, hwrite]
            exact Stepped.committed i t d ht hphase hwrite
        · have hread : (t.read w.directory).map (w.put i) = some w' := by
            rw [← h]
            cases hcases : t.phase with
            | writing => exact absurd hcases hphase
            | _ => rfl
          obtain ⟨t', ht', rfl⟩ := Option.map_eq_some_iff.mp hread
          exact Stepped.moved _ i t t' ht (fun _ => hfree) (moved_of_read ht')
  | abort i =>
    cases ht : w.transactions[i]? with
    | none => exact absurd h (by simp [step, ht])
    | some t =>
      simp only [step, ht] at h
      cases hopen : t.phase.open with
      | false => exact absurd h (by simp [hopen])
      | true =>
        rw [hopen, if_pos rfl, Option.some.injEq] at h
        subst h
        exact Stepped.moved _ i t _ ht nofun Moved.aborted

end ContextLedger.Memberships
