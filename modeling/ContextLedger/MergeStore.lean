import Mathlib.Data.List.Nodup
import Mathlib.Data.List.Perm.Basic
import Mathlib.Logic.Function.Basic

/-!
Entries that are created or updated by key. A merge finds the entry of its key or
creates it, and then assigns properties; assigning no value removes a property.
Each key evolves on its own, so a sequence of merges is read key by key. A full
merge assigns every property that entries of its key may have, a shy one only
assigns when it creates: the last full merge of a key decides what is stored.
-/
namespace ContextLedger.MergeStore

variable {K N V : Type*}

abbrev Props (N V : Type*) := N → Option V

def bare : Props N V := fun _ => none

structure Entry (K N V : Type*) where
  key : K
  props : Props N V

structure Merge (K N V : Type*) where
  key : K
  onCreate : List (N × Option V)
  set : List (N × Option V)

section Names

variable (names : K → List N)

def Merge.Full (m : Merge K N V) : Prop := m.onCreate = [] ∧ m.set.map Prod.fst = names m.key

def Merge.Shy (m : Merge K N V) : Prop :=
  m.set = [] ∧ ∀ n ∈ m.onCreate.map Prod.fst, n ∈ names m.key

def Merge.Fits (m : Merge K N V) : Prop := m.Full names ∨ m.Shy names

end Names

theorem Merge.Fits.names_set {names : K → List N} {m : Merge K N V}
    (hm : m.Fits names) {n : N} (hn : n ∉ names m.key) : n ∉ m.set.map Prod.fst := by
  rcases hm with ⟨-, hset⟩ | ⟨hset, -⟩
  · rw [hset]
    exact hn
  · simp [hset]

theorem Merge.Fits.names_onCreate {names : K → List N} {m : Merge K N V}
    (hm : m.Fits names) {n : N} (hn : n ∉ names m.key) : n ∉ m.onCreate.map Prod.fst := by
  rcases hm with ⟨hcreate, -⟩ | ⟨-, hcreate⟩
  · simp [hcreate]
  · exact fun h => hn (hcreate n h)

section Lookup

variable [DecidableEq K]

def lookup (s : List (Entry K N V)) (k : K) : Option (Props N V) :=
  (s.find? fun e => e.key = k).map Entry.props

theorem lookup_nil (k : K) : lookup ([] : List (Entry K N V)) k = none := rfl

theorem lookup_cons (e : Entry K N V) (s : List (Entry K N V)) (k : K) :
    lookup (e :: s) k = if e.key = k then some e.props else lookup s k := by
  unfold lookup
  rw [List.find?_cons]
  by_cases he : e.key = k
  · simp [he]
  · simp [he]

theorem lookup_append (s t : List (Entry K N V)) (k : K) :
    lookup (s ++ t) k = (lookup s k).or (lookup t k) := by
  induction s with
  | nil => rfl
  | cons e s ih =>
    rw [List.cons_append, lookup_cons, lookup_cons]
    split
    · rfl
    · exact ih

theorem lookup_isSome {s : List (Entry K N V)} {k : K} :
    (lookup s k).isSome ↔ k ∈ s.map Entry.key := by
  simp [lookup, List.find?_isSome]

theorem lookup_eq_none {s : List (Entry K N V)} {k : K} :
    lookup s k = none ↔ k ∉ s.map Entry.key := by
  rw [← lookup_isSome, ← Option.not_isSome_iff_eq_none]

theorem mem_iff_lookup {s : List (Entry K N V)} (hs : (s.map Entry.key).Nodup)
    {e : Entry K N V} : e ∈ s ↔ lookup s e.key = some e.props := by
  induction s with
  | nil => simp [lookup_nil]
  | cons e' s ih =>
    rw [List.map_cons, List.nodup_cons] at hs
    rw [List.mem_cons, lookup_cons, ih hs.2]
    by_cases he : e'.key = e.key
    · rw [if_pos he]
      constructor
      · rintro (rfl | hlookup)
        · rfl
        · exact absurd (lookup_isSome.mp (by rw [hlookup]; rfl)) (he ▸ hs.1)
      · intro hprops
        left
        cases e
        cases e'
        simp_all
    · rw [if_neg he]
      constructor
      · rintro (rfl | hlookup)
        · exact absurd rfl he
        · exact hlookup
      · exact Or.inr

/-- Stores that hold the same under every key have the same entries. -/
theorem perm_of_lookup_eq {s t : List (Entry K N V)} (hs : (s.map Entry.key).Nodup)
    (ht : (t.map Entry.key).Nodup) (h : ∀ k, lookup s k = lookup t k) : s.Perm t := by
  rw [List.perm_ext_iff_of_nodup (List.Nodup.of_map _ hs) (List.Nodup.of_map _ ht)]
  intro e
  rw [mem_iff_lookup hs, mem_iff_lookup ht, h]

/-- Entries have no other properties than those named for their key. -/
def Within (names : K → List N) (s : List (Entry K N V)) : Prop :=
  ∀ k props, lookup s k = some props → ∀ n, n ∉ names k → props n = none

theorem within_nil {names : K → List N} : Within names ([] : List (Entry K N V)) := by
  intro k props hprops
  exact absurd hprops (by simp [lookup_nil])

end Lookup

variable [DecidableEq N]

def assign (props : Props N V) : List (N × Option V) → Props N V
  | [] => props
  | (name, value) :: rest => assign (Function.update props name value) rest

theorem assign_of_notMem {props : Props N V} {sets : List (N × Option V)} {n : N}
    (hn : n ∉ sets.map Prod.fst) : assign props sets n = props n := by
  induction sets generalizing props with
  | nil => rfl
  | cons a rest ih =>
    obtain ⟨name, value⟩ := a
    rw [List.map_cons, List.mem_cons, not_or] at hn
    rw [assign, ih hn.2]
    exact Function.update_of_ne hn.1 value props

/-- An assigned property does not depend on what was there before. -/
theorem assign_of_mem {props props' : Props N V} {sets : List (N × Option V)} {n : N}
    (hn : n ∈ sets.map Prod.fst) : assign props sets n = assign props' sets n := by
  induction sets generalizing props props' with
  | nil => exact absurd hn List.not_mem_nil
  | cons a rest ih =>
    obtain ⟨name, value⟩ := a
    by_cases hrest : n ∈ rest.map Prod.fst
    · exact ih hrest
    · have hname : n = name := by simpa [hrest] using hn
      subst hname
      rw [assign, assign, assign_of_notMem hrest, assign_of_notMem hrest,
        Function.update_self, Function.update_self]

def Merge.created (m : Merge K N V) : Props N V := assign (assign bare m.onCreate) m.set

/-- What a merge makes of the entry it finds, or creates. -/
def Merge.onto (m : Merge K N V) : Option (Props N V) → Props N V
  | some props => assign props m.set
  | none => m.created

variable {names : K → List N}

/-- A full merge stores its own assignments and nothing else. -/
theorem onto_full {m : Merge K N V} (hm : m.Full names) {found : Option (Props N V)}
    (hfound : ∀ props, found = some props → ∀ n, n ∉ names m.key → props n = none) :
    m.onto found = assign bare m.set := by
  cases found with
  | none =>
    rw [Merge.onto, Merge.created, hm.1]
    rfl
  | some props =>
    funext n
    by_cases hn : n ∈ m.set.map Prod.fst
    · exact assign_of_mem hn
    · rw [Merge.onto, assign_of_notMem hn, assign_of_notMem hn]
      exact hfound props rfl n (hm.2 ▸ hn)

variable [DecidableEq K]

def merge (s : List (Entry K N V)) (m : Merge K N V) : List (Entry K N V) :=
  if s.any fun e => e.key = m.key then
    s.map fun e => if e.key = m.key then ⟨e.key, assign e.props m.set⟩ else e
  else s ++ [⟨m.key, m.created⟩]

def mergeAll (s : List (Entry K N V)) (ms : List (Merge K N V)) : List (Entry K N V) :=
  ms.foldl merge s

theorem lookup_updated (s : List (Entry K N V)) (m : Merge K N V) (k : K) :
    lookup (s.map fun e => if e.key = m.key then ⟨e.key, assign e.props m.set⟩ else e) k =
      if m.key = k then (lookup s k).map fun props => assign props m.set else lookup s k := by
  induction s with
  | nil => simp [lookup_nil]
  | cons e s ih =>
    rw [List.map_cons, lookup_cons, lookup_cons, ih]
    by_cases he : e.key = m.key
    · by_cases hk : m.key = k
      · simp [he, hk]
      · simp [he, hk]
    · by_cases hk : m.key = k
      · simp [hk, hk ▸ he]
      · simp [he, hk]

/-- A merge changes the entry of its own key and no other. -/
theorem lookup_merge (s : List (Entry K N V)) (m : Merge K N V) (k : K) :
    lookup (merge s m) k = if m.key = k then some (m.onto (lookup s k)) else lookup s k := by
  unfold merge
  by_cases hany : s.any fun e => e.key = m.key
  · rw [if_pos hany, lookup_updated]
    by_cases hk : m.key = k
    · subst hk
      have hsome : (lookup s m.key).isSome := by
        rw [lookup_isSome]
        simpa using hany
      obtain ⟨props, hprops⟩ := Option.isSome_iff_exists.mp hsome
      simp [hprops, Merge.onto]
    · simp [hk]
  · rw [if_neg hany, lookup_append, lookup_cons, lookup_nil]
    by_cases hk : m.key = k
    · subst hk
      have hnone : lookup s m.key = none := by
        rw [lookup_eq_none]
        simpa using hany
      simp [hnone, Merge.onto]
    · simp [hk]

theorem keys_merge (s : List (Entry K N V)) (m : Merge K N V) :
    (merge s m).map Entry.key =
      if m.key ∈ s.map Entry.key then s.map Entry.key else s.map Entry.key ++ [m.key] := by
  have hkeys : (s.any fun e => e.key = m.key) = true ↔ m.key ∈ s.map Entry.key := by simp
  unfold merge
  by_cases hany : m.key ∈ s.map Entry.key
  · rw [if_pos (hkeys.mpr hany), if_pos hany, List.map_map]
    apply List.map_congr_left
    intro e he
    by_cases hk : e.key = m.key
    · simp [hk]
    · simp [hk]
  · rw [if_neg (fun h => hany (hkeys.mp h)), if_neg hany, List.map_append]
    rfl

theorem nodup_merge {s : List (Entry K N V)} (hs : (s.map Entry.key).Nodup) (m : Merge K N V) :
    ((merge s m).map Entry.key).Nodup := by
  rw [keys_merge]
  split
  · exact hs
  · rename_i hm
    rw [List.nodup_append]
    refine ⟨hs, List.nodup_singleton _, ?_⟩
    intro k hk k' hk'
    rw [List.mem_singleton] at hk'
    rintro rfl
    exact hm (hk' ▸ hk)

/-- No key gets a second entry. -/
theorem nodup_mergeAll {s : List (Entry K N V)} (hs : (s.map Entry.key).Nodup)
    (ms : List (Merge K N V)) : ((mergeAll s ms).map Entry.key).Nodup := by
  induction ms generalizing s with
  | nil => exact hs
  | cons m ms ih => exact ih (nodup_merge hs m)

theorem mergeAll_append (s : List (Entry K N V)) (ms ms' : List (Merge K N V)) :
    mergeAll s (ms ++ ms') = mergeAll (mergeAll s ms) ms' := List.foldl_append

theorem lookup_mergeAll_isSome (s : List (Entry K N V)) (ms : List (Merge K N V)) (k : K) :
    (lookup (mergeAll s ms) k).isSome ↔ (lookup s k).isSome ∨ ∃ m ∈ ms, m.key = k := by
  induction ms generalizing s with
  | nil => simp [mergeAll]
  | cons m ms ih =>
    rw [show mergeAll s (m :: ms) = mergeAll (merge s m) ms from rfl, ih, lookup_merge]
    by_cases hk : m.key = k
    · simp [hk]
    · simp [hk]

/-- What merges create and keep, holds of every entry of the store. -/
theorem lookup_mergeAll_forall {P : K → Props N V → Prop} {s : List (Entry K N V)}
    {ms : List (Merge K N V)} (hs : ∀ k props, lookup s k = some props → P k props)
    (hcreated : ∀ m ∈ ms, P m.key m.created)
    (hset : ∀ m ∈ ms, ∀ props, P m.key props → P m.key (assign props m.set)) :
    ∀ k props, lookup (mergeAll s ms) k = some props → P k props := by
  induction ms generalizing s with
  | nil => exact hs
  | cons m ms ih =>
    refine ih ?_ (fun m' hm' => hcreated m' (List.mem_cons_of_mem m hm'))
      (fun m' hm' => hset m' (List.mem_cons_of_mem m hm'))
    intro k props hprops
    rw [lookup_merge] at hprops
    by_cases hk : m.key = k
    · subst hk
      rw [if_pos rfl] at hprops
      obtain rfl := Option.some.inj hprops
      cases hold : lookup s m.key with
      | none => exact hcreated m List.mem_cons_self
      | some old => exact hset m List.mem_cons_self old (hs _ _ hold)
    · rw [if_neg hk] at hprops
      exact hs k props hprops

theorem within_mergeAll {s : List (Entry K N V)} {ms : List (Merge K N V)}
    (hs : Within names s) (hms : ∀ m ∈ ms, m.Fits names) : Within names (mergeAll s ms) := by
  apply lookup_mergeAll_forall hs
  · intro m hm n hn
    rw [Merge.created, assign_of_notMem ((hms m hm).names_set hn),
      assign_of_notMem ((hms m hm).names_onCreate hn)]
    rfl
  · intro m hm props hprops n hn
    rw [assign_of_notMem ((hms m hm).names_set hn)]
    exact hprops n hn

theorem within_merge {s : List (Entry K N V)} {m : Merge K N V} (hs : Within names s)
    (hm : m.Fits names) : Within names (merge s m) := by
  have hms : ∀ m' ∈ [m], m'.Fits names := by simpa using hm
  exact within_mergeAll hs hms

/-- Merges of a key that are shy or store the same again leave its entry. -/
theorem lookup_mergeAll_kept {s : List (Entry K N V)} {ms : List (Merge K N V)} {k : K}
    {props : Props N V} (hs : Within names s) (hms : ∀ m ∈ ms, m.Fits names)
    (hsame : ∀ m ∈ ms, m.key = k → m.Full names → assign bare m.set = props)
    (hfound : lookup s k = some props) : lookup (mergeAll s ms) k = some props := by
  induction ms generalizing s with
  | nil => exact hfound
  | cons m ms ih =>
    refine ih (within_merge hs (hms m List.mem_cons_self))
      (fun m' hm' => hms m' (List.mem_cons_of_mem m hm'))
      (fun m' hm' => hsame m' (List.mem_cons_of_mem m hm')) ?_
    rw [lookup_merge]
    by_cases hk : m.key = k
    · rw [if_pos hk]
      rcases hms m List.mem_cons_self with hfull | hshy
      · rw [onto_full hfull fun p hp => hs m.key p (hk ▸ hp), hsame m List.mem_cons_self hk hfull]
      · rw [hfound, Merge.onto, hshy.1]
        rfl
    · rw [if_neg hk]
      exact hfound

/-- A full merge decides what is stored under its key, when no other full merge
of the key differs from it. -/
theorem lookup_mergeAll_full {s : List (Entry K N V)} {ms : List (Merge K N V)} {m : Merge K N V}
    (hs : Within names s) (hms : ∀ m' ∈ ms, m'.Fits names) (hm : m ∈ ms) (hfull : m.Full names)
    (hsame : ∀ m' ∈ ms, m'.key = m.key → m'.Full names → assign bare m'.set = assign bare m.set) :
    lookup (mergeAll s ms) m.key = some (assign bare m.set) := by
  obtain ⟨first, rest, rfl⟩ := List.append_of_mem hm
  have hfirst : Within names (mergeAll s first) :=
    within_mergeAll hs fun m' hm' => hms m' (List.mem_append_left _ hm')
  rw [mergeAll_append, show mergeAll (mergeAll s first) (m :: rest) =
    mergeAll (merge (mergeAll s first) m) rest from rfl]
  refine lookup_mergeAll_kept (within_merge hfirst (hms m hm)) ?_ ?_ ?_
  · intro m' hm'
    exact hms m' (List.mem_append_right _ (List.mem_cons_of_mem m hm'))
  · intro m' hm'
    exact hsame m' (List.mem_append_right _ (List.mem_cons_of_mem m hm'))
  · rw [lookup_merge, if_pos rfl, onto_full hfull (hfirst m.key)]

/-- What every merge of a key keeps stays true of the entry under the key. -/
theorem lookup_mergeAll_preserves {Q : Props N V → Prop} {s : List (Entry K N V)}
    {ms : List (Merge K N V)} {k : K}
    (hset : ∀ m ∈ ms, m.key = k → ∀ props, Q props → Q (assign props m.set))
    (hs : ∃ props, lookup s k = some props ∧ Q props) :
    ∃ props, lookup (mergeAll s ms) k = some props ∧ Q props := by
  induction ms generalizing s with
  | nil => exact hs
  | cons m ms ih =>
    refine ih (fun m' hm' => hset m' (List.mem_cons_of_mem m hm')) ?_
    obtain ⟨props, hprops, hQ⟩ := hs
    rw [lookup_merge]
    by_cases hk : m.key = k
    · rw [if_pos hk, hprops]
      exact ⟨_, rfl, hset m List.mem_cons_self hk props hQ⟩
    · rw [if_neg hk]
      exact ⟨props, hprops, hQ⟩

/-- What one merge of a key makes true and every other keeps. -/
theorem lookup_mergeAll_reaches {Q : Props N V → Prop} {s : List (Entry K N V)}
    {ms : List (Merge K N V)} {m : Merge K N V} (hm : m ∈ ms)
    (hmakes : ∀ props, Q (assign props m.set))
    (hset : ∀ m' ∈ ms, m'.key = m.key → ∀ props, Q props → Q (assign props m'.set)) :
    ∃ props, lookup (mergeAll s ms) m.key = some props ∧ Q props := by
  obtain ⟨first, rest, rfl⟩ := List.append_of_mem hm
  rw [mergeAll_append, show mergeAll (mergeAll s first) (m :: rest) =
    mergeAll (merge (mergeAll s first) m) rest from rfl]
  refine lookup_mergeAll_preserves (fun m' hm' => hset m' ?_) ?_
  · exact List.mem_append_right _ (List.mem_cons_of_mem m hm')
  · rw [lookup_merge, if_pos rfl]
    cases lookup (mergeAll s first) m.key with
    | none => exact ⟨_, rfl, hmakes _⟩
    | some props => exact ⟨_, rfl, hmakes _⟩

end ContextLedger.MergeStore
