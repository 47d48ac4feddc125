import ContextLedger.Rankings
import ContextLedger.Retrieval

/-!
Reciprocal rank fusion as a ranking of a set of versions. Each branch keeps the
best hit of a version and ranks what it keeps, so neither the order of the hits
nor a worse hit of the same version matters, and the final order is by score and
then by identifier, whatever order the identifiers are gone through in. A version
that gets better in one way is passed by no version that was behind it.
-/
namespace ContextLedger.Fusion

open Values Schema Retrieval Rankings
open scoped List

theorem dedupe_eq_keepFirst (hits : List Hit) : dedupe hits = keepFirst Hit.factVersionId hits := by
  induction hits with
  | nil => rfl
  | cons hit hits ih => rw [dedupe, keepFirst, ih]

/-- An order of hits that tells them apart. -/
class HitOrder (r : Hit → Hit → Prop) : Prop extends IsTrans Hit r where
  total : ∀ a b, r a b ∨ r b a
  antisymm : ∀ a b, r a b → r b a → a = b

theorem HitOrder.refl (r : Hit → Hit → Prop) [HitOrder r] (a : Hit) : r a a :=
  (HitOrder.total a a).elim id id

/-- A hit of the same version that is no farther comes no later. -/
theorem nearerFirst_of_le {a b : Hit} (hid : a.factVersionId = b.factVersionId)
    (hle : a.score ≤ b.score) : NearerFirst a b := by
  rcases lt_or_eq_of_le hle with hlt | heq
  · exact Or.inl hlt
  · exact Or.inr ⟨heq, by rw [hid]⟩

theorem higherFirst_of_le {a b : Hit} (hid : a.factVersionId = b.factVersionId)
    (hle : b.score ≤ a.score) : HigherFirst a b := by
  rcases lt_or_eq_of_le hle with hlt | heq
  · exact Or.inl hlt
  · exact Or.inr ⟨heq.symm, by rw [hid]⟩

theorem hit_ext {a b : Hit} (hscore : a.score = b.score)
    (hid : a.factVersionId.toNat = b.factVersionId.toNat) : a = b := by
  obtain ⟨id, score⟩ := a
  obtain ⟨id', score'⟩ := b
  obtain rfl : id = id' := BitVec.eq_of_toNat_eq hid
  obtain rfl : score = score' := hscore
  rfl

instance : HitOrder NearerFirst where
  trans := by
    rintro a b c (hab | ⟨hab, hid⟩) (hbc | ⟨hbc, hid'⟩)
    · exact Or.inl (hab.trans hbc)
    · exact Or.inl (hbc ▸ hab)
    · exact Or.inl (hab ▸ hbc)
    · exact Or.inr ⟨hab.trans hbc, hid.trans hid'⟩
  total := by
    intro a b
    rcases lt_trichotomy a.score b.score with hlt | heq | hgt
    · exact Or.inl (Or.inl hlt)
    · rcases Nat.le_total a.factVersionId.toNat b.factVersionId.toNat with hid | hid
      · exact Or.inl (Or.inr ⟨heq, hid⟩)
      · exact Or.inr (Or.inr ⟨heq.symm, hid⟩)
    · exact Or.inr (Or.inl hgt)
  antisymm := by
    rintro a b (hab | ⟨hab, hid⟩) (hba | ⟨hba, hid'⟩)
    · exact absurd hab (lt_asymm hba)
    · exact absurd hab (hba ▸ lt_irrefl _)
    · exact absurd hba (hab ▸ lt_irrefl _)
    · exact hit_ext hab (Nat.le_antisymm hid hid')

instance : HitOrder HigherFirst where
  trans := by
    rintro a b c (hab | ⟨hab, hid⟩) (hbc | ⟨hbc, hid'⟩)
    · exact Or.inl (hbc.trans hab)
    · exact Or.inl (hbc ▸ hab)
    · exact Or.inl (hab ▸ hbc)
    · exact Or.inr ⟨hab.trans hbc, hid.trans hid'⟩
  total := by
    intro a b
    rcases lt_trichotomy a.score b.score with hlt | heq | hgt
    · exact Or.inr (Or.inl hlt)
    · rcases Nat.le_total a.factVersionId.toNat b.factVersionId.toNat with hid | hid
      · exact Or.inl (Or.inr ⟨heq, hid⟩)
      · exact Or.inr (Or.inr ⟨heq.symm, hid⟩)
    · exact Or.inl (Or.inl hgt)
  antisymm := by
    rintro a b (hab | ⟨hab, hid⟩) (hba | ⟨hba, hid'⟩)
    · exact absurd hab (lt_asymm hba)
    · exact absurd hab (hba ▸ lt_irrefl _)
    · exact absurd hba (hab ▸ lt_irrefl _)
    · exact hit_ext hab (Nat.le_antisymm hid hid')

section Branches

variable (r : Hit → Hit → Prop) [DecidableRel r] [HitOrder r]

/-- What a branch ranks. -/
def branch (hits : List Hit) : List Hit := dedupe (hits.insertionSort r)

theorem best_branch (hits : List Hit) : Best Hit.factVersionId r hits (branch r hits) := by
  have htotal : Std.Total r := ⟨HitOrder.total⟩
  rw [branch, dedupe_eq_keepFirst]
  refine (best_keepFirst (HitOrder.refl r) (List.pairwise_insertionSort r hits)).congr fun a => ?_
  exact (List.mem_insertionSort r).symm

/-- A ranking depends on what is best, not on how the hits came. -/
theorem branch_eq_of_best {hits others : List Hit}
    (h : Best Hit.factVersionId r others (branch r hits)) : branch r others = branch r hits :=
  (best_branch r others).unique HitOrder.antisymm h

theorem branch_perm {hits others : List Hit} (hperm : others ~ hits) :
    branch r others = branch r hits :=
  branch_eq_of_best r ((best_branch r hits).congr fun _ => hperm.mem_iff)

theorem branch_repeated {hits others : List Hit} {hit better : Hit} (hperm : others ~ hit :: hits)
    (hbetter : better ∈ hits) (hid : better.factVersionId = hit.factVersionId)
    (hle : r better hit) : branch r others = branch r hits := by
  rw [branch_perm r hperm]
  exact branch_eq_of_best r ((best_branch r hits).cons hbetter hid hle)

theorem mem_branch_ids {hits : List Hit} {id : Uuid} :
    id ∈ (branch r hits).map Hit.factVersionId ↔ id ∈ hits.map Hit.factVersionId := by
  have hbest := best_branch r hits
  rw [List.mem_map, List.mem_map]
  constructor
  · rintro ⟨hit, hhit, rfl⟩
    exact ⟨hit, hbest.subset hit hhit, rfl⟩
  · rintro ⟨hit, hhit, rfl⟩
    obtain ⟨b, hb, hid, -⟩ := hbest.covers hit hhit
    exact ⟨b, hb, hid⟩

end Branches

/-- Ranks are indices from 1. -/
theorem rankOf_eq_some {hits : List Hit} (hids : (hits.map Hit.factVersionId).Nodup) {id : Uuid}
    {n : ℕ} {hit : Hit} : rankOf hits id = some (n, hit) ↔
      hit.factVersionId = id ∧ ∃ i, hits[i]? = some hit ∧ n = i + 1 := by
  have hfrom (k : ℕ) : (hits.zipIdx k).findSome? (fun entry =>
      if entry.1.factVersionId = id then some (entry.2, entry.1) else none) = some (n, hit) ↔
        hit.factVersionId = id ∧ ∃ i, hits[i]? = some hit ∧ n = i + k := by
    induction hits generalizing k with
    | nil => simp
    | cons first hits ih =>
      obtain ⟨hfirst, hids⟩ := List.nodup_cons.mp hids
      rw [List.zipIdx_cons, List.findSome?_cons]
      by_cases hid : first.factVersionId = id
      · simp only [if_pos hid]
        constructor
        · intro h
          obtain ⟨rfl, rfl⟩ := Prod.mk.inj (Option.some.inj h)
          exact ⟨hid, 0, rfl, by omega⟩
        · rintro ⟨hhit, i, hi, rfl⟩
          cases i with
          | zero =>
            obtain rfl : first = hit := by simpa using hi
            simp
          | succ i =>
            have hmem : hit ∈ hits := List.mem_of_getElem? (by simpa using hi)
            exact absurd (List.mem_map.mpr ⟨hit, hmem, hhit.trans hid.symm⟩) hfirst
      · simp only [if_neg hid]
        rw [ih hids (k + 1)]
        refine and_congr_right fun hhit => ?_
        constructor
        · rintro ⟨i, hi, rfl⟩
          exact ⟨i + 1, by simpa using hi, by omega⟩
        · rintro ⟨i, hi, rfl⟩
          cases i with
          | zero =>
            obtain rfl : first = hit := by simpa using hi
            exact absurd hhit hid
          | succ i => exact ⟨i, by simpa using hi, by omega⟩
  exact hfrom 1

/-- A kept hit has its place as its rank. -/
theorem rankOf_branch (r : Hit → Hit → Prop) [DecidableRel r] [HitOrder r] {hits : List Hit}
    {id : Uuid} {n : ℕ} {hit : Hit} : rankOf (branch r hits) id = some (n, hit) ↔
      hit ∈ branch r hits ∧ hit.factVersionId = id ∧
        n = (branch r hits).countP fun other => decide (r other hit) := by
  have hbest := best_branch r hits
  rw [rankOf_eq_some hbest.names]
  constructor
  · rintro ⟨hid, i, hi, rfl⟩
    refine ⟨List.mem_of_getElem? hi, hid, ?_⟩
    rw [countP_of_getElem? HitOrder.antisymm (HitOrder.refl r) hbest.sorted hbest.names.of_map hi]
  · rintro ⟨hmem, hid, rfl⟩
    obtain ⟨i, hi⟩ := List.mem_iff_getElem?.mp hmem
    refine ⟨hid, i, hi, ?_⟩
    rw [countP_of_getElem? HitOrder.antisymm (HitOrder.refl r) hbest.sorted hbest.names.of_map hi]

theorem rankOf_branch_isSome (r : Hit → Hit → Prop) [DecidableRel r] [HitOrder r] {hits : List Hit}
    {id : Uuid} : (rankOf (branch r hits) id).isSome = true ↔ id ∈ hits.map Hit.factVersionId := by
  rw [← mem_branch_ids r, Option.isSome_iff_exists, List.mem_map]
  constructor
  · rintro ⟨⟨n, hit⟩, h⟩
    obtain ⟨hmem, hid, -⟩ := (rankOf_branch r).mp h
    exact ⟨hit, hmem, hid⟩
  · rintro ⟨hit, hmem, hid⟩
    exact ⟨_, (rankOf_branch r).mpr ⟨hmem, hid, rfl⟩⟩

/-- What one branch adds to the fused score. -/
def share (rrfK : ℕ) (rank : Option (ℕ × Hit)) : ℚ :=
  rank.elim 0 fun r => 1 / ((rrfK + r.1 : ℕ) : ℚ)

def rankedOf (vectors texts : List Hit) (trust : Uuid → ℚ) (trustWeight : ℚ) (rrfK : ℕ)
    (id : Uuid) : RankedCandidate :=
  let v := rankOf vectors id
  let t := rankOf texts id
  let rrf := share rrfK v + share rrfK t
  { factVersionId := id
    ranking :=
      { score := rrf * ((1 - trustWeight) + trustWeight * trust id)
        rrfScore := rrf
        trust := trust id
        vectorRank := v.map Prod.fst
        vectorDistance := v.map fun r => r.2.score
        textRank := t.map Prod.fst
        textScore := t.map fun r => r.2.score } }

instance : Std.Total BetterFirst := by
  refine ⟨fun a b => ?_⟩
  rcases lt_trichotomy a.ranking.score b.ranking.score with hlt | heq | hgt
  · exact Or.inr (Or.inl hlt)
  · rcases Nat.le_total a.factVersionId.toNat b.factVersionId.toNat with hid | hid
    · exact Or.inl (Or.inr ⟨heq, hid⟩)
    · exact Or.inr (Or.inr ⟨heq.symm, hid⟩)
  · exact Or.inl (Or.inl hgt)

instance : IsTrans RankedCandidate BetterFirst := by
  refine ⟨?_⟩
  rintro a b c (hab | ⟨hab, hid⟩) (hbc | ⟨hbc, hid'⟩)
  · exact Or.inl (hbc.trans hab)
  · exact Or.inl (hbc ▸ hab)
  · exact Or.inl (hab ▸ hbc)
  · exact Or.inr ⟨hab.trans hbc, hid.trans hid'⟩

/-- Two candidates that come no later than each other are about one version. -/
theorem betterFirst_antisymm {a b : RankedCandidate} (hab : BetterFirst a b)
    (hba : BetterFirst b a) : a.factVersionId = b.factVersionId := by
  rcases hab with hab | ⟨hab, hid⟩
  · rcases hba with hba | ⟨hba, -⟩
    · exact absurd hab (lt_asymm hba)
    · exact absurd hab (hba ▸ lt_irrefl _)
  · rcases hba with hba | ⟨-, hid'⟩
    · exact absurd hba (hab ▸ lt_irrefl _)
    · exact BitVec.eq_of_toNat_eq (Nat.le_antisymm hid hid')

section Fused

variable (vectorHits textHits : List Hit) (trust : Uuid → ℚ) (trustWeight : ℚ) (rrfK : ℕ)

def fusedIds : List Uuid :=
  ((branch NearerFirst vectorHits ++ branch HigherFirst textHits).map Hit.factVersionId).dedup

theorem fuse_eq : fuse vectorHits textHits trust trustWeight rrfK =
    ((fusedIds vectorHits textHits).map (rankedOf (branch NearerFirst vectorHits)
      (branch HigherFirst textHits) trust trustWeight rrfK)).insertionSort BetterFirst := rfl

theorem mem_fusedIds {id : Uuid} : id ∈ fusedIds vectorHits textHits ↔
    id ∈ vectorHits.map Hit.factVersionId ∨ id ∈ textHits.map Hit.factVersionId := by
  rw [fusedIds, List.mem_dedup, List.map_append, List.mem_append, mem_branch_ids, mem_branch_ids]

theorem mem_fuse {c : RankedCandidate} : c ∈ fuse vectorHits textHits trust trustWeight rrfK ↔
    c.factVersionId ∈ fusedIds vectorHits textHits ∧ c = rankedOf (branch NearerFirst vectorHits)
      (branch HigherFirst textHits) trust trustWeight rrfK c.factVersionId := by
  rw [fuse_eq, List.mem_insertionSort, List.mem_map]
  constructor
  · rintro ⟨id, hid, rfl⟩
    exact ⟨hid, rfl⟩
  · rintro ⟨hid, hc⟩
    exact ⟨c.factVersionId, hid, hc.symm⟩

theorem ids_fuse_perm : (fuse vectorHits textHits trust trustWeight rrfK).map
    RankedCandidate.factVersionId ~ fusedIds vectorHits textHits := by
  rw [fuse_eq]
  have hperm := (List.perm_insertionSort BetterFirst ((fusedIds vectorHits textHits).map
    (rankedOf (branch NearerFirst vectorHits) (branch HigherFirst textHits) trust trustWeight
      rrfK))).map RankedCandidate.factVersionId
  rw [List.map_map] at hperm
  refine hperm.trans ?_
  have hid : RankedCandidate.factVersionId ∘ rankedOf (branch NearerFirst vectorHits)
      (branch HigherFirst textHits) trust trustWeight rrfK = id := rfl
  rw [hid, List.map_id]

theorem ids_fuse_nodup : ((fuse vectorHits textHits trust trustWeight rrfK).map
    RankedCandidate.factVersionId).Nodup :=
  (ids_fuse_perm vectorHits textHits trust trustWeight rrfK).nodup_iff.mpr (List.nodup_dedup _)

theorem fuse_sorted : (fuse vectorHits textHits trust trustWeight rrfK).Pairwise BetterFirst := by
  rw [fuse_eq]
  exact List.pairwise_insertionSort BetterFirst _

/-- The order in which the set of identifiers is gone through does not matter. -/
theorem fuse_of_order {order : List Uuid} (horder : order ~ fusedIds vectorHits textHits) :
    (order.map (rankedOf (branch NearerFirst vectorHits) (branch HigherFirst textHits) trust
        trustWeight rrfK)).insertionSort BetterFirst =
      fuse vectorHits textHits trust trustWeight rrfK := by
  rw [fuse_eq]
  apply insertionSort_eq_of_perm BetterFirst _ (horder.map _)
  intro a ha b hb hab hba
  obtain ⟨id, -, rfl⟩ := List.mem_map.mp ha
  obtain ⟨id', -, rfl⟩ := List.mem_map.mp hb
  have hsame : id = id' := betterFirst_antisymm hab hba
  rw [hsame]

/-- What is fused depends on what each branch ranks. -/
theorem fuse_congr {others texts : List Hit}
    (hvectors : branch NearerFirst others = branch NearerFirst vectorHits)
    (htexts : branch HigherFirst texts = branch HigherFirst textHits) :
    fuse others texts trust trustWeight rrfK =
      fuse vectorHits textHits trust trustWeight rrfK := by
  rw [fuse_eq, fuse_eq, fusedIds, fusedIds, hvectors, htexts]

end Fused

/-- The ranks of one branch: 1, 2, … in the order of the best hits, with ties broken by the
identifier. -/
structure RanksBranch (r : Hit → Hit → Prop) (hits : List Hit) (out : List RankedCandidate)
    (rank : Ranking → Option ℕ) (value : Ranking → Option ℚ) : Prop where
  found : ∀ c ∈ out,
    (rank c.ranking).isSome = true ↔ c.factVersionId ∈ hits.map Hit.factVersionId
  valued : ∀ c ∈ out, (value c.ranking).isSome = (rank c.ranking).isSome
  best : ∀ c ∈ out, ∀ s, value c.ranking = some s → ⟨c.factVersionId, s⟩ ∈ hits ∧
    ∀ h ∈ hits, h.factVersionId = c.factVersionId → r ⟨c.factVersionId, s⟩ h
  numbers : ∀ n, (∃ c ∈ out, rank c.ranking = some n) ↔
    1 ≤ n ∧ n ≤ (hits.map Hit.factVersionId).dedup.length
  order : ∀ c ∈ out, ∀ c' ∈ out, ∀ n n' s s', rank c.ranking = some n →
    rank c'.ranking = some n' → value c.ranking = some s → value c'.ranking = some s' →
    (n ≤ n' ↔ r ⟨c.factVersionId, s⟩ ⟨c'.factVersionId, s'⟩)

theorem length_branch (r : Hit → Hit → Prop) [DecidableRel r] [HitOrder r] (hits : List Hit) :
    (branch r hits).length = (hits.map Hit.factVersionId).dedup.length := by
  have hperm : (branch r hits).map Hit.factVersionId ~ (hits.map Hit.factVersionId).dedup := by
    refine (List.perm_ext_iff_of_nodup (best_branch r hits).names (List.nodup_dedup _)).mpr ?_
    intro id
    rw [mem_branch_ids, List.mem_dedup]
  rw [← hperm.length_eq, List.length_map]

/-- Candidates that carry the ranks of a branch rank it. -/
theorem ranksBranch_of_rankOf {r : Hit → Hit → Prop} [DecidableRel r] [HitOrder r]
    {hits : List Hit} {out : List RankedCandidate} {rank : Ranking → Option ℕ}
    {value : Ranking → Option ℚ}
    (hrank : ∀ c ∈ out, rank c.ranking = (rankOf (branch r hits) c.factVersionId).map Prod.fst)
    (hvalue : ∀ c ∈ out, value c.ranking =
      (rankOf (branch r hits) c.factVersionId).map fun p => p.2.score)
    (hout : ∀ id ∈ hits.map Hit.factVersionId, ∃ c ∈ out, c.factVersionId = id) :
    RanksBranch r hits out rank value := by
  have hbest := best_branch r hits
  have hheld {c : RankedCandidate} (hc : c ∈ out) {s : ℚ} (hs : value c.ranking = some s) :
      ∃ n, rankOf (branch r hits) c.factVersionId = some (n, ⟨c.factVersionId, s⟩) := by
    rw [hvalue c hc] at hs
    obtain ⟨⟨n, hit⟩, hfound, rfl⟩ := Option.map_eq_some_iff.mp hs
    obtain ⟨-, hid, -⟩ := (rankOf_branch r).mp hfound
    exact ⟨n, by rw [hfound, ← hid]⟩
  refine ⟨?_, ?_, ?_, ?_, ?_⟩
  · intro c hc
    rw [hrank c hc, Option.isSome_map, rankOf_branch_isSome r]
  · intro c hc
    rw [hrank c hc, hvalue c hc, Option.isSome_map, Option.isSome_map]
  · intro c hc s hs
    obtain ⟨n, hfound⟩ := hheld hc hs
    obtain ⟨hmem, -, -⟩ := (rankOf_branch r).mp hfound
    exact ⟨hbest.subset _ hmem, fun h hh hid => hbest.le hmem hh hid.symm⟩
  · intro n
    rw [← length_branch r hits]
    constructor
    · rintro ⟨c, hc, hn⟩
      rw [hrank c hc] at hn
      obtain ⟨⟨m, hit⟩, hfound, rfl⟩ := Option.map_eq_some_iff.mp hn
      obtain ⟨-, i, hi, rfl⟩ := (rankOf_eq_some hbest.names).mp hfound
      exact ⟨by omega, (List.getElem?_eq_some_iff.mp hi).1⟩
    · rintro ⟨hpos, hle⟩
      have hi : n - 1 < (branch r hits).length := by omega
      have hget := List.getElem?_eq_getElem hi
      have hmem := List.getElem_mem hi
      obtain ⟨c, hc, hid⟩ := hout _ (List.mem_map_of_mem (hbest.subset _ hmem))
      refine ⟨c, hc, ?_⟩
      have hfound := (rankOf_eq_some hbest.names).mpr
        ⟨hid.symm, n - 1, hget, (Nat.sub_add_cancel hpos).symm⟩
      rw [hrank c hc, hfound, Option.map_some]
  · intro c hc c' hc' n n' s s' hn hn' hs hs'
    obtain ⟨m, hfound⟩ := hheld hc hs
    obtain ⟨m', hfound'⟩ := hheld hc' hs'
    rw [hrank c hc, hfound] at hn
    rw [hrank c' hc', hfound'] at hn'
    obtain ⟨-, i, hi, hm⟩ := (rankOf_eq_some hbest.names).mp hfound
    obtain ⟨-, j, hj, hm'⟩ := (rankOf_eq_some hbest.names).mp hfound'
    have hmn : m = n := Option.some.inj hn
    have hmn' : m' = n' := Option.some.inj hn'
    have horder := le_iff_of_getElem? (HitOrder.refl r)
      (fun a _ b _ => HitOrder.antisymm a b) hbest.sorted hbest.names.of_map hi hj
    rw [← horder, ← hmn, ← hmn', hm, hm']
    omega

/-- Fusion ranks the set of versions that occur: each once, ranked in each branch by its best hit,
sorted by score and then by identifier, whatever the order and the repeats of the hits. -/
theorem fusion_ranks_set (vectorHits textHits : List Hit) (trust : Uuid → ℚ) (trustWeight : ℚ)
    (rrfK : ℕ) :
    ((fuse vectorHits textHits trust trustWeight rrfK).map
        RankedCandidate.factVersionId).Nodup ∧
      (∀ id, id ∈ (fuse vectorHits textHits trust trustWeight rrfK).map
          RankedCandidate.factVersionId ↔
        id ∈ vectorHits.map Hit.factVersionId ∨ id ∈ textHits.map Hit.factVersionId) ∧
      RanksBranch NearerFirst vectorHits (fuse vectorHits textHits trust trustWeight rrfK)
        Ranking.vectorRank Ranking.vectorDistance ∧
      RanksBranch HigherFirst textHits (fuse vectorHits textHits trust trustWeight rrfK)
        Ranking.textRank Ranking.textScore ∧
      (fuse vectorHits textHits trust trustWeight rrfK).Pairwise BetterFirst ∧
      (∀ c ∈ fuse vectorHits textHits trust trustWeight rrfK,
        c.ranking.rrfScore = (c.ranking.vectorRank.elim 0 fun n => 1 / ((rrfK + n : ℕ) : ℚ)) +
            (c.ranking.textRank.elim 0 fun n => 1 / ((rrfK + n : ℕ) : ℚ)) ∧
          c.ranking.trust = trust c.factVersionId ∧
          c.ranking.score =
            c.ranking.rrfScore * ((1 - trustWeight) + trustWeight * c.ranking.trust)) ∧
      (∀ vectors texts, vectors ~ vectorHits → texts ~ textHits →
        fuse vectors texts trust trustWeight rrfK =
          fuse vectorHits textHits trust trustWeight rrfK) ∧
      (∀ hit, ∀ better ∈ vectorHits, better.factVersionId = hit.factVersionId →
        better.score ≤ hit.score → ∀ vectors, vectors ~ hit :: vectorHits →
          fuse vectors textHits trust trustWeight rrfK =
            fuse vectorHits textHits trust trustWeight rrfK) ∧
      ∀ hit, ∀ better ∈ textHits, better.factVersionId = hit.factVersionId →
        hit.score ≤ better.score → ∀ texts, texts ~ hit :: textHits →
          fuse vectorHits texts trust trustWeight rrfK =
            fuse vectorHits textHits trust trustWeight rrfK := by
  have hids := ids_fuse_perm vectorHits textHits trust trustWeight rrfK
  have hmem (id : Uuid) : id ∈ (fuse vectorHits textHits trust trustWeight rrfK).map
      RankedCandidate.factVersionId ↔
        id ∈ vectorHits.map Hit.factVersionId ∨ id ∈ textHits.map Hit.factVersionId := by
    rw [hids.mem_iff, mem_fusedIds]
  have hcandidate {c : RankedCandidate}
      (hc : c ∈ fuse vectorHits textHits trust trustWeight rrfK) :=
    ((mem_fuse vectorHits textHits trust trustWeight rrfK).mp hc).2
  refine ⟨ids_fuse_nodup _ _ _ _ _, hmem, ?_, ?_, fuse_sorted _ _ _ _ _, ?_, ?_, ?_, ?_⟩
  · refine ranksBranch_of_rankOf (fun c hc => ?_) (fun c hc => ?_) fun id hid => ?_
    · rw [hcandidate hc]
      rfl
    · rw [hcandidate hc]
      rfl
    · exact List.mem_map.mp ((hmem id).mpr (Or.inl hid))
  · refine ranksBranch_of_rankOf (fun c hc => ?_) (fun c hc => ?_) fun id hid => ?_
    · rw [hcandidate hc]
      rfl
    · rw [hcandidate hc]
      rfl
    · exact List.mem_map.mp ((hmem id).mpr (Or.inr hid))
  · intro c hc
    rw [hcandidate hc]
    refine ⟨?_, rfl, rfl⟩
    simp only [rankedOf, share]
    cases rankOf (branch NearerFirst vectorHits) c.factVersionId <;>
      cases rankOf (branch HigherFirst textHits) c.factVersionId <;> rfl
  · intro vectors texts hvectors htexts
    exact fuse_congr _ _ _ _ _ (branch_perm _ hvectors) (branch_perm _ htexts)
  · intro hit better hbetter hid hle vectors hperm
    have hnearer : NearerFirst better hit := nearerFirst_of_le hid hle
    exact fuse_congr _ _ _ _ _ (branch_repeated _ hperm hbetter hid hnearer) rfl
  · intro hit better hbetter hid hle texts hperm
    have hhigher : HigherFirst better hit := higherFirst_of_le hid hle
    exact fuse_congr _ _ _ _ _ rfl (branch_repeated _ hperm hbetter hid hhigher)

/-- What is fused, apart from the weights. -/
structure Input where
  vectorHits : List Hit
  textHits : List Hit
  trust : Uuid → ℚ

def Input.fused (input : Input) (trustWeight : ℚ) (rrfK : ℕ) : List RankedCandidate :=
  fuse input.vectorHits input.textHits input.trust trustWeight rrfK

/-- One thing about a version gets better: its trust is raised, its distance is lowered or its
text score raised. A version that a branch had not found has no hit to compare with, so adding
it to the branch is one of the ways. -/
inductive Raises (id : Uuid) (input : Input) : Input → Prop
  | trust (trust : Uuid → ℚ) (hraised : input.trust id ≤ trust id)
      (hothers : ∀ other, other ≠ id → trust other = input.trust other) :
      Raises id input { input with trust }
  | nearer (hits : List Hit)
      (hothers : ∀ hit, hit.factVersionId ≠ id → (hit ∈ hits ↔ hit ∈ input.vectorHits))
      (hnearer : ∀ hit ∈ input.vectorHits, hit.factVersionId = id →
        ∃ hit' ∈ hits, hit'.factVersionId = id ∧ hit'.score ≤ hit.score) :
      Raises id input { input with vectorHits := hits }
  | higher (hits : List Hit)
      (hothers : ∀ hit, hit.factVersionId ≠ id → (hit ∈ hits ↔ hit ∈ input.textHits))
      (hhigher : ∀ hit ∈ input.textHits, hit.factVersionId = id →
        ∃ hit' ∈ hits, hit'.factVersionId = id ∧ hit.score ≤ hit'.score) :
      Raises id input { input with textHits := hits }

theorem share_nonneg (rrfK : ℕ) (rank : Option (ℕ × Hit)) : 0 ≤ share rrfK rank := by
  cases rank with
  | none => exact le_refl 0
  | some r => exact div_nonneg zero_le_one (Nat.cast_nonneg _)

theorem share_le {rrfK : ℕ} (hk : 1 ≤ rrfK) {n m : ℕ} (hit hit' : Hit) (hle : n ≤ m) :
    share rrfK (some (m, hit')) ≤ share rrfK (some (n, hit)) := by
  have hpos : (0 : ℚ) < ((rrfK + n : ℕ) : ℚ) := by
    exact_mod_cast (by omega : 0 < rrfK + n)
  have hcast : ((rrfK + n : ℕ) : ℚ) ≤ ((rrfK + m : ℕ) : ℚ) := by
    exact_mod_cast Nat.add_le_add_left hle rrfK
  exact one_div_le_one_div_of_le hpos hcast

section Branch

variable {r : Hit → Hit → Prop} [DecidableRel r] [HitOrder r] {id : Uuid} {hits others : List Hit}
  (himproved : Improved Hit.factVersionId r id hits others) {rrfK : ℕ} (hk : 1 ≤ rrfK)

include himproved hk

/-- The other versions of the branch get no larger share. -/
theorem share_other_le {other : Uuid} (hne : other ≠ id) :
    share rrfK (rankOf (branch r others) other) ≤ share rrfK (rankOf (branch r hits) other) := by
  have hbest := best_branch r hits
  have hbest' := best_branch r others
  cases hfound : rankOf (branch r others) other with
  | none => exact share_nonneg rrfK _
  | some ranked =>
    obtain ⟨n, hit⟩ := ranked
    obtain ⟨hmem, hid, rfl⟩ := (rankOf_branch r).mp hfound
    have hkept := (himproved.mem_iff HitOrder.antisymm hbest hbest' (hid ▸ hne)).mp hmem
    rw [(rankOf_branch r).mpr ⟨hkept, hid, rfl⟩]
    exact share_le hk hit hit (himproved.place_le HitOrder.antisymm hbest hbest' hit)

/-- The improved version gets no smaller share. -/
theorem share_self_le :
    share rrfK (rankOf (branch r hits) id) ≤ share rrfK (rankOf (branch r others) id) := by
  have hbest := best_branch r hits
  have hbest' := best_branch r others
  cases hfound : rankOf (branch r hits) id with
  | none => exact share_nonneg rrfK _
  | some ranked =>
    obtain ⟨n, hit⟩ := ranked
    obtain ⟨hmem, hid, rfl⟩ := (rankOf_branch r).mp hfound
    obtain ⟨hit', hmem', hid'⟩ := himproved.found hbest hbest' hmem hid
    rw [(rankOf_branch r).mpr ⟨hmem', hid', rfl⟩]
    exact share_le hk hit' hit (himproved.place_self_le HitOrder.antisymm hbest hbest'
      (HitOrder.refl r) hmem hid hmem' hid')

end Branch

def Input.candidate (input : Input) (trustWeight : ℚ) (rrfK : ℕ) (id : Uuid) : RankedCandidate :=
  rankedOf (branch NearerFirst input.vectorHits) (branch HigherFirst input.textHits) input.trust
    trustWeight rrfK id

def Input.ids (input : Input) (trustWeight : ℚ) (rrfK : ℕ) : List Uuid :=
  (input.fused trustWeight rrfK).map RankedCandidate.factVersionId

section Monotone

variable {id : Uuid} {input raised : Input} (hraises : Raises id input raised) {trustWeight : ℚ}
  {rrfK : ℕ}

/-- Positions are in the order of the candidates. -/
theorem idxOf_le_iff {first second : Uuid} (hfirst : first ∈ input.ids trustWeight rrfK)
    (hsecond : second ∈ input.ids trustWeight rrfK) :
    (input.ids trustWeight rrfK).idxOf first ≤ (input.ids trustWeight rrfK).idxOf second ↔
      BetterFirst (input.candidate trustWeight rrfK first)
        (input.candidate trustWeight rrfK second) := by
  have hnodup : (input.ids trustWeight rrfK).Nodup := ids_fuse_nodup _ _ _ _ _
  have hget {x : Uuid} (hx : x ∈ input.ids trustWeight rrfK) :
      (input.fused trustWeight rrfK)[(input.ids trustWeight rrfK).idxOf x]? =
        some (input.candidate trustWeight rrfK x) := by
    have hlt : (input.ids trustWeight rrfK).idxOf x < (input.fused trustWeight rrfK).length := by
      have hlt := List.idxOf_lt_length_iff.mpr hx
      rwa [Input.ids, List.length_map] at hlt
    rw [List.getElem?_eq_getElem hlt]
    have hmem := List.getElem_mem hlt
    have hid :
        ((input.fused trustWeight rrfK)[(input.ids trustWeight rrfK).idxOf x]).factVersionId =
          x := by
      have hidx := List.getElem_idxOf (List.idxOf_lt_length_iff.mpr hx)
      simp only [Input.ids, List.getElem_map] at hidx
      exact hidx
    have hcandidate := ((mem_fuse _ _ _ _ _).mp hmem).2
    rw [hid] at hcandidate
    rw [hcandidate]
    rfl
  refine le_iff_of_getElem? ?_ ?_ (fuse_sorted _ _ _ _ _) hnodup.of_map (hget hfirst) (hget hsecond)
  · exact fun a => Or.inr ⟨rfl, Nat.le_refl _⟩
  · intro a ha b hb hab hba
    exact List.inj_on_of_nodup_map hnodup ha hb (betterFirst_antisymm hab hba)

/-- Hits that improve for one version name the versions they named, when it is named. -/
theorem mem_ids_improved {hits others : List Hit}
    (hothers : ∀ hit, hit.factVersionId ≠ id → (hit ∈ others ↔ hit ∈ hits))
    (hbetter : ∀ hit ∈ hits, hit.factVersionId = id → ∃ hit' ∈ others, hit'.factVersionId = id)
    {other : Uuid} (h : other ∈ hits.map Hit.factVersionId) :
    other ∈ others.map Hit.factVersionId := by
  obtain ⟨hit, hhit, rfl⟩ := List.mem_map.mp h
  by_cases hid : hit.factVersionId = id
  · obtain ⟨hit', hhit', hid'⟩ := hbetter hit hhit hid
    exact List.mem_map.mpr ⟨hit', hhit', hid'.trans hid.symm⟩
  · exact List.mem_map.mpr ⟨hit, (hothers hit hid).mpr hhit, rfl⟩

theorem mem_ids_of_improved {hits others : List Hit}
    (hothers : ∀ hit, hit.factVersionId ≠ id → (hit ∈ others ↔ hit ∈ hits)) {other : Uuid}
    (h : other ∈ others.map Hit.factVersionId) :
    other ∈ hits.map Hit.factVersionId ∨ other = id := by
  obtain ⟨hit, hhit, rfl⟩ := List.mem_map.mp h
  by_cases hid : hit.factVersionId = id
  · exact Or.inr hid
  · exact Or.inl (List.mem_map.mpr ⟨hit, (hothers hit hid).mp hhit, rfl⟩)

include hraises

theorem mem_ids_raised (hid : id ∈ fusedIds input.vectorHits input.textHits) (other : Uuid) :
    other ∈ fusedIds raised.vectorHits raised.textHits ↔
      other ∈ fusedIds input.vectorHits input.textHits := by
  rw [mem_fusedIds] at hid ⊢
  rw [mem_fusedIds]
  cases hraises with
  | trust trust hraised hothers => rfl
  | nearer hits hothers hnearer =>
    constructor
    · rintro (h | h)
      · rcases mem_ids_of_improved hothers h with h | rfl
        · exact Or.inl h
        · exact hid
      · exact Or.inr h
    · rintro (h | h)
      · refine Or.inl (mem_ids_improved hothers (fun hit hhit hsame => ?_) h)
        obtain ⟨hit', hhit', hid', -⟩ := hnearer hit hhit hsame
        exact ⟨hit', hhit', hid'⟩
      · exact Or.inr h
  | higher hits hothers hhigher =>
    constructor
    · rintro (h | h)
      · exact Or.inl h
      · rcases mem_ids_of_improved hothers h with h | rfl
        · exact Or.inr h
        · exact hid
    · rintro (h | h)
      · exact Or.inl h
      · refine Or.inr (mem_ids_improved hothers (fun hit hhit hsame => ?_) h)
        obtain ⟨hit', hhit', hid', -⟩ := hhigher hit hhit hsame
        exact ⟨hit', hhit', hid'⟩

theorem ids_raised_perm (hid : id ∈ input.ids trustWeight rrfK) :
    raised.ids trustWeight rrfK ~ input.ids trustWeight rrfK := by
  have hperm := ids_fuse_perm input.vectorHits input.textHits input.trust trustWeight rrfK
  have hperm' := ids_fuse_perm raised.vectorHits raised.textHits raised.trust trustWeight rrfK
  refine hperm'.trans (List.Perm.trans ?_ hperm.symm)
  refine (List.perm_ext_iff_of_nodup (List.nodup_dedup _) (List.nodup_dedup _)).mpr fun other => ?_
  exact mem_ids_raised hraises (hperm.mem_iff.mp hid) other

variable (hweight : 0 ≤ trustWeight) (hweight' : trustWeight ≤ 1) (hk : 1 ≤ rrfK)
  (htrust : ∀ other, 0 ≤ input.trust other)

include hweight hweight' hk htrust

/-- The raised version scores no less, and the others no more. -/
theorem scores_raised :
    (input.candidate trustWeight rrfK id).ranking.score ≤
        (raised.candidate trustWeight rrfK id).ranking.score ∧
      ∀ other, other ≠ id → (raised.candidate trustWeight rrfK other).ranking.score ≤
        (input.candidate trustWeight rrfK other).ranking.score := by
  have hfactor (other : Uuid) : 0 ≤ (1 - trustWeight) + trustWeight * input.trust other :=
    add_nonneg (sub_nonneg.mpr hweight') (mul_nonneg hweight (htrust other))
  simp only [Input.candidate, rankedOf]
  cases hraises with
  | trust trust hraised hothers =>
    constructor
    · apply mul_le_mul_of_nonneg_left _ (add_nonneg (share_nonneg _ _) (share_nonneg _ _))
      exact add_le_add_right (mul_le_mul_of_nonneg_left hraised hweight) _
    · intro other hne
      simp only [hothers other hne]
      exact le_refl _
  | nearer hits hothers hnearer =>
    have himproved : Improved Hit.factVersionId NearerFirst id input.vectorHits hits := by
      refine ⟨hothers, fun hit hhit hid => ?_⟩
      obtain ⟨hit', hhit', hid', hle⟩ := hnearer hit hhit hid
      exact ⟨hit', hhit', hid', nearerFirst_of_le (hid'.trans hid.symm) hle⟩
    refine ⟨mul_le_mul_of_nonneg_right ?_ (hfactor id), fun other hne =>
      mul_le_mul_of_nonneg_right ?_ (hfactor other)⟩
    · exact add_le_add_left (share_self_le himproved hk) _
    · exact add_le_add_left (share_other_le himproved hk hne) _
  | higher hits hothers hhigher =>
    have himproved : Improved Hit.factVersionId HigherFirst id input.textHits hits := by
      refine ⟨hothers, fun hit hhit hid => ?_⟩
      obtain ⟨hit', hhit', hid', hle⟩ := hhigher hit hhit hid
      exact ⟨hit', hhit', hid', higherFirst_of_le (hid'.trans hid.symm) hle⟩
    refine ⟨mul_le_mul_of_nonneg_right ?_ (hfactor id), fun other hne =>
      mul_le_mul_of_nonneg_right ?_ (hfactor other)⟩
    · exact add_le_add_right (share_self_le himproved hk) _
    · exact add_le_add_right (share_other_le himproved hk hne) _

end Monotone

/-- A version that gets better in one way does not move back, and no version that was behind it
passes it. -/
theorem fusion_monotone (input raised : Input) (id : Uuid) (trustWeight : ℚ) (rrfK : ℕ)
    (hweight : 0 ≤ trustWeight) (hweight' : trustWeight ≤ 1) (hk : 1 ≤ rrfK)
    (htrust : ∀ other, 0 ≤ input.trust other) (hid : id ∈ input.ids trustWeight rrfK)
    (hraises : Raises id input raised) :
    (raised.ids trustWeight rrfK).idxOf id ≤ (input.ids trustWeight rrfK).idxOf id ∧
      ∀ other ∈ input.ids trustWeight rrfK,
        (input.ids trustWeight rrfK).idxOf id < (input.ids trustWeight rrfK).idxOf other →
        (raised.ids trustWeight rrfK).idxOf id < (raised.ids trustWeight rrfK).idxOf other := by
  have hperm := ids_raised_perm hraises hid
  obtain ⟨hself, hothers⟩ := scores_raised hraises hweight hweight' hk htrust
  have hkept : ∀ other ∈ input.ids trustWeight rrfK,
      (input.ids trustWeight rrfK).idxOf id < (input.ids trustWeight rrfK).idxOf other →
        (raised.ids trustWeight rrfK).idxOf id < (raised.ids trustWeight rrfK).idxOf other := by
    intro other hother hlt
    have hne : other ≠ id := by
      rintro rfl
      exact lt_irrefl _ hlt
    have hid' := hperm.mem_iff.mpr hid
    have hother' := hperm.mem_iff.mpr hother
    have hbetter : BetterFirst (raised.candidate trustWeight rrfK id)
        (raised.candidate trustWeight rrfK other) := by
      have hscore := hothers other hne
      rcases (idxOf_le_iff hid hother).mp (le_of_lt hlt) with hlt | ⟨heq, hle⟩
      · exact Or.inl (lt_of_le_of_lt hscore (lt_of_lt_of_le hlt hself))
      · rcases lt_or_eq_of_le (hscore.trans (heq ▸ hself)) with hlt | heq'
        · exact Or.inl hlt
        · exact Or.inr ⟨heq'.symm, hle⟩
    refine lt_of_le_of_ne ((idxOf_le_iff hid' hother').mpr hbetter) ?_
    intro heq
    exact hne ((List.idxOf_inj hid').mp heq).symm
  exact ⟨idxOf_le_of_kept (ids_fuse_nodup _ _ _ _ _) hperm hid hkept, hkept⟩

/-- Two versions that the vector branch found, the second nearer. -/
def exampleInput : Input := ⟨[⟨1, 1 / 2⟩, ⟨2, 1 / 4⟩], [], fun _ => 1 / 2⟩

theorem fusion_monotone_example :
    exampleInput.ids (3 / 10) defaultRrfK = [2, 1] ∧
      ({ exampleInput with vectorHits := [⟨1, 1 / 8⟩, ⟨2, 1 / 4⟩] }.ids (3 / 10)
          defaultRrfK).idxOf 1 ≤ (exampleInput.ids (3 / 10) defaultRrfK).idxOf 1 := by
  have hids : exampleInput.ids (3 / 10) defaultRrfK = [2, 1] := by decide +kernel
  refine ⟨hids, ?_⟩
  have hraises : Raises 1 exampleInput
      { exampleInput with vectorHits := [⟨1, 1 / 8⟩, ⟨2, 1 / 4⟩] } := by
    refine Raises.nearer _ ?_ ?_
    · intro hit hne
      have hnot (score : ℚ) : hit ≠ ⟨1, score⟩ := by
        rintro rfl
        exact hne rfl
      show hit ∈ [⟨1, 1 / 8⟩, ⟨2, 1 / 4⟩] ↔ hit ∈ [⟨1, 1 / 2⟩, ⟨2, 1 / 4⟩]
      rw [List.mem_cons, or_iff_right (hnot _)]
      exact (List.mem_cons.trans (or_iff_right (hnot _))).symm
    · intro hit hhit hid
      refine ⟨⟨1, 1 / 8⟩, by simp, rfl, ?_⟩
      rcases List.mem_cons.mp hhit with rfl | hhit
      · norm_num
      · obtain rfl := List.mem_singleton.mp hhit
        norm_num
  refine (fusion_monotone exampleInput _ 1 (3 / 10) defaultRrfK (by norm_num) (by norm_num)
    (by decide) (fun _ => ?_) ?_ hraises).1
  · norm_num [exampleInput]
  · rw [hids]
    decide

end ContextLedger.Fusion
