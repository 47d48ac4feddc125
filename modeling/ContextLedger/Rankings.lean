import Mathlib.Data.List.Perm.Basic
import Mathlib.Data.List.Sort

/-!
Rankings of named entries. Each name keeps its best entry, best first, and its
place is the number of kept entries that come no later. Which entries are kept
depends only on the set of entries, up to entries no better than one with the
same name. When the entries of one name get better and the others stay, the
place of that name gets no worse and the places of the others no better.
-/
namespace ContextLedger.Rankings

open scoped List

section Sorting

variable {α : Type*} (r : α → α → Prop) [DecidableRel r] [Std.Total r] [IsTrans α r]
variable {l m : List α} (hanti : ∀ a ∈ l, ∀ b ∈ l, r a b → r b a → a = b)

include hanti

/-- Sorting by an order that tells the elements apart forgets the order in which they came. -/
theorem insertionSort_eq_of_perm (h : l ~ m) : l.insertionSort r = m.insertionSort r := by
  have hsorted := (List.perm_insertionSort r l).trans
    (h.trans (List.perm_insertionSort r m).symm)
  apply hsorted.eq_of_pairwise
  · intro a b ha hb
    exact hanti a ((List.mem_insertionSort _).mp ha) b
      (h.mem_iff.mpr ((List.mem_insertionSort _).mp hb))
  · exact List.pairwise_insertionSort _ _
  · exact List.pairwise_insertionSort _ _

theorem insertionSort_eq_iff : l.insertionSort r = m.insertionSort r ↔ l ~ m := by
  constructor
  · intro h
    have hl := List.perm_insertionSort r l
    rw [h] at hl
    exact hl.symm.trans (List.perm_insertionSort r m)
  · exact insertionSort_eq_of_perm r hanti

end Sorting

/-- Sorting a list without repeats gives a strict order. -/
theorem pairwise_insertionSort_of_nodup {α : Type*} (r : α → α → Prop) [DecidableRel r]
    [Std.Total r] [IsTrans α r] {l : List α} (h : l.Nodup) :
    (l.insertionSort r).Pairwise fun a b => r a b ∧ a ≠ b :=
  (List.pairwise_insertionSort r l).and ((List.perm_insertionSort r l).nodup_iff.mpr h)

/-- An element is among the first `n` of a sorted list, or these are `n` that come before it. -/
theorem mem_take_insertionSort {α : Type*} (r : α → α → Prop) [DecidableRel r] [Std.Total r]
    [IsTrans α r] {l : List α} (n : ℕ) {a : α} (ha : a ∈ l) :
    a ∈ (l.insertionSort r).take n ∨ ((l.insertionSort r).take n).length = n ∧
      ∀ b ∈ (l.insertionSort r).take n, r b a := by
  have hmem : a ∈ l.insertionSort r := (List.mem_insertionSort r).mpr ha
  have hsorted := List.pairwise_insertionSort r l
  rw [← List.take_append_drop n (l.insertionSort r)] at hmem hsorted
  rcases List.mem_append.mp hmem with htake | hdrop
  · exact Or.inl htake
  · have hlong : n < (l.insertionSort r).length := by
      by_contra hshort
      rw [List.drop_of_length_le (Nat.le_of_not_lt hshort)] at hdrop
      exact absurd hdrop List.not_mem_nil
    refine Or.inr ⟨?_, fun b hb => (List.pairwise_append.mp hsorted).2.2 b hb a hdrop⟩
    rw [List.length_take]
    exact Nat.min_eq_left hlong.le

/-- Lists in the same strict order with the same elements are the same. -/
theorem eq_of_mem_iff {α : Type*} {r : α → α → Prop} (hasymm : ∀ a b, r a b → ¬r b a)
    {l m : List α} (hl : l.Pairwise r) (hm : m.Pairwise r) (h : ∀ a, a ∈ l ↔ a ∈ m) : l = m := by
  have hne : ∀ a b, r a b → a ≠ b := by
    rintro a b hab rfl
    exact hasymm a a hab hab
  have hperm : l ~ m := (List.perm_ext_iff_of_nodup (hl.imp (hne _ _)) (hm.imp (hne _ _))).mpr h
  exact hperm.eq_of_pairwise (fun a b _ _ hab hba => absurd hba (hasymm a b hab)) hl hm

section Comparing

variable {α : Type*} (lt : α → α → Option Bool)

/-- Insertion by comparisons of which one may fail. -/
def insertBy (a : α) : List α → Option (List α)
  | [] => some [a]
  | b :: l => (lt b a).bind fun after =>
    if after then (insertBy a l).map (b :: ·) else some (a :: b :: l)

def sortBy : List α → Option (List α)
  | [] => some []
  | a :: l => (sortBy l).bind (insertBy lt a)

variable {lt} {r : α → α → Prop} [DecidableRel r]

theorem insertBy_eq {a : α} {l : List α} (h : ∀ b ∈ l, lt b a = some (!decide (r a b))) :
    insertBy lt a l = some (l.orderedInsert r a) := by
  induction l with
  | nil => rfl
  | cons b l ih =>
    rw [insertBy, h b List.mem_cons_self, Option.bind_some, List.orderedInsert_cons,
      ih fun c hc => h c (List.mem_cons_of_mem b hc)]
    by_cases hab : r a b <;> simp [hab]

/-- Comparisons that never fail sort by the order that they decide. -/
theorem sortBy_eq {l : List α} (h : ∀ a ∈ l, ∀ b ∈ l, lt b a = some (!decide (r a b))) :
    sortBy lt l = some (l.insertionSort r) := by
  induction l with
  | nil => rfl
  | cons a l ih =>
    have hrest : sortBy lt l = some (l.insertionSort r) :=
      ih fun b hb c hc => h b (List.mem_cons_of_mem a hb) c (List.mem_cons_of_mem a hc)
    rw [sortBy, hrest, Option.bind_some, List.insertionSort_cons]
    refine insertBy_eq fun b hb => ?_
    exact h a List.mem_cons_self b (List.mem_cons_of_mem a ((List.mem_insertionSort r).mp hb))

end Comparing

section Names

variable {ι : Type*} [DecidableEq ι]

/-- In a list without repeats the index of an element counts the elements before it. -/
theorem countP_before {names : List ι} (hnodup : names.Nodup) {x : ι} (hx : x ∈ names) :
    names.countP (fun y => decide (names.idxOf y < names.idxOf x)) = names.idxOf x := by
  induction names with
  | nil => exact absurd hx List.not_mem_nil
  | cons z names ih =>
    obtain ⟨hz, hnodup⟩ := List.nodup_cons.mp hnodup
    by_cases hxz : z = x
    · subst hxz
      simp
    · have hmem : x ∈ names := (List.mem_cons.mp hx).resolve_left (Ne.symm hxz)
      have hrest : names.countP (fun y => decide ((z :: names).idxOf y < (z :: names).idxOf x)) =
          names.countP fun y => decide (names.idxOf y < names.idxOf x) := by
        apply List.countP_congr
        intro y hy
        have hyz : z ≠ y := fun h => hz (h ▸ hy)
        simp [List.idxOf_cons_ne names hyz, List.idxOf_cons_ne names hxz]
      rw [List.countP_cons, hrest, ih hnodup hmem, List.idxOf_cons_ne names hxz]
      simp

/-- A name that no other passes does not move back. -/
theorem idxOf_le_of_kept {names others : List ι} (hnodup : names.Nodup) (hperm : others ~ names)
    {x : ι} (hx : x ∈ names)
    (hkept : ∀ y ∈ names, names.idxOf x < names.idxOf y → others.idxOf x < others.idxOf y) :
    others.idxOf x ≤ names.idxOf x := by
  have hnodup' : others.Nodup := hperm.nodup_iff.mpr hnodup
  have hx' : x ∈ others := hperm.mem_iff.mpr hx
  rw [← countP_before hnodup hx, ← countP_before hnodup' hx', hperm.countP_eq]
  apply List.countP_mono_left
  intro y hy hbefore
  rw [decide_eq_true_iff] at hbefore ⊢
  by_contra hafter
  have hne : names.idxOf x ≠ names.idxOf y := by
    intro heq
    rw [(List.idxOf_inj hx).mp heq] at hbefore
    exact lt_irrefl _ hbefore
  exact lt_asymm hbefore (hkept y hy (lt_of_le_of_ne (not_lt.mp hafter) hne))

end Names

section Entries

variable {α ι : Type*} (name : α → ι) (r : α → α → Prop)

/-- The best entry of each name, best first. -/
structure Best (entries best : List α) : Prop where
  sorted : best.Pairwise r
  names : (best.map name).Nodup
  subset : ∀ a ∈ best, a ∈ entries
  covers : ∀ a ∈ entries, ∃ b ∈ best, name b = name a ∧ r b a

variable {name r}

theorem Best.congr {entries others best : List α} (h : Best name r entries best)
    (hmem : ∀ a, a ∈ others ↔ a ∈ entries) : Best name r others best :=
  ⟨h.sorted, h.names, fun a ha => (hmem a).mpr (h.subset a ha),
    fun a ha => h.covers a ((hmem a).mp ha)⟩

/-- An entry no better than one with the same name changes nothing. -/
theorem Best.cons [IsTrans α r] {entries best : List α} (h : Best name r entries best) {a b : α}
    (hb : b ∈ entries) (hname : name b = name a) (hba : r b a) :
    Best name r (a :: entries) best := by
  refine ⟨h.sorted, h.names, fun c hc => List.mem_cons_of_mem a (h.subset c hc), ?_⟩
  intro c hc
  rcases List.mem_cons.mp hc with rfl | hc
  · obtain ⟨d, hd, hdname, hdb⟩ := h.covers b hb
    exact ⟨d, hd, hdname.trans hname, Trans.trans hdb hba⟩
  · exact h.covers c hc

theorem Best.eq_of_name {entries best : List α} (h : Best name r entries best) {a b : α}
    (ha : a ∈ best) (hb : b ∈ best) (hname : name a = name b) : a = b :=
  List.inj_on_of_nodup_map h.names ha hb hname

/-- The entry kept for a name is no worse than any entry of it. -/
theorem Best.le {entries best : List α} (h : Best name r entries best) {a b : α} (ha : a ∈ best)
    (hb : b ∈ entries) (hname : name a = name b) : r a b := by
  obtain ⟨c, hc, hcname, hcb⟩ := h.covers b hb
  rw [h.eq_of_name ha hc (hname.trans hcname.symm)]
  exact hcb

/-- Indices in a sorted list are in the order of the entries. -/
theorem le_iff_of_getElem? (hrefl : ∀ a, r a a) {best : List α}
    (hanti : ∀ a ∈ best, ∀ b ∈ best, r a b → r b a → a = b) (hsorted : best.Pairwise r)
    (hnodup : best.Nodup) {i j : ℕ} {a b : α} (ha : best[i]? = some a) (hb : best[j]? = some b) :
    i ≤ j ↔ r a b := by
  obtain ⟨hi, rfl⟩ := List.getElem?_eq_some_iff.mp ha
  obtain ⟨hj, rfl⟩ := List.getElem?_eq_some_iff.mp hb
  constructor
  · intro hle
    rcases Nat.lt_or_eq_of_le hle with hlt | rfl
    · exact List.pairwise_iff_getElem.mp hsorted i j hi hj hlt
    · exact hrefl _
  · intro hab
    by_contra hlt
    have hba := List.pairwise_iff_getElem.mp hsorted j i hj hi (not_le.mp hlt)
    have hsame := (List.Nodup.getElem_inj_iff hnodup).mp (hanti _ (List.getElem_mem hi) _
      (List.getElem_mem hj) hab hba)
    exact hlt (Nat.le_of_eq hsame)

section Order

variable (hanti : ∀ a b, r a b → r b a → a = b)

include hanti

theorem Best.unique {entries best other : List α} (h : Best name r entries best)
    (h' : Best name r entries other) : best = other := by
  have hmem {first second : List α} (hf : Best name r entries first)
      (hs : Best name r entries second) {a : α} (ha : a ∈ first) : a ∈ second := by
    obtain ⟨b, hb, hname, hba⟩ := hs.covers a (hf.subset a ha)
    have hab := hf.le ha (hs.subset b hb) hname.symm
    rw [hanti a b hab hba]
    exact hb
  have hperm : best ~ other := (List.perm_ext_iff_of_nodup h.names.of_map h'.names.of_map).mpr
    fun a => ⟨hmem h h', hmem h' h⟩
  exact hperm.eq_of_pairwise (fun a b _ _ => hanti a b) h.sorted h'.sorted

variable [DecidableRel r] (hrefl : ∀ a, r a a)

include hrefl

/-- The entries that come no later than one at an index. -/
theorem countP_of_getElem? {best : List α} (hsorted : best.Pairwise r) (hnodup : best.Nodup)
    {i : ℕ} {a : α} (h : best[i]? = some a) : best.countP (fun b => decide (r b a)) = i + 1 := by
  induction best generalizing i with
  | nil => exact absurd h (by simp)
  | cons b best ih =>
    obtain ⟨hfirst, hsorted⟩ := List.pairwise_cons.mp hsorted
    obtain ⟨hb, hnodup⟩ := List.nodup_cons.mp hnodup
    rw [List.countP_cons]
    cases i with
    | zero =>
      obtain rfl : b = a := by simpa using h
      have hnone : best.countP (fun c => decide (r c b)) = 0 := by
        rw [List.countP_eq_zero]
        intro c hc hcb
        rw [hanti c b (of_decide_eq_true hcb) (hfirst c hc)] at hc
        exact hb hc
      rw [hnone, decide_eq_true (hrefl b)]
      rfl
    | succ i =>
      have ha : best[i]? = some a := by simpa using h
      rw [ih hsorted hnodup ha, decide_eq_true (hfirst a (List.mem_of_getElem? ha))]
      rfl

end Order

variable [DecidableEq ι]

variable (name) in
/-- The first entry of each name. -/
def keepFirst : List α → List α
  | [] => []
  | a :: entries => a :: (keepFirst entries).filter fun b => name b != name a

theorem mem_of_mem_keepFirst {entries : List α} {a : α} (h : a ∈ keepFirst name entries) :
    a ∈ entries := by
  induction entries with
  | nil => exact h
  | cons b entries ih =>
    rcases List.mem_cons.mp h with rfl | h
    · exact List.mem_cons_self
    · exact List.mem_cons_of_mem b (ih (List.mem_of_mem_filter h))

theorem best_keepFirst (hrefl : ∀ a, r a a) {entries : List α} (hsorted : entries.Pairwise r) :
    Best name r entries (keepFirst name entries) := by
  induction entries with
  | nil => exact ⟨List.Pairwise.nil, List.nodup_nil, fun _ h => h, fun _ h => absurd h (by simp)⟩
  | cons a entries ih =>
    obtain ⟨hfirst, hsorted⟩ := List.pairwise_cons.mp hsorted
    obtain ⟨hbest, hnames, hsubset, hcovers⟩ := ih hsorted
    refine ⟨?_, ?_, fun b => mem_of_mem_keepFirst, ?_⟩
    · refine List.pairwise_cons.mpr ⟨fun b hb => ?_, hbest.sublist List.filter_sublist⟩
      exact hfirst b (hsubset b (List.mem_of_mem_filter hb))
    · refine List.nodup_cons.mpr ⟨?_, hnames.sublist (List.filter_sublist.map name)⟩
      rw [List.mem_map]
      rintro ⟨b, hb, hname⟩
      have hne := (List.mem_filter.mp hb).2
      exact absurd hname (by simpa using hne)
    · intro b hb
      by_cases hname : name b = name a
      · refine ⟨a, List.mem_cons_self, hname.symm, ?_⟩
        rcases List.mem_cons.mp hb with rfl | hb
        · exact hrefl b
        · exact hfirst b hb
      · have hmem : b ∈ entries := by
          rcases List.mem_cons.mp hb with rfl | hb
          · exact absurd rfl hname
          · exact hb
        obtain ⟨c, hc, hcname, hcb⟩ := hcovers b hmem
        refine ⟨c, List.mem_cons_of_mem a (List.mem_filter.mpr ⟨hc, ?_⟩), hcname, hcb⟩
        simpa [hcname] using hname

variable (name r) in
/-- The entries of one name get better, and those of the others stay. -/
structure Improved (x : ι) (entries others : List α) : Prop where
  same : ∀ a, name a ≠ x → (a ∈ others ↔ a ∈ entries)
  better : ∀ a ∈ entries, name a = x → ∃ b ∈ others, name b = x ∧ r b a

theorem Best.length_filter_le_one {entries best : List α} (h : Best name r entries best) (x : ι) :
    (best.filter fun a => decide (name a = x)).length ≤ 1 := by
  have hcount := List.nodup_iff_count_le_one.mp h.names x
  rw [List.count_eq_countP, List.countP_map, List.countP_eq_length_filter] at hcount
  exact hcount

section Improved

variable [IsTrans α r] (hanti : ∀ a b, r a b → r b a → a = b) {x : ι}
  {entries others best best' : List α} (himproved : Improved name r x entries others)
  (h : Best name r entries best) (h' : Best name r others best')

include himproved h h'

omit [DecidableEq ι] in
/-- The kept entry of the improved name is better than before. -/
theorem Improved.self_le {a a' : α} (ha : a ∈ best) (hname : name a = x) (ha' : a' ∈ best')
    (hname' : name a' = x) : r a' a := by
  obtain ⟨b, hb, hbname, hba⟩ := himproved.better a (h.subset a ha) hname
  exact Trans.trans (h'.le ha' hb (hname'.trans hbname.symm)) hba

omit [DecidableEq ι] [IsTrans α r] in
theorem Improved.found {a : α} (ha : a ∈ best) (hname : name a = x) :
    ∃ a' ∈ best', name a' = x := by
  obtain ⟨b, hb, hbname, -⟩ := himproved.better a (h.subset a ha) hname
  obtain ⟨a', ha', hname', -⟩ := h'.covers b hb
  exact ⟨a', ha', hname'.trans hbname⟩

include hanti

omit [DecidableEq ι] [IsTrans α r] in
/-- The other names keep their entries. -/
theorem Improved.mem_iff {a : α} (hne : name a ≠ x) : a ∈ best' ↔ a ∈ best := by
  constructor
  · intro ha
    have hentry := (himproved.same a hne).mp (h'.subset a ha)
    obtain ⟨b, hb, hname, hba⟩ := h.covers a hentry
    have hother := (himproved.same b (hname ▸ hne)).mpr (h.subset b hb)
    rw [hanti a b (h'.le ha hother hname.symm) hba]
    exact hb
  · intro ha
    have hother := (himproved.same a hne).mpr (h.subset a ha)
    obtain ⟨b, hb, hname, hba⟩ := h'.covers a hother
    have hentry := (himproved.same b (hname ▸ hne)).mp (h'.subset b hb)
    rw [hanti a b (h.le ha hentry hname.symm) hba]
    exact hb

omit [IsTrans α r] in
theorem Improved.filter_perm :
    (best'.filter fun a => !decide (name a = x)) ~ best.filter fun a => !decide (name a = x) := by
  refine (List.perm_ext_iff_of_nodup (h'.names.of_map.filter _) (h.names.of_map.filter _)).mpr ?_
  intro a
  rw [List.mem_filter, List.mem_filter]
  refine and_congr_left fun hne => ?_
  exact himproved.mem_iff hanti h h' (by simpa using hne)

variable [DecidableRel r]

/-- The place of another name gets no better. -/
theorem Improved.place_le (a : α) :
    best.countP (fun b => decide (r b a)) ≤ best'.countP fun b => decide (r b a) := by
  rw [best.countP_eq_countP_filter_add _ fun b => decide (name b = x),
    best'.countP_eq_countP_filter_add _ fun b => decide (name b = x),
    (himproved.filter_perm hanti h h').countP_eq]
  apply Nat.add_le_add_right
  by_cases hnone : (best.filter fun b => decide (name b = x)).countP (fun b => decide (r b a)) = 0
  · omega
  · obtain ⟨c, hc, hca⟩ := List.countP_pos_iff.mp (Nat.pos_of_ne_zero hnone)
    obtain ⟨hcmem, hcname⟩ := List.mem_filter.mp hc
    obtain ⟨c', hc', hname'⟩ := himproved.found h h' hcmem (of_decide_eq_true hcname)
    have hle := himproved.self_le h h' hcmem (of_decide_eq_true hcname) hc' hname'
    have hpos : 0 < (best'.filter fun b => decide (name b = x)).countP
        (fun b => decide (r b a)) := by
      refine List.countP_pos_iff.mpr ⟨c', List.mem_filter.mpr ⟨hc', decide_eq_true hname'⟩, ?_⟩
      exact decide_eq_true (Trans.trans hle (of_decide_eq_true hca))
    exact (List.countP_le_length.trans (h.length_filter_le_one x)).trans hpos

/-- The place of the improved name gets no worse. -/
theorem Improved.place_self_le (hrefl : ∀ a, r a a) {a a' : α} (ha : a ∈ best)
    (hname : name a = x) (ha' : a' ∈ best') (hname' : name a' = x) :
    best'.countP (fun b => decide (r b a')) ≤ best.countP fun b => decide (r b a) := by
  have hle := himproved.self_le h h' ha hname ha' hname'
  rw [best.countP_eq_countP_filter_add _ fun b => decide (name b = x),
    best'.countP_eq_countP_filter_add _ fun b => decide (name b = x),
    (himproved.filter_perm hanti h h').countP_eq]
  apply Nat.add_le_add
  · have hpos : 0 < (best.filter fun b => decide (name b = x)).countP (fun b => decide (r b a)) :=
      List.countP_pos_iff.mpr ⟨a, List.mem_filter.mpr ⟨ha, decide_eq_true hname⟩,
        decide_eq_true (hrefl a)⟩
    exact (List.countP_le_length.trans (h'.length_filter_le_one x)).trans hpos
  · apply List.countP_mono_left
    intro c _ hc
    exact decide_eq_true (Trans.trans (of_decide_eq_true hc) hle)

end Improved

end Entries

end ContextLedger.Rankings
