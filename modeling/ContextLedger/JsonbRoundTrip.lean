import ContextLedger.JsonInjective
import ContextLedger.FloatScale
import ContextLedger.Jsonb
import ContextLedger.Rankings

/-!
What a value becomes when it is stored as `jsonb` and loaded again. Strings,
booleans and integers come back as they were, and objects with the same keys in
another order. A float comes back as itself unless it is a negative zero, which
loses its sign, or reaches `10 ^ 16`, where its text is an exponent and the
stored text is a plain integer.
-/
namespace ContextLedger.Jsonb

open Numerals FloatText JsonText JsonInjective

theorem magnitude_numericOut_numericIn (l : Literal) :
    (numericOut (numericIn l)).magnitude = l.magnitude := by
  have hten : (10 : ℚ) ≠ 0 := by norm_num
  simp only [numericOut, numericIn, Literal.magnitude, Option.getD_none]
  generalize l.exponent.getD 0 = e
  have hexp : (10 : ℚ) ^ (e - (l.fraction : ℤ)) =
      10 ^ (e - l.fraction).toNat * 10 ^ (0 - ((l.fraction - e).toNat : ℤ)) := by
    rw [← zpow_natCast, ← zpow_add₀ hten]
    congr 1
    omega
  rw [hexp]
  push_cast
  ring

theorem readNumber_int (i : ℤ) : readNumber (numericOut (numericIn (Literal.ofInt i))) = .int i := by
  simp only [numericIn, Literal.ofInt, numericOut, readNumber]
  by_cases hneg : i < 0
  · have hne : i.natAbs ≠ 0 := by omega
    have habs : -(i.natAbs : ℤ) = i := by omega
    simpa [hneg, hne] using habs
  · have habs : (i.natAbs : ℤ) = i := by omega
    simpa [hneg] using habs

theorem scale_repr_eq_zero_iff (x : Binary64) :
    (numericIn (FloatText.repr x)).scale = 0 ↔ 10 ^ 16 ≤ magnitude x := by
  have hlen : 1 ≤ (digits (shortest x).digits).length :=
    List.length_pos_of_ne_nil (digits_ne_nil _)
  constructor
  · intro hscale
    rw [← pointPosition_gt_iff]
    by_contra hpoint
    simp only [FloatText.repr] at hscale
    split at hscale
    · rename_i hform
      have hleft : pointPosition x ≤ -4 := hform.resolve_right hpoint
      simp only [numericIn, Option.getD_some] at hscale
      omega
    · split at hscale
      · simp [numericIn] at hscale
      · simp only [numericIn, Option.getD_none] at hscale
        omega
  · intro hmag
    have hexp := shortest_exponent_nonneg hmag
    have hpoint := (pointPosition_gt_iff x).mpr hmag
    simp only [FloatText.repr, if_pos (Or.inr hpoint : pointPosition x ≤ -4 ∨ _), numericIn,
      Option.getD_some]
    rw [pointPosition]
    omega

theorem coefficient_repr_ne_zero_iff (x : Binary64) :
    (numericIn (FloatText.repr x)).coefficient ≠ 0 ↔ x.mantissa ≠ 0 := by
  have hmag := magnitude_numericOut_numericIn (FloatText.repr x)
  have hiff : (numericIn (FloatText.repr x)).coefficient = 0 ↔ (shortest x).digits = 0 := by
    rw [magnitude_repr, Literal.magnitude, Decimal.value] at hmag
    constructor
    · intro hzero
      have hl : ((numericOut (numericIn (FloatText.repr x))).significand : ℚ) = 0 := by
        exact_mod_cast hzero
      rw [hl, zero_mul, eq_comm, mul_eq_zero] at hmag
      rcases hmag with hmag | hmag
      · exact_mod_cast hmag
      · exact absurd hmag (by positivity)
    · intro hzero
      rw [hzero, Nat.cast_zero, zero_mul, mul_eq_zero] at hmag
      rcases hmag with hmag | hmag
      · exact_mod_cast hmag
      · exact absurd hmag (by positivity)
  rw [ne_eq, not_congr hiff]
  constructor
  · intro hdigits hzero
    exact hdigits (by simp [shortest, hzero])
  · intro hne
    exact (shortest_digits_pos hne).ne'

/-- A float that the database gives back as that float. -/
def KeepsFloat (x : Binary64) : Prop :=
  magnitude x < 10 ^ 16 ∧ (x.negative = true → x.mantissa ≠ 0)

theorem readNumber_float_iff (x : Binary64) :
    readNumber (numericOut (numericIn (FloatText.repr x))) = .float (.finite x) ↔
      KeepsFloat x := by
  have hnegative : (numericOut (numericIn (FloatText.repr x))).negative =
      (x.negative && decide (x.mantissa ≠ 0)) := by
    show ((FloatText.repr x).negative &&
      decide ((numericIn (FloatText.repr x)).coefficient ≠ 0)) = _
    rw [negative_repr, decide_eq_decide.mpr (coefficient_repr_ne_zero_iff x)]
  unfold readNumber
  by_cases hwhole : (numericOut (numericIn (FloatText.repr x))).fraction = 0
  · have hmag := (scale_repr_eq_zero_iff x).mp hwhole
    rw [if_pos ⟨hwhole, rfl⟩]
    constructor
    · intro h
      exact absurd h (by simp)
    · intro h
      exact absurd hmag (not_le.mpr h.1)
  · have hmag : magnitude x < 10 ^ 16 :=
      not_le.mp fun h => hwhole ((scale_repr_eq_zero_iff x).mpr h)
    rw [if_neg (fun h => hwhole h.1), hnegative, magnitude_numericOut_numericIn, magnitude_repr]
    have hself := nearest_shortest x
    by_cases hlost : x.negative = true ∧ x.mantissa = 0
    · have hvalue : (shortest x).value = 0 := by simp [shortest, hlost.2, Decimal.value]
      rw [hvalue, hlost.2, hlost.1, nearest, if_pos rfl]
      constructor
      · intro h
        have hx : zero false = x := by simpa using h
        rw [← hx] at hlost
        exact absurd hlost.1 (by simp [zero])
      · intro h
        exact absurd hlost.2 (h.2 hlost.1)
    · have hsign : (x.negative && decide (x.mantissa ≠ 0)) = x.negative := by
        cases hneg : x.negative with
        | false => rfl
        | true =>
          have hne : x.mantissa ≠ 0 := fun h => hlost ⟨hneg, h⟩
          simp [hne]
      rw [hsign, hself]
      constructor
      · intro _
        exact ⟨hmag, fun hneg hzero => hlost ⟨hneg, hzero⟩⟩
      · intro _
        rfl

mutual

/-- No float in the value, at any depth, is changed by storing it. -/
def KeepsNumbers : Json → Prop
  | .float (.finite x) => KeepsFloat x
  | .arr items => KeepsItems items
  | .obj fields => KeepsFields fields
  | _ => True

def KeepsItems : List Json → Prop
  | [] => True
  | item :: items => KeepsNumbers item ∧ KeepsItems items

def KeepsFields : List (String × Json) → Prop
  | [] => True
  | (_, value) :: fields => KeepsNumbers value ∧ KeepsFields fields

end

theorem sortFields_eq (fields : List (String × Json)) :
    sortFields fields = fields.map fun f => (f.1, sortKeys f.2) := by
  induction fields with
  | nil => rfl
  | cons f fields ih => simp [sortFields, ih]

theorem loadFields_eq (fields : List (String × Value)) :
    loadFields fields = fields.map fun f => (f.1, load f.2) := by
  induction fields with
  | nil => rfl
  | cons f fields ih => simp [loadFields, ih]

theorem keys_storeFields {fields : List (String × Json)} {stored : List (String × Value)}
    (h : storeFields fields = some stored) : stored.map Prod.fst = fields.map Prod.fst := by
  induction fields generalizing stored with
  | nil =>
    obtain rfl := Option.some.inj h
    rfl
  | cons f fields ih =>
    obtain ⟨key, value⟩ := f
    rw [storeFields] at h
    split at h
    · exact absurd h (by simp)
    · obtain ⟨v, -, h⟩ := Option.bind_eq_some_iff.mp h
      obtain ⟨fs, hfs, rfl⟩ := Option.map_eq_some_iff.mp h
      simp [ih hfs]

instance : Std.Total KeyLe := ⟨fun a b => String.le_total a.1 b.1⟩

instance : IsTrans (String × Json) KeyLe := ⟨fun _ _ _ hab hbc => String.le_trans hab hbc⟩

/-- Sorting forgets the order in which the keys came. -/
theorem sortedFields_eq_of_perm {l m : List (String × Json)} (hnodup : (l.map Prod.fst).Nodup)
    (hperm : l.Perm m) : l.insertionSort KeyLe = m.insertionSort KeyLe := by
  apply Rankings.insertionSort_eq_of_perm _ _ hperm
  intro a ha b hb hab hba
  exact List.inj_on_of_nodup_map hnodup ha hb (String.le_antisymm hab hba)

/-- Lists with the same keys in the same order are equal when they agree sorted. -/
theorem insertionSort_inj {l m : List (String × Json)} (hnodup : (l.map Prod.fst).Nodup)
    (hkeys : l.map Prod.fst = m.map Prod.fst)
    (h : l.insertionSort KeyLe = m.insertionSort KeyLe) : l = m := by
  have hperm : l.Perm m :=
    (List.perm_insertionSort KeyLe l).symm.trans (h ▸ List.perm_insertionSort KeyLe m)
  clear h
  induction l generalizing m with
  | nil => exact (List.nil_perm.mp hperm).symm
  | cons a l ih =>
    cases m with
    | nil => exact absurd hkeys (by simp)
    | cons b m =>
      obtain ⟨hkey, hkeys'⟩ := List.cons.inj hkeys
      have hab : a = b := List.inj_on_of_nodup_map hnodup List.mem_cons_self
        (hperm.mem_iff.mpr List.mem_cons_self) hkey
      subst hab
      rw [ih (List.nodup_cons.mp hnodup).2 hkeys' ((List.perm_cons a).mp hperm)]

theorem keys_sortFields (fields : List (String × Json)) :
    (sortFields fields).map Prod.fst = fields.map Prod.fst := by
  rw [sortFields_eq, List.map_map]
  rfl

theorem keys_loadFields (fields : List (String × Value)) :
    (loadFields fields).map Prod.fst = fields.map Prod.fst := by
  rw [loadFields_eq, List.map_map]
  rfl

/-- Objects that agree up to the order of keys agree on each field. -/
theorem sortKeys_field {fields others : List (String × Json)} (hnodup : (fields.map Prod.fst).Nodup)
    (h : sortKeys (.obj fields) = sortKeys (.obj others)) (key : String) {a b : Json}
    (ha : (key, a) ∈ fields) (hb : (key, b) ∈ others) : sortKeys a = sortKeys b := by
  rw [sortKeys, sortKeys, Json.obj.injEq] at h
  have hmem : ∀ {fs : List (String × Json)} {c : Json}, (key, c) ∈ fs →
      (key, sortKeys c) ∈ sortFields fs := by
    intro fs c hc
    rw [sortFields_eq]
    exact List.mem_map.mpr ⟨(key, c), hc, rfl⟩
  have hother : (key, sortKeys b) ∈ sortFields fields := by
    rw [← List.mem_insertionSort KeyLe, h, List.mem_insertionSort]
    exact hmem hb
  rw [← keys_sortFields] at hnodup
  exact (Prod.mk.inj (List.inj_on_of_nodup_map hnodup (hmem ha) hother rfl)).2

/-- An object's stored key order does not matter once its keys are sorted. -/
theorem sortKeys_load_obj {fields : List (String × Value)} (hnodup : (fields.map Prod.fst).Nodup) :
    sortKeys (load (.obj (fields.insertionSort StoredKeyLe))) =
      .obj ((sortFields (loadFields fields)).insertionSort KeyLe) := by
  rw [load, sortKeys]
  congr 1
  apply sortedFields_eq_of_perm
  · rw [keys_sortFields, keys_loadFields]
    exact (((List.perm_insertionSort StoredKeyLe fields).map Prod.fst).nodup_iff).mpr hnodup
  · rw [sortFields_eq, sortFields_eq, loadFields_eq, loadFields_eq]
    exact ((List.perm_insertionSort StoredKeyLe fields).map _).map _

mutual

/-- Up to the order of keys a value comes back as it was exactly when no float in
it is a negative zero or reaches `10 ^ 16`. -/
theorem sortKeys_load_iff (v : Json) (stored : Value) (hstore : store v = some stored)
    (hunique : UniqueKeys v) : sortKeys (load stored) = sortKeys v ↔ KeepsNumbers v := by
  cases v with
  | null =>
    obtain rfl := Option.some.inj hstore
    simp [load, KeepsNumbers]
  | bool b =>
    obtain rfl := Option.some.inj hstore
    simp [load, KeepsNumbers]
  | int i =>
    obtain rfl := Option.some.inj hstore
    simp [load, readNumber_int, KeepsNumbers]
  | str s =>
    rw [store] at hstore
    split at hstore
    · exact absurd hstore (by simp)
    · obtain rfl := Option.some.inj hstore
      simp [load, KeepsNumbers]
  | float x =>
    cases x with
    | infinite b => exact absurd hstore (by simp [store])
    | nan => exact absurd hstore (by simp [store])
    | finite x =>
      obtain rfl := Option.some.inj hstore
      rw [load, KeepsNumbers, ← readNumber_float_iff x]
      have hleaf : ∀ l : Literal, sortKeys (readNumber l) = readNumber l := by
        intro l
        unfold readNumber
        split
        · rfl
        · split <;> rfl
      rw [hleaf, sortKeys]
  | arr items =>
    rw [store] at hstore
    obtain ⟨stored, hitems, rfl⟩ := Option.map_eq_some_iff.mp hstore
    rw [load, sortKeys, sortKeys, Json.arr.injEq, KeepsNumbers]
    exact sortItems_load_iff items stored hitems hunique
  | obj fields =>
    rw [store] at hstore
    obtain ⟨stored, hfields, rfl⟩ := Option.map_eq_some_iff.mp hstore
    obtain ⟨hnodup, hvalues⟩ := hunique
    have hkeys := keys_storeFields hfields
    rw [sortKeys_load_obj (hkeys ▸ hnodup), sortKeys, Json.obj.injEq, KeepsNumbers,
      ← sortFields_load_iff fields stored hfields hvalues]
    constructor
    · intro h
      apply insertionSort_inj _ _ h
      · rw [keys_sortFields, keys_loadFields, hkeys]
        exact hnodup
      · rw [keys_sortFields, keys_loadFields, keys_sortFields, hkeys]
    · intro h
      rw [h]

theorem sortItems_load_iff (items : List Json) (stored : List Value)
    (hstore : storeItems items = some stored) (hunique : UniqueItems items) :
    sortItems (loadItems stored) = sortItems items ↔ KeepsItems items := by
  cases items with
  | nil =>
    obtain rfl := Option.some.inj hstore
    simp [loadItems, KeepsItems]
  | cons item items =>
    rw [storeItems] at hstore
    obtain ⟨i, hi, hstore⟩ := Option.bind_eq_some_iff.mp hstore
    obtain ⟨is, his, rfl⟩ := Option.map_eq_some_iff.mp hstore
    rw [loadItems, sortItems, sortItems, List.cons.injEq, KeepsItems,
      sortKeys_load_iff item i hi hunique.1, sortItems_load_iff items is his hunique.2]

theorem sortFields_load_iff (fields : List (String × Json)) (stored : List (String × Value))
    (hstore : storeFields fields = some stored) (hunique : UniqueFields fields) :
    sortFields (loadFields stored) = sortFields fields ↔ KeepsFields fields := by
  cases fields with
  | nil =>
    obtain rfl := Option.some.inj hstore
    simp [loadFields, KeepsFields]
  | cons f fields =>
    obtain ⟨key, value⟩ := f
    rw [storeFields] at hstore
    split at hstore
    · exact absurd hstore (by simp)
    · obtain ⟨v, hv, hstore⟩ := Option.bind_eq_some_iff.mp hstore
      obtain ⟨fs, hfs, rfl⟩ := Option.map_eq_some_iff.mp hstore
      rw [loadFields, sortFields, sortFields, List.cons.injEq, Prod.mk.injEq, KeepsFields,
        sortKeys_load_iff value v hv hunique.1, sortFields_load_iff fields fs hfs hunique.2]
      simp

end

end ContextLedger.Jsonb
