import ContextLedger.Contradictions
import ContextLedger.TamperEvidence

/-!
When two JSON values are the same: numbers by numeric value, booleans only as
themselves, arrays item by item and objects key by key. The interpreter's
equality takes a boolean for the number 0 or 1, and it sees a new value before
the database turns its floats into decimals. So it can call two values equal
that are stored as different ones, exactly when they are confused somewhere: a
boolean stands against a number, or a float against a number it is not stored as.
-/
namespace ContextLedger.JsonEquality

open Numerals FloatText JsonText Jsonb Contradictions TamperEvidence

def jsonScalarEq : Json → Json → Bool
  | .bool a, .bool b => a == b
  | .bool _, _ => false
  | _, .bool _ => false
  | a, b => scalarEq a b

mutual

/-- Equality of JSON values. -/
def jsonEq : Json → Json → Bool
  | .arr items, .arr items' => jsonItemsEq items items'
  | .obj fields, .obj fields' => fields.length == fields'.length && jsonFieldsEq fields fields'
  | .arr _, _ => false
  | .obj _, _ => false
  | a, b => jsonScalarEq a b

def jsonItemsEq : List Json → List Json → Bool
  | [], [] => true
  | item :: items, item' :: items' => jsonEq item item' && jsonItemsEq items items'
  | _, _ => false

def jsonFieldsEq : List (String × Json) → List (String × Json) → Bool
  | [], _ => true
  | (key, value) :: fields, others =>
    ((others.lookup key).any fun other => jsonEq value other) && jsonFieldsEq fields others

end

/-- The number a float is stored as. -/
def storedFloat (x : Binary64) : Json := readNumber (numericOut (numericIn (FloatText.repr x)))

/-- A boolean against something else, or a float that is stored as another number. -/
def scalarConfused : Json → Json → Bool
  | .bool _, .bool _ => false
  | .bool _, _ => true
  | _, .bool _ => true
  | _, .float (.finite x) => numericValue (storedFloat x) != numericValue (.float (.finite x))
  | _, _ => false

mutual

/-- Somewhere in the two values the interpreter confuses what the database keeps apart. -/
def confused : Json → Json → Bool
  | .arr items, .arr items' => itemsConfused items items'
  | .obj fields, .obj fields' => fieldsConfused fields fields'
  | .arr _, _ => false
  | .obj _, _ => false
  | a, b => scalarConfused a b

def itemsConfused : List Json → List Json → Bool
  | item :: items, item' :: items' => confused item item' || itemsConfused items items'
  | _, _ => false

def fieldsConfused : List (String × Json) → List (String × Json) → Bool
  | [], _ => false
  | (key, value) :: fields, others =>
    ((others.lookup key).any fun other => confused value other) || fieldsConfused fields others

end

theorem scalarEq_number {a b : Json} {q : ℚ} (ha : numericValue a = some q) :
    scalarEq a b = (numericValue b == some q) := by
  cases a with
  | null => exact absurd ha (by simp [numericValue])
  | str s => exact absurd ha (by simp [numericValue])
  | arr items => exact absurd ha (by simp [numericValue])
  | obj fields => exact absurd ha (by simp [numericValue])
  | bool x => simp [scalarEq, ha, BEq.comm]
  | int i => simp [scalarEq, ha, BEq.comm]
  | float x =>
    cases x with
    | infinite n => exact absurd ha (by simp [numericValue])
    | nan => exact absurd ha (by simp [numericValue])
    | finite x => simp [scalarEq, ha, BEq.comm]

/-- Equal scalars are nulls, one text, one infinity or numbers of one value. -/
theorem scalarEq_cases {v w : Json} (h : scalarEq v w = true) :
    (v = .null ∧ w = .null) ∨ (∃ s, v = .str s ∧ w = .str s) ∨
      (∃ n, v = .float (.infinite n) ∧ w = .float (.infinite n)) ∨
        ∃ q, numericValue v = some q ∧ numericValue w = some q := by
  unfold scalarEq at h
  split at h
  · exact .inl ⟨rfl, rfl⟩
  · rename_i s t
    obtain rfl := beq_iff_eq.mp h
    exact .inr (.inl ⟨s, rfl, rfl⟩)
  · rename_i m n
    obtain rfl := beq_iff_eq.mp h
    exact .inr (.inr (.inl ⟨m, rfl, rfl⟩))
  · rw [Bool.and_eq_true, beq_iff_eq] at h
    obtain ⟨q, hq⟩ := Option.isSome_iff_exists.mp h.1
    exact .inr (.inr (.inr ⟨q, hq, h.2 ▸ hq⟩))

theorem numericValue_cases {v : Json} {q : ℚ} (h : numericValue v = some q) :
    (∃ b, v = .bool b) ∨ (∃ i, v = .int i) ∨ ∃ x, v = .float (.finite x) := by
  unfold numericValue at h
  split at h
  · exact .inl ⟨_, rfl⟩
  · exact .inr (.inl ⟨_, rfl⟩)
  · exact .inr (.inr ⟨_, rfl⟩)
  · exact absurd h (by simp)

theorem storedFloat_cases (x : Binary64) :
    (∃ i, storedFloat x = .int i) ∨ ∃ y, storedFloat x = .float y := by
  unfold storedFloat readNumber
  split
  · exact Or.inl ⟨_, rfl⟩
  · split
    · exact Or.inr ⟨_, rfl⟩
    · exact Or.inr ⟨_, rfl⟩

/-- A number against the float `x`, before and after `x` is stored. -/
theorem jsonScalarEq_storedFloat {v : Json} {x : Binary64} {q : ℚ} (hv : numericValue v = some q)
    (hx : numericValue (.float (.finite x)) = some q) :
    jsonScalarEq v (storedFloat x) = !scalarConfused v (.float (.finite x)) := by
  have hnumber (hjson : jsonScalarEq v (storedFloat x) = scalarEq v (storedFloat x))
      (hconfused : scalarConfused v (.float (.finite x)) =
        (numericValue (storedFloat x) != numericValue (.float (.finite x)))) :
      jsonScalarEq v (storedFloat x) = !scalarConfused v (.float (.finite x)) := by
    rw [hjson, hconfused, scalarEq_number hv, hx]
    simp [bne]
  rcases storedFloat_cases x with ⟨i, hi⟩ | ⟨y, hy⟩
  · rcases numericValue_cases hv with ⟨b, rfl⟩ | ⟨j, rfl⟩ | ⟨z, rfl⟩
    · rw [hi]
      rfl
    · exact hnumber (by rw [hi]; rfl) rfl
    · exact hnumber (by rw [hi]; rfl) rfl
  · rcases numericValue_cases hv with ⟨b, rfl⟩ | ⟨j, rfl⟩ | ⟨z, rfl⟩
    · rw [hy]
      rfl
    · exact hnumber (by rw [hy]; rfl) rfl
    · exact hnumber (by rw [hy]; rfl) rfl

theorem bool_inj_of_numericValue {a b : Bool}
    (h : numericValue (.bool a) = numericValue (.bool b)) : a = b := by
  cases a <;> cases b
  · rfl
  · exact absurd h (by simp [numericValue])
  · exact absurd h (by simp [numericValue])
  · rfl

theorem jsonScalarEq_load {v w : Json} {stored : Value} (hstore : store w = some stored)
    (heq : scalarEq v w = true) : jsonScalarEq v (load stored) = !scalarConfused v w := by
  rcases scalarEq_cases heq with ⟨rfl, rfl⟩ | ⟨s, rfl, rfl⟩ | ⟨n, rfl, rfl⟩ | ⟨q, hv, hw⟩
  · obtain rfl := Option.some.inj hstore
    rfl
  · rw [store] at hstore
    split at hstore
    · exact absurd hstore (by simp)
    · obtain rfl := Option.some.inj hstore
      exact heq
  · exact absurd hstore (by simp [store])
  · rcases numericValue_cases hw with ⟨b, rfl⟩ | ⟨i, rfl⟩ | ⟨x, rfl⟩
    · obtain rfl := Option.some.inj hstore
      rcases numericValue_cases hv with ⟨a, rfl⟩ | ⟨j, rfl⟩ | ⟨z, rfl⟩
      · obtain rfl := bool_inj_of_numericValue (hv.trans hw.symm)
        exact beq_self_eq_true a
      · rfl
      · rfl
    · obtain rfl := Option.some.inj hstore
      rw [load, readNumber_int]
      rcases numericValue_cases hv with ⟨a, rfl⟩ | ⟨j, rfl⟩ | ⟨z, rfl⟩
      · rfl
      · exact heq
      · exact heq
    · obtain rfl := Option.some.inj hstore
      exact jsonScalarEq_storedFloat hv hw

/-- The value stored under a key of an object. -/
theorem lookup_storeFields {fields : List (String × Json)} {stored : List (String × Value)}
    (hstore : storeFields fields = some stored) {key : String} {value : Json}
    (hvalue : fields.lookup key = some value) :
    ∃ s, store value = some s ∧ stored.lookup key = some s := by
  induction fields generalizing stored with
  | nil => exact absurd hvalue (by simp)
  | cons f fields ih =>
    obtain ⟨first, held⟩ := f
    rw [storeFields] at hstore
    split at hstore
    · exact absurd hstore (by simp)
    · obtain ⟨s, hs, hstore⟩ := Option.bind_eq_some_iff.mp hstore
      obtain ⟨rest, hrest, rfl⟩ := Option.map_eq_some_iff.mp hstore
      rw [List.lookup_cons] at hvalue ⊢
      by_cases hkey : key = first
      · rw [beq_iff_eq.mpr hkey] at hvalue ⊢
        obtain rfl := Option.some.inj hvalue
        exact ⟨s, hs, rfl⟩
      · rw [beq_false_of_ne hkey] at hvalue ⊢
        exact ih hrest hvalue

theorem uniqueKeys_of_lookup {fields : List (String × Json)} (h : UniqueFields fields)
    {key : String} {value : Json} (hvalue : fields.lookup key = some value) : UniqueKeys value := by
  induction fields with
  | nil => exact absurd hvalue (by simp)
  | cons f fields ih =>
    obtain ⟨first, held⟩ := f
    rw [List.lookup_cons] at hvalue
    by_cases hkey : key = first
    · rw [beq_iff_eq.mpr hkey] at hvalue
      obtain rfl := Option.some.inj hvalue
      exact h.1
    · rw [beq_false_of_ne hkey] at hvalue
      exact ih h.2 hvalue

/-- Loading finds under a key what was stored under it. -/
theorem lookup_loadFields {stored : List (String × Value)} (hnodup : (stored.map Prod.fst).Nodup)
    (key : String) : (loadFields (stored.insertionSort StoredKeyLe)).lookup key =
      (stored.lookup key).map load := by
  have hperm : (loadFields (stored.insertionSort StoredKeyLe)).Perm (loadFields stored) := by
    rw [loadFields_eq, loadFields_eq]
    exact (List.perm_insertionSort StoredKeyLe stored).map _
  have hkeys : ((loadFields stored).map Prod.fst).Nodup := by
    rw [keys_loadFields]
    exact hnodup
  have hkeys' : ((loadFields (stored.insertionSort StoredKeyLe)).map Prod.fst).Nodup :=
    (hperm.map Prod.fst).nodup_iff.mpr hkeys
  rw [(perm_iff_lookup hkeys' hkeys).mp hperm key, loadFields_eq]
  clear hperm hkeys hkeys' hnodup
  induction stored with
  | nil => rfl
  | cons f stored ih =>
    obtain ⟨first, held⟩ := f
    rw [List.map_cons, List.lookup_cons, List.lookup_cons]
    by_cases hkey : key = first
    · rw [beq_iff_eq.mpr hkey]
      rfl
    · rw [beq_false_of_ne hkey]
      exact ih

theorem jsonEq_leaf {v w : Json} {stored : Value} (hstore : store w = some stored)
    (hvalue : valueEq v w = scalarEq v w) (hjson : ∀ u, jsonEq v u = jsonScalarEq v u)
    (hconfused : confused v w = scalarConfused v w) (heq : valueEq v w = true) :
    jsonEq v (load stored) = !confused v w := by
  rw [hvalue] at heq
  rw [hjson, hconfused, jsonScalarEq_load hstore heq]

mutual

/-- Values that the interpreter calls equal are stored as the same value exactly when they are
nowhere confused. -/
theorem jsonEq_load (v w : Json) (stored : Value) (hstore : store w = some stored)
    (hunique : UniqueKeys w) (heq : valueEq v w = true) :
    jsonEq v (load stored) = !confused v w := by
  cases v with
  | null => exact jsonEq_leaf hstore (by simp [valueEq]) (by simp [jsonEq]) (by simp [confused]) heq
  | bool b =>
    exact jsonEq_leaf hstore (by simp [valueEq]) (by simp [jsonEq]) (by simp [confused]) heq
  | int i =>
    exact jsonEq_leaf hstore (by simp [valueEq]) (by simp [jsonEq]) (by simp [confused]) heq
  | float x =>
    exact jsonEq_leaf hstore (by simp [valueEq]) (by simp [jsonEq]) (by simp [confused]) heq
  | str s =>
    exact jsonEq_leaf hstore (by simp [valueEq]) (by simp [jsonEq]) (by simp [confused]) heq
  | arr items =>
    cases w with
    | arr others =>
      rw [store] at hstore
      obtain ⟨held, hheld, rfl⟩ := Option.map_eq_some_iff.mp hstore
      rw [valueEq] at heq
      rw [load, jsonEq, confused]
      exact jsonItemsEq_load items others held hheld hunique heq
    | _ => exact absurd heq (by simp [valueEq])
  | obj fields =>
    cases w with
    | obj others =>
      rw [store] at hstore
      obtain ⟨held, hheld, rfl⟩ := Option.map_eq_some_iff.mp hstore
      obtain ⟨hnodup, hvalues⟩ := hunique
      rw [valueEq, Bool.and_eq_true, beq_iff_eq] at heq
      have hkeys := keys_storeFields hheld
      have hlength : (loadFields (held.insertionSort StoredKeyLe)).length = others.length := by
        rw [loadFields_eq, List.length_map, List.length_insertionSort, ← List.length_map Prod.fst,
          hkeys, List.length_map]
      rw [load, jsonEq, confused, hlength, heq.1, beq_self_eq_true, Bool.true_and]
      exact jsonFieldsEq_load fields others held hheld (hkeys ▸ hnodup) hvalues heq.2
    | _ => exact absurd heq (by simp [valueEq])

theorem jsonItemsEq_load (items others : List Json) (stored : List Value)
    (hstore : storeItems others = some stored) (hunique : UniqueItems others)
    (heq : itemsEq items others = true) :
    jsonItemsEq items (loadItems stored) = !itemsConfused items others := by
  cases items with
  | nil =>
    cases others with
    | nil =>
      obtain rfl := Option.some.inj hstore
      rfl
    | cons other others => exact absurd heq (by simp [itemsEq])
  | cons item items =>
    cases others with
    | nil => exact absurd heq (by simp [itemsEq])
    | cons other others =>
      rw [storeItems] at hstore
      obtain ⟨s, hs, hstore⟩ := Option.bind_eq_some_iff.mp hstore
      obtain ⟨rest, hrest, rfl⟩ := Option.map_eq_some_iff.mp hstore
      rw [itemsEq, Bool.and_eq_true] at heq
      rw [loadItems, jsonItemsEq, itemsConfused, jsonEq_load item other s hs hunique.1 heq.1,
        jsonItemsEq_load items others rest hrest hunique.2 heq.2, Bool.not_or]

theorem jsonFieldsEq_load (fields others : List (String × Json)) (stored : List (String × Value))
    (hstore : storeFields others = some stored) (hnodup : (stored.map Prod.fst).Nodup)
    (hunique : UniqueFields others) (heq : fieldsEq fields others = true) :
    jsonFieldsEq fields (loadFields (stored.insertionSort StoredKeyLe)) =
      !fieldsConfused fields others := by
  cases fields with
  | nil => rfl
  | cons f fields =>
    obtain ⟨key, value⟩ := f
    rw [fieldsEq, Bool.and_eq_true, Option.any_eq_true] at heq
    obtain ⟨⟨other, hother, hvalue⟩, hrest⟩ := heq
    obtain ⟨s, hs, hheld⟩ := lookup_storeFields hstore hother
    rw [jsonFieldsEq, fieldsConfused, lookup_loadFields hnodup, hheld, hother, Option.map_some,
      Option.any_some, Option.any_some,
      jsonEq_load value other s hs (uniqueKeys_of_lookup hunique hother) hvalue,
      jsonFieldsEq_load fields others stored hstore hnodup hunique hrest, Bool.not_or]

end

end ContextLedger.JsonEquality
