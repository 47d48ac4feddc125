import ContextLedger.JsonbRoundTrip

/-!
JSON values with objects taken as maps. Two values agree when arrays agree item
by item and objects have the same keys with agreeing values, in whatever order
the keys came. For values that hold each key once this is equality after sorting
the keys, so the canonical text of a value determines it as such a tree of maps.
-/
namespace ContextLedger.JsonMaps

open JsonText Jsonb

inductive SameValue : Json → Json → Prop
  | null : SameValue .null .null
  | bool (b : Bool) : SameValue (.bool b) (.bool b)
  | int (i : ℤ) : SameValue (.int i) (.int i)
  | float (x : PyFloat) : SameValue (.float x) (.float x)
  | str (s : String) : SameValue (.str s) (.str s)
  | arr {items others : List Json} (hlength : items.length = others.length)
      (h : ∀ a b, (a, b) ∈ items.zip others → SameValue a b) : SameValue (.arr items) (.arr others)
  | obj {fields others : List (String × Json)}
      (hkeys : ∀ key, key ∈ fields.map Prod.fst ↔ key ∈ others.map Prod.fst)
      (h : ∀ key a b, (key, a) ∈ fields → (key, b) ∈ others → SameValue a b) :
      SameValue (.obj fields) (.obj others)

theorem sortItems_eq (items : List Json) : sortItems items = items.map sortKeys := by
  induction items with
  | nil => rfl
  | cons item items ih => rw [sortItems, ih, List.map_cons]

theorem uniqueKeys_of_mem_items {items : List Json} (h : UniqueItems items) {item : Json}
    (hitem : item ∈ items) : UniqueKeys item := by
  induction items with
  | nil => exact absurd hitem (by simp)
  | cons first items ih =>
    rcases List.mem_cons.mp hitem with rfl | hitem
    · exact h.1
    · exact ih h.2 hitem

theorem uniqueKeys_of_mem_fields {fields : List (String × Json)} (h : UniqueFields fields)
    {key : String} {value : Json} (hfield : (key, value) ∈ fields) : UniqueKeys value := by
  induction fields with
  | nil => exact absurd hfield (by simp)
  | cons first fields ih =>
    rcases List.mem_cons.mp hfield with rfl | hfield
    · exact h.1
    · exact ih h.2 hfield

/-- Objects with the same keys in the same order agree field by field. -/
theorem sortKeys_obj_iff {fields others : List (String × Json)} {keys : List String}
    (hnodup : keys.Nodup) (hfields : fields.map Prod.fst = keys)
    (hothers : others.map Prod.fst = keys) :
    sortKeys (.obj fields) = sortKeys (.obj others) ↔ sortFields fields = sortFields others := by
  rw [sortKeys, sortKeys, Json.obj.injEq]
  constructor
  · intro h
    apply insertionSort_inj _ _ h
    · rw [keys_sortFields, hfields]
      exact hnodup
    · rw [keys_sortFields, keys_sortFields, hfields, hothers]
  · intro h
    rw [h]

/-- Objects that agree once sorted have the same keys. -/
theorem mem_keys_of_sortKeys {fields others : List (String × Json)}
    (h : sortKeys (.obj fields) = sortKeys (.obj others)) (key : String) :
    key ∈ fields.map Prod.fst ↔ key ∈ others.map Prod.fst := by
  rw [sortKeys, sortKeys, Json.obj.injEq] at h
  have hmem : ∀ fs : List (String × Json), key ∈ fs.map Prod.fst ↔
      key ∈ ((sortFields fs).insertionSort KeyLe).map Prod.fst := by
    intro fs
    rw [((List.perm_insertionSort KeyLe (sortFields fs)).map Prod.fst).mem_iff, keys_sortFields]
  rw [hmem fields, hmem others, h]

theorem sortKeys_of_sameValue {v w : Json} (h : SameValue v w) (hv : UniqueKeys v)
    (hw : UniqueKeys w) : sortKeys v = sortKeys w := by
  induction h with
  | null => rfl
  | bool b => rfl
  | int i => rfl
  | float x => rfl
  | str s => rfl
  | @arr items others hlength _ ih =>
    rw [sortKeys, sortKeys, sortItems_eq, sortItems_eq, Json.arr.injEq]
    apply List.ext_getElem
    · rw [List.length_map, List.length_map, hlength]
    · intro i hi hi'
      rw [List.length_map] at hi hi'
      rw [List.getElem_map, List.getElem_map]
      refine ih _ _ ?_ (uniqueKeys_of_mem_items hv (List.getElem_mem hi))
        (uniqueKeys_of_mem_items hw (List.getElem_mem hi'))
      have hzip : i < (items.zip others).length := by
        rw [List.length_zip]
        omega
      rw [← List.getElem_zip (h := hzip)]
      exact List.getElem_mem hzip
  | @obj fields others hkeys _ ih =>
    rw [sortKeys, sortKeys, Json.obj.injEq]
    have hnodup : ∀ {fs : List (String × Json)}, UniqueKeys (.obj fs) →
        ((sortFields fs).map Prod.fst).Nodup := by
      intro fs hfs
      rw [keys_sortFields]
      exact hfs.1
    apply sortedFields_eq_of_perm (hnodup hv)
    rw [List.perm_ext_iff_of_nodup (hnodup hv).of_map (hnodup hw).of_map]
    rintro ⟨key, value⟩
    rw [sortFields_eq, sortFields_eq, List.mem_map, List.mem_map]
    constructor
    · rintro ⟨⟨_, a⟩, ha, hab⟩
      obtain ⟨rfl, rfl⟩ := Prod.mk.inj hab
      obtain ⟨⟨_, b⟩, hb, rfl⟩ := List.mem_map.mp ((hkeys _).mp (List.mem_map_of_mem ha))
      refine ⟨_, hb, ?_⟩
      rw [ih _ a b ha hb (uniqueKeys_of_mem_fields hv.2 ha) (uniqueKeys_of_mem_fields hw.2 hb)]
    · rintro ⟨⟨_, b⟩, hb, hab⟩
      obtain ⟨rfl, rfl⟩ := Prod.mk.inj hab
      obtain ⟨⟨_, a⟩, ha, rfl⟩ := List.mem_map.mp ((hkeys _).mpr (List.mem_map_of_mem hb))
      refine ⟨_, ha, ?_⟩
      rw [ih _ a b ha hb (uniqueKeys_of_mem_fields hv.2 ha) (uniqueKeys_of_mem_fields hw.2 hb)]

mutual

theorem sameValue_of_sortKeys (v w : Json) (hv : UniqueKeys v) (hw : UniqueKeys w)
    (h : sortKeys v = sortKeys w) : SameValue v w := by
  cases v with
  | null =>
    cases w <;> first | exact SameValue.null | exact absurd h (by simp [sortKeys])
  | bool b =>
    cases w <;> simp only [sortKeys, reduceCtorEq, Json.bool.injEq] at h
    exact h ▸ SameValue.bool b
  | int i =>
    cases w <;> simp only [sortKeys, reduceCtorEq, Json.int.injEq] at h
    exact h ▸ SameValue.int i
  | float x =>
    cases w <;> simp only [sortKeys, reduceCtorEq, Json.float.injEq] at h
    exact h ▸ SameValue.float x
  | str s =>
    cases w <;> simp only [sortKeys, reduceCtorEq, Json.str.injEq] at h
    exact h ▸ SameValue.str s
  | arr items =>
    cases w <;> simp only [sortKeys, reduceCtorEq, Json.arr.injEq] at h
    rename_i others
    rw [sortItems_eq, sortItems_eq] at h
    refine SameValue.arr ?_ ?_
    · simpa using congrArg List.length h
    · intro a b hab
      obtain ⟨ha, hb⟩ := List.of_mem_zip hab
      refine sameItems_of_sortKeys items hv a ha b (uniqueKeys_of_mem_items hw hb) ?_
      obtain ⟨i, hi, hget⟩ := List.getElem_of_mem hab
      rw [List.getElem_zip, Prod.mk.injEq] at hget
      obtain ⟨rfl, rfl⟩ := hget
      rw [List.length_zip, Nat.lt_min] at hi
      rw [← List.getElem_map sortKeys (h := by simpa using hi.1),
        ← List.getElem_map sortKeys (h := by simpa using hi.2)]
      simp only [h]
  | obj fields =>
    cases w <;> simp only [sortKeys, reduceCtorEq] at h
    rename_i others
    have hsorted : sortKeys (.obj fields) = sortKeys (.obj others) := by
      rw [sortKeys, sortKeys, h]
    refine SameValue.obj (mem_keys_of_sortKeys hsorted) ?_
    intro key a b ha hb
    exact sameFields_of_sortKeys fields hv.2 (key, a) ha b (uniqueKeys_of_mem_fields hw.2 hb)
      (sortKeys_field hv.1 hsorted key ha hb)
termination_by structural v

theorem sameItems_of_sortKeys (items : List Json) (hitems : UniqueItems items) (v : Json)
    (hmem : v ∈ items) (w : Json) (hw : UniqueKeys w) (h : sortKeys v = sortKeys w) :
    SameValue v w := by
  cases items with
  | nil => exact absurd hmem (by simp)
  | cons item items =>
    rcases List.mem_cons.mp hmem with hv | hmem
    · rw [hv]
      exact sameValue_of_sortKeys item w hitems.1 hw (hv ▸ h)
    · exact sameItems_of_sortKeys items hitems.2 v hmem w hw h
termination_by structural items

theorem sameFields_of_sortKeys (fields : List (String × Json)) (hfields : UniqueFields fields)
    (f : String × Json) (hmem : f ∈ fields) (w : Json) (hw : UniqueKeys w)
    (h : sortKeys f.2 = sortKeys w) : SameValue f.2 w := by
  cases fields with
  | nil => exact absurd hmem (by simp)
  | cons field fields =>
    obtain ⟨key, value⟩ := field
    rcases List.mem_cons.mp hmem with hf | hmem
    · rw [hf]
      exact sameValue_of_sortKeys value w hfields.1 hw (by rw [← h, hf])
    · exact sameFields_of_sortKeys fields hfields.2 f hmem w hw h
termination_by structural fields

end

/-- Values that hold each key once agree exactly when they do so with sorted keys. -/
theorem sortKeys_eq_iff {v w : Json} (hv : UniqueKeys v) (hw : UniqueKeys w) :
    sortKeys v = sortKeys w ↔ SameValue v w :=
  ⟨sameValue_of_sortKeys v w hv hw, fun h => sortKeys_of_sameValue h hv hw⟩

theorem uniqueFields_iff {fields : List (String × Json)} :
    UniqueFields fields ↔ ∀ f ∈ fields, UniqueKeys f.2 := by
  induction fields with
  | nil => simp [UniqueFields]
  | cons f fields ih =>
    obtain ⟨key, value⟩ := f
    rw [UniqueFields, ih, List.forall_mem_cons]

mutual

/-- Sorting the keys leaves each of them there once. -/
theorem uniqueKeys_sortKeys (v : Json) (h : UniqueKeys v) : UniqueKeys (sortKeys v) := by
  cases v with
  | arr items =>
    rw [sortKeys, UniqueKeys]
    exact uniqueItems_sortItems items h
  | obj fields =>
    have hperm := List.perm_insertionSort KeyLe (sortFields fields)
    rw [sortKeys, UniqueKeys]
    refine ⟨?_, uniqueFields_iff.mpr fun f hf => ?_⟩
    · rw [(hperm.map Prod.fst).nodup_iff, keys_sortFields]
      exact h.1
    · exact uniqueFields_iff.mp (uniqueFields_sortFields fields h.2) f (hperm.mem_iff.mp hf)
  | null => trivial
  | bool b => trivial
  | int i => trivial
  | float x => trivial
  | str s => trivial

theorem uniqueItems_sortItems (items : List Json) (h : UniqueItems items) :
    UniqueItems (sortItems items) := by
  cases items with
  | nil => trivial
  | cons item items =>
    exact ⟨uniqueKeys_sortKeys item h.1, uniqueItems_sortItems items h.2⟩

theorem uniqueFields_sortFields (fields : List (String × Json)) (h : UniqueFields fields) :
    UniqueFields (sortFields fields) := by
  cases fields with
  | nil => trivial
  | cons f fields =>
    exact ⟨uniqueKeys_sortKeys f.2 h.1, uniqueFields_sortFields fields h.2⟩

end

end ContextLedger.JsonMaps
