import ContextLedger.Values

/-!
The key-value store that processes share. Every entry expires; an entry whose
time has come counts as absent, whether or not it was dropped. A counter is kept
as decimal text and keeps the expiry it was created with.
-/
namespace ContextLedger.MemoryStore

open Numerals Values

/-- Bytes are kept as the text they encode; times are seconds of the store's clock. -/
structure Entry where
  value : String
  expires : ℚ
  deriving DecidableEq

structure Store where
  data : List (String × Entry)
  deriving DecidableEq

def empty : Store := ⟨[]⟩

namespace Store

def find (store : Store) (key : String) : Option Entry := store.data.lookup key

def insert (store : Store) (key : String) (entry : Entry) : Store :=
  ⟨(key, entry) :: store.data.filter fun e => e.1 != key⟩

def live (store : Store) (now : ℚ) (key : String) : Option Entry :=
  (store.find key).filter fun e => decide (now < e.expires)

def get (store : Store) (now : ℚ) (key : String) : Option String :=
  (store.live now key).map Entry.value

/-- Whether the value was written, and the store. -/
def set (store : Store) (now : ℚ) (key value : String) (ttlSeconds : ℚ) (onlyIfAbsent : Bool) :
    Bool × Store :=
  if onlyIfAbsent && (store.live now key).isSome then (false, store)
  else (true, store.insert key ⟨value, now + ttlSeconds⟩)

def delete (store : Store) (key : String) : Store :=
  ⟨store.data.filter fun e => e.1 != key⟩

/-- Read and remove in one operation. -/
def getAndDelete (store : Store) (now : ℚ) (key : String) : Option String × Store :=
  (store.get now key, store.delete key)

end Store

/-- `int` of a text, for the texts that `str` writes of natural numbers. -/
def readInt (text : String) : Result ℕ :=
  if text = natText (Nat.ofDigitChars 10 text.toList 0) then
    .ok (Nat.ofDigitChars 10 text.toList 0)
  else .error .valueError

/-- The count after an increment, and the milliseconds until the window resets. -/
structure Counter where
  value : ℕ
  ttlMs : ℕ
  deriving DecidableEq

/-- Add one. The time to live is set when the key is created, never extended. -/
def Store.increment (store : Store) (now : ℚ) (key : String) (ttlSeconds : ℚ) :
    Result (Counter × Store) := do
  let (value, expires) ← (match store.live now key with
    | none => .ok (1, now + ttlSeconds)
    | some entry => (readInt entry.value).map fun n => (n + 1, entry.expires))
  return (⟨value, FloatText.roundHalfEven ((expires - now) * 1000)⟩,
    store.insert key ⟨natText value, expires⟩)

theorem readInt_natText (n : ℕ) : readInt (natText n) = .ok n := by
  have hread : Nat.ofDigitChars 10 (natText n).toList 0 = n := by
    rw [natText, String.toList_ofList]
    exact ofDigitChars_digits n
  rw [readInt, hread, if_pos rfl]

section

variable {store : Store} {now : ℚ} {key : String} {entry : Entry}

@[simp] theorem find_insert_self (store : Store) (key : String) (entry : Entry) :
    (store.insert key entry).find key = some entry := by
  simp [Store.find, Store.insert]

theorem find_delete_of_ne (store : Store) {key other : String} (h : other ≠ key) :
    (store.delete key).find other = store.find other := by
  have hrest : ∀ data : List (String × Entry),
      (data.filter fun e => e.1 != key).lookup other = data.lookup other := by
    intro data
    induction data with
    | nil => rfl
    | cons e data ih =>
      by_cases hkey : e.1 = key
      · rw [List.filter_cons_of_neg (by simp [hkey]), ih, List.lookup_cons, hkey,
          beq_false_of_ne h]
      · rw [List.filter_cons_of_pos (by simp [hkey]), List.lookup_cons, List.lookup_cons, ih]
  exact hrest store.data

theorem find_insert_of_ne (store : Store) {key other : String} (entry : Entry)
    (h : other ≠ key) : (store.insert key entry).find other = store.find other := by
  have hdelete := find_delete_of_ne store h
  unfold Store.find Store.insert
  rw [List.lookup_cons, beq_false_of_ne h]
  exact hdelete

@[simp] theorem find_delete_self (store : Store) (key : String) :
    (store.delete key).find key = none := by
  refine List.lookup_eq_none_iff.mpr ?_
  intro e he
  have hne := (List.mem_filter.mp he).2
  rw [bne_iff_ne] at hne ⊢
  exact hne.symm

theorem live_eq_some : store.live now key = some entry ↔
    store.find key = some entry ∧ now < entry.expires := by
  simp [Store.live, Option.filter_eq_some_iff]

theorem live_insert_self (store : Store) (key : String) (entry : Entry) (h : now < entry.expires) :
    (store.insert key entry).live now key = some entry :=
  live_eq_some.mpr ⟨find_insert_self store key entry, h⟩

theorem live_insert_of_ne (store : Store) {key other : String} (entry : Entry)
    (h : other ≠ key) : (store.insert key entry).live now other = store.live now other := by
  rw [Store.live, find_insert_of_ne store entry h, Store.live]

/-- What is alive later was alive before. -/
theorem live_of_le {later : ℚ} (hle : now ≤ later) (h : store.live later key = some entry) :
    store.live now key = some entry := by
  obtain ⟨hfind, hlt⟩ := live_eq_some.mp h
  exact live_eq_some.mpr ⟨hfind, lt_of_le_of_lt hle hlt⟩

/-- An increment writes the number it returns under its key, alive. -/
theorem increment_eq_ok {ttl : ℚ} (httl : 0 < ttl) {counter : Counter} {store' : Store}
    (h : store.increment now key ttl = .ok (counter, store')) :
    ∃ expires, now < expires ∧ store' = store.insert key ⟨natText counter.value, expires⟩ := by
  unfold Store.increment at h
  obtain ⟨⟨value, expires⟩, hnext, h⟩ := bind_eq_ok.mp h
  obtain ⟨rfl, rfl⟩ := Prod.mk.inj (Except.ok.inj h)
  refine ⟨expires, ?_, rfl⟩
  split at hnext
  · obtain ⟨rfl, rfl⟩ := Prod.mk.inj (Except.ok.inj hnext)
    exact lt_add_of_pos_right now httl
  · rename_i entry hlive
    obtain ⟨n, -, hpair⟩ := map_eq_ok.mp hnext
    obtain ⟨rfl, rfl⟩ := Prod.mk.inj hpair
    exact (live_eq_some.mp hlive).2

end

end ContextLedger.MemoryStore
