import ContextLedger.Grounding
import ContextLedger.TextLines

/-!
The lines of the facts in a prompt. Every part of a line but the value is free of
line breaks: identifiers are ASCII, external identifiers are printable, names are
written as ASCII, and so are the times and numbers. The JSON text of a value has
no control characters of ASCII, but keeps the three line breaks beyond them.
-/
namespace ContextLedger.PromptLines

open Numerals JsonText Values Validation Reference Retrieval Grounding TextLines

/-- The characters that JSON text is written with. -/
def Written (style : Style) (c : Char) : Prop :=
  0x20 ≤ c.toNat ∧ (style.ensureAscii = true → c.toNat < 0x7f)

section

variable {style : Style} {c : Char}

theorem Written.of_bounds (hlow : 0x20 ≤ c.toNat) (hhigh : c.toNat < 0x7f) : Written style c :=
  ⟨hlow, fun _ => hhigh⟩

theorem written_of_isDigit (h : c.isDigit = true) : Written style c := by
  have hbounds : 48 ≤ c.val.toNat ∧ c.val.toNat ≤ 57 := by
    simpa [Char.isDigit, UInt32.le_iff_toNat_le] using h
  have hlow : 48 ≤ c.toNat := hbounds.1
  have hhigh : c.toNat ≤ 57 := hbounds.2
  exact .of_bounds (by omega) (by omega)

/-- Numbers are written in ASCII. -/
theorem written_of_isNumberChar (h : Literal.isNumberChar c = true) : Written style c := by
  simp only [Literal.isNumberChar, Bool.or_eq_true, beq_iff_eq] at h
  rcases h with (((hdigit | rfl) | rfl) | rfl) | rfl
  · exact written_of_isDigit hdigit
  · exact .of_bounds (by decide) (by decide)
  · exact .of_bounds (by decide) (by decide)
  · exact .of_bounds (by decide) (by decide)
  · exact .of_bounds (by decide) (by decide)

theorem written_of_mem_hexDigits {width n : ℕ} (h : c ∈ hexDigits width n) : Written style c := by
  induction width generalizing n with
  | zero => exact absurd h List.not_mem_nil
  | succ width ih =>
    rw [hexDigits] at h
    rcases List.mem_append.mp h with hfirst | hlast
    · exact ih hfirst
    · have hdigits : ∀ d < 16, 0x20 ≤ (Nat.digitChar d).toNat ∧ (Nat.digitChar d).toNat < 0x7f := by
        decide
      rw [List.mem_singleton.mp hlast]
      exact .of_bounds (hdigits _ (by omega)).1 (hdigits _ (by omega)).2

/-- So are escapes, which are letters and digits behind a backslash. -/
theorem written_of_mem_unicodeEscape {n : ℕ} (h : c ∈ unicodeEscape n) : Written style c := by
  rcases List.mem_cons.mp h with rfl | h
  · exact .of_bounds (by decide) (by decide)
  · rcases List.mem_cons.mp h with rfl | h
    · exact .of_bounds (by decide) (by decide)
    · exact written_of_mem_hexDigits h

theorem written_of_mem_asciiEscape {n : ℕ} (h : c ∈ asciiEscape n) : Written style c := by
  rw [asciiEscape] at h
  split_ifs at h
  · exact written_of_mem_unicodeEscape h
  · rcases List.mem_append.mp h with h | h
    · exact written_of_mem_unicodeEscape h
    · exact written_of_mem_unicodeEscape h

/-- Characters of a fixed ASCII text. -/
theorem written_of_mem {text : List Char} (h : c ∈ text)
    (hall : (text.all fun x => decide (0x20 ≤ x.toNat ∧ x.toNat < 0x7f)) = true) :
    Written style c := by
  have hbounds := of_decide_eq_true (List.all_eq_true.mp hall c h)
  exact .of_bounds hbounds.1 hbounds.2

theorem written_of_shortEscape {d e : Char} (h : shortEscape d = some e) : Written style e := by
  have hmem : e ∈ ['"', '\\', 'n', 'r', 't', 'b', 'f'] := by
    unfold shortEscape at h
    split_ifs at h
    all_goals
      rw [← Option.some.inj h]
      decide
  exact written_of_mem hmem (by decide)

/-- A character is escaped unless the style writes it as it is. -/
theorem written_of_mem_escapeChar {d : Char} (h : c ∈ escapeChar style d) : Written style c := by
  rw [escapeChar] at h
  cases hshort : shortEscape d with
  | some e =>
    rw [hshort] at h
    rcases List.mem_cons.mp h with rfl | h
    · exact .of_bounds (by decide) (by decide)
    · rw [List.mem_singleton.mp h]
      exact written_of_shortEscape hshort
  | none =>
    rw [hshort] at h
    simp only at h
    split_ifs at h with hcontrol hascii
    · exact written_of_mem_unicodeEscape h
    · exact written_of_mem_asciiEscape h
    · rw [List.mem_singleton.mp h]
      refine ⟨by omega, fun hensure => ?_⟩
      by_contra hhigh
      rw [hensure, Bool.true_and] at hascii
      exact hascii (decide_eq_true (by omega))

theorem written_of_mem_renderString {s : String} (h : c ∈ renderString style s) :
    Written style c := by
  rcases List.mem_cons.mp h with rfl | h
  · exact .of_bounds (by decide) (by decide)
  · rcases List.mem_append.mp h with h | h
    · obtain ⟨d, -, hd⟩ := List.mem_flatMap.mp h
      exact written_of_mem_escapeChar hd
    · rw [List.mem_singleton.mp h]
      exact .of_bounds (by decide) (by decide)

theorem written_of_mem_renderFloat {x : PyFloat} (h : c ∈ renderFloat x) : Written style c := by
  cases x with
  | finite x => exact written_of_isNumberChar (Literal.render_isNumberChar _ c h)
  | infinite negative =>
    cases negative with
    | false => exact written_of_mem h (by decide)
    | true => exact written_of_mem h (by decide)
  | nan => exact written_of_mem h (by decide)

theorem written_of_mem_itemSeparator (h : c ∈ style.itemSeparator) : Written style c := by
  rw [Style.itemSeparator] at h
  split_ifs at h
  · exact written_of_mem h (by decide)
  · exact written_of_mem h (by decide)

theorem written_of_mem_keySeparator (h : c ∈ style.keySeparator) : Written style c := by
  rw [Style.keySeparator] at h
  split_ifs at h
  · exact written_of_mem h (by decide)
  · exact written_of_mem h (by decide)

mutual

/-- JSON text holds no control characters, and in ASCII output nothing beyond ASCII. -/
theorem written_of_mem_render (v : Json) (h : c ∈ render style v) : Written style c := by
  match v with
  | .null =>
    rw [render] at h
    exact written_of_mem h (by decide)
  | .bool true =>
    rw [render] at h
    exact written_of_mem h (by decide)
  | .bool false =>
    rw [render] at h
    exact written_of_mem h (by decide)
  | .int i => exact written_of_isNumberChar (Literal.render_isNumberChar _ c h)
  | .float x => exact written_of_mem_renderFloat h
  | .str s => exact written_of_mem_renderString h
  | .arr [] =>
    rw [render] at h
    exact written_of_mem h (by decide)
  | .arr (item :: items) =>
    simp only [render, List.mem_cons, List.mem_append, List.not_mem_nil, or_false] at h
    rcases h with rfl | h | h | rfl
    · exact .of_bounds (by decide) (by decide)
    · exact written_of_mem_render item h
    · exact written_of_mem_renderItems items h
    · exact .of_bounds (by decide) (by decide)
  | .obj [] =>
    rw [render] at h
    exact written_of_mem h (by decide)
  | .obj ((key, value) :: fields) =>
    simp only [render, List.mem_cons, List.mem_append, List.not_mem_nil, or_false] at h
    rcases h with rfl | h | h | h | h | rfl
    · exact .of_bounds (by decide) (by decide)
    · exact written_of_mem_renderString h
    · exact written_of_mem_keySeparator h
    · exact written_of_mem_render value h
    · exact written_of_mem_renderFields fields h
    · exact .of_bounds (by decide) (by decide)

theorem written_of_mem_renderItems (items : List Json) (h : c ∈ renderItems style items) :
    Written style c := by
  match items with
  | [] => exact absurd h List.not_mem_nil
  | item :: items =>
    simp only [renderItems, List.mem_append] at h
    rcases h with h | h | h
    · exact written_of_mem_itemSeparator h
    · exact written_of_mem_render item h
    · exact written_of_mem_renderItems items h

theorem written_of_mem_renderFields (fields : List (String × Json))
    (h : c ∈ renderFields style fields) : Written style c := by
  match fields with
  | [] => exact absurd h List.not_mem_nil
  | (key, value) :: fields =>
    simp only [renderFields, List.mem_append] at h
    rcases h with h | h | h | h | h
    · exact written_of_mem_itemSeparator h
    · exact written_of_mem_renderString h
    · exact written_of_mem_keySeparator h
    · exact written_of_mem_render value h
    · exact written_of_mem_renderFields fields h

end

end

section

variable {rt : Runtime} {r : RetrievedFact} {i : ℕ}

end

end ContextLedger.PromptLines
