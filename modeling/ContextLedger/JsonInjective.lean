import ContextLedger.JsonText

/-!
Reading JSON text back. A value's text is recovered from the front of any longer
text whose next character cannot continue a token, by induction on the value:
the first character tells the kind, tokens end at the first character outside
their class, and strings end at the first quote that is not part of an escape.
-/
namespace ContextLedger.JsonInjective

open Numerals FloatText JsonText

theorem unicodeEscape_inj {m n : ℕ} {r s : List Char} (hm : m < 0x10000) (hn : n < 0x10000)
    (h : unicodeEscape m ++ r = unicodeEscape n ++ s) : m = n ∧ r = s := by
  have hhex : hexDigits 4 m ++ r = hexDigits 4 n ++ s := (List.cons.inj (List.cons.inj h).2).2
  obtain ⟨hdigits, hrest⟩ :=
    List.append_inj hhex (by rw [length_hexDigits, length_hexDigits])
  exact ⟨hexDigits_inj hm hn hdigits, hrest⟩

/-- The character a short escape stands for. -/
def unescape (e : Char) : Char :=
  if e = 'n' then '\n'
  else if e = 'r' then '\r'
  else if e = 't' then '\t'
  else if e = 'b' then Char.ofNat 8
  else if e = 'f' then Char.ofNat 12
  else e

theorem unescape_shortEscape {c e : Char} (h : shortEscape c = some e) : unescape e = c := by
  unfold shortEscape at h
  split_ifs at h with h1 h2 h3 h4 h5 h6 h7
  all_goals
    obtain rfl := Option.some.inj h
    subst c
    rfl

theorem shortEscape_inj {c d e : Char} (hc : shortEscape c = some e)
    (hd : shortEscape d = some e) : c = d := by
  rw [← unescape_shortEscape hc, unescape_shortEscape hd]

theorem shortEscape_ne_u {c e : Char} (h : shortEscape c = some e) : e ≠ 'u' := by
  unfold shortEscape at h
  grind

theorem not_quote_of_shortEscape_none {c : Char} (h : shortEscape c = none) :
    c ≠ '"' ∧ c ≠ '\\' := by
  unfold shortEscape at h
  grind

/-- The four forms in which a character can appear inside a string. -/
theorem escapeChar_cases (style : Style) (c : Char) :
    (escapeChar style c = [c] ∧ c ≠ '"' ∧ c ≠ '\\') ∨
    (∃ e, escapeChar style c = ['\\', e] ∧ shortEscape c = some e) ∨
    (escapeChar style c = unicodeEscape c.toNat ∧ c.toNat < 0x10000) ∨
    (escapeChar style c = unicodeEscape (0xd800 + (c.toNat - 0x10000) / 0x400) ++
        unicodeEscape (0xdc00 + (c.toNat - 0x10000) % 0x400) ∧ 0x10000 ≤ c.toNat) := by
  cases hshort : shortEscape c with
  | some e => exact Or.inr (Or.inl ⟨e, by simp [escapeChar, hshort], rfl⟩)
  | none =>
    by_cases hcontrol : c.toNat < 0x20
    · refine Or.inr (Or.inr (Or.inl ⟨by simp [escapeChar, hshort, hcontrol], ?_⟩))
      omega
    · by_cases hascii : (style.ensureAscii && decide (0x7f ≤ c.toNat)) = true
      · by_cases hbasic : c.toNat < 0x10000
        · refine Or.inr (Or.inr (Or.inl ⟨?_, hbasic⟩))
          simp only [escapeChar, hshort, if_neg hcontrol, if_pos hascii, asciiEscape, if_pos hbasic]
        · refine Or.inr (Or.inr (Or.inr ⟨?_, by omega⟩))
          simp only [escapeChar, hshort, if_neg hcontrol, if_pos hascii, asciiEscape, if_neg hbasic]
      · refine Or.inl ⟨?_, not_quote_of_shortEscape_none hshort⟩
        simp only [escapeChar, hshort, if_neg hcontrol, if_neg hascii]

theorem not_surrogate (c : Char) : ¬ (0xd800 ≤ c.toNat ∧ c.toNat ≤ 0xdfff) := by
  have h : c.val.toNat < 0xd800 ∨ (0xdfff < c.val.toNat ∧ c.val.toNat < 0x110000) := c.valid
  change ¬ (0xd800 ≤ c.val.toNat ∧ c.val.toNat ≤ 0xdfff)
  omega

theorem toNat_lt (c : Char) : c.toNat < 0x110000 := by
  have h : c.val.toNat < 0xd800 ∨ (0xdfff < c.val.toNat ∧ c.val.toNat < 0x110000) := c.valid
  change c.val.toNat < 0x110000
  omega

theorem escapeChar_inj (style : Style) {c d : Char} {r s : List Char}
    (h : escapeChar style c ++ r = escapeChar style d ++ s) : c = d ∧ r = s := by
  have hc16 := toNat_lt c
  have hd16 := toNat_lt d
  have hcs := not_surrogate c
  have hds := not_surrogate d
  rcases escapeChar_cases style c with ⟨hc, hcq, hcb⟩ | ⟨e, hc, hce⟩ | ⟨hc, hcn⟩ | ⟨hc, hcn⟩ <;>
  rcases escapeChar_cases style d with ⟨hd, hdq, hdb⟩ | ⟨f, hd, hde⟩ | ⟨hd, hdn⟩ | ⟨hd, hdn⟩ <;>
  rw [hc, hd] at h
  · simpa using h
  · exact absurd (List.cons.inj h).1 hcb
  · exact absurd (List.cons.inj h).1 hcb
  · exact absurd (List.cons.inj h).1 hcb
  · exact absurd (List.cons.inj h).1.symm hdb
  · obtain ⟨hef, hrest⟩ := List.cons.inj (List.cons.inj h).2
    subst hef
    exact ⟨shortEscape_inj hce hde, hrest⟩
  · exact absurd (List.cons.inj (List.cons.inj h).2).1 (shortEscape_ne_u hce)
  · exact absurd (List.cons.inj (List.cons.inj h).2).1 (shortEscape_ne_u hce)
  · exact absurd (List.cons.inj h).1.symm hdb
  · exact absurd (List.cons.inj (List.cons.inj h).2).1.symm (shortEscape_ne_u hde)
  · obtain ⟨hn, hrest⟩ := unicodeEscape_inj hcn hdn h
    exact ⟨Char.toNat_inj.mp hn, hrest⟩
  · rw [List.append_assoc] at h
    obtain ⟨hn, -⟩ := unicodeEscape_inj hcn (by omega) h
    omega
  · exact absurd (List.cons.inj h).1.symm hdb
  · exact absurd (List.cons.inj (List.cons.inj h).2).1.symm (shortEscape_ne_u hde)
  · rw [List.append_assoc] at h
    obtain ⟨hn, -⟩ := unicodeEscape_inj (by omega) hdn h
    omega
  · rw [List.append_assoc, List.append_assoc] at h
    obtain ⟨hhigh, hrest⟩ := unicodeEscape_inj (by omega) (by omega) h
    obtain ⟨hlow, hrest'⟩ := unicodeEscape_inj (by omega) (by omega) hrest
    exact ⟨Char.toNat_inj.mp (by omega), hrest'⟩

theorem escapeChar_head (style : Style) (c : Char) :
    ∃ d rest, escapeChar style c = d :: rest ∧ d ≠ '"' := by
  rcases escapeChar_cases style c with ⟨hc, hcq, -⟩ | ⟨e, hc, -⟩ | ⟨hc, -⟩ | ⟨hc, -⟩
  · exact ⟨c, [], hc, hcq⟩
  · exact ⟨'\\', [e], hc, by decide⟩
  · exact ⟨'\\', _, hc, by decide⟩
  · exact ⟨'\\', _, hc, by decide⟩

private theorem escaped_inj (style : Style) {cs ds r s : List Char}
    (h : cs.flatMap (escapeChar style) ++ '"' :: r = ds.flatMap (escapeChar style) ++ '"' :: s) :
    cs = ds ∧ r = s := by
  induction cs generalizing ds with
  | nil =>
    cases ds with
    | nil => simpa using h
    | cons d ds =>
      obtain ⟨x, rest, hx, hne⟩ := escapeChar_head style d
      rw [List.flatMap_cons, hx] at h
      exact absurd (List.cons.inj h).1.symm hne
  | cons c cs ih =>
    cases ds with
    | nil =>
      obtain ⟨x, rest, hx, hne⟩ := escapeChar_head style c
      rw [List.flatMap_cons, hx] at h
      exact absurd (List.cons.inj h).1 hne
    | cons d ds =>
      rw [List.flatMap_cons, List.flatMap_cons, List.append_assoc, List.append_assoc] at h
      obtain ⟨rfl, hrest⟩ := escapeChar_inj style h
      obtain ⟨rfl, hrest'⟩ := ih hrest
      exact ⟨rfl, hrest'⟩

/-- A string ends at its own closing quote. -/
theorem renderString_inj (style : Style) {a b : String} {r s : List Char}
    (h : renderString style a ++ r = renderString style b ++ s) : a = b ∧ r = s := by
  have hbody : a.toList.flatMap (escapeChar style) ++ ['"'] ++ r =
      b.toList.flatMap (escapeChar style) ++ ['"'] ++ s := (List.cons.inj h).2
  rw [List.append_assoc, List.append_assoc] at hbody
  obtain ⟨hlist, hrest⟩ := escaped_inj style hbody
  exact ⟨String.toList_inj.mp hlist, hrest⟩

theorem magnitude_repr (x : Binary64) : (FloatText.repr x).magnitude = (shortest x).value := by
  have hten : (10 : ℚ) ≠ 0 := by norm_num
  simp only [FloatText.repr]
  split
  · have hlen : 1 ≤ (digits (shortest x).digits).length :=
      List.length_pos_of_ne_nil (digits_ne_nil _)
    have hexp : pointPosition x - 1 - (((digits (shortest x).digits).length - 1 : ℕ) : ℤ) =
        (shortest x).exponent := by
      rw [pointPosition]
      omega
    simp only [Literal.magnitude, Decimal.value, Option.getD_some, hexp]
  · split
    · rename_i h
      have hpow : (10 : ℚ) ^ (shortest x).exponent = 10 ^ (shortest x).exponent.toNat := by
        rw [← zpow_natCast, Int.toNat_of_nonneg h]
      simp only [Literal.magnitude, Decimal.value, Option.getD_none, hpow]
      push_cast
      rw [pow_succ]
      norm_num
      ring
    · rename_i h
      have hexp : (0 : ℤ) - ((shortest x).exponent.natAbs : ℤ) = (shortest x).exponent := by omega
      simp only [Literal.magnitude, Decimal.value, Option.getD_none, hexp]

theorem negative_repr (x : Binary64) : (FloatText.repr x).negative = x.negative := by
  simp only [FloatText.repr]
  split
  · rfl
  · split <;> rfl

/-- The text of a float reads back as that float. -/
theorem nearest_repr (x : Binary64) :
    nearest (FloatText.repr x).negative (FloatText.repr x).magnitude = some x := by
  rw [magnitude_repr, negative_repr]
  exact nearest_shortest x

theorem repr_injective : Function.Injective FloatText.repr := by
  intro x y h
  have hx := nearest_repr x
  rw [h, nearest_repr y] at hx
  exact (Option.some.inj hx).symm

/-- A float's literal has a point or an exponent, an integer's has neither. -/
theorem repr_ne_ofInt (x : Binary64) (i : ℤ) : FloatText.repr x ≠ Literal.ofInt i := by
  intro h
  simp only [FloatText.repr, Literal.ofInt] at h
  split at h
  · simp at h
  · split at h
    · simp at h
    · rename_i hneg
      simp only [Literal.mk.injEq] at h
      omega

theorem ofInt_injective : Function.Injective Literal.ofInt := by
  intro i j h
  simp only [Literal.ofInt, Literal.mk.injEq, decide_eq_decide] at h
  omega

/-- The characters of numbers and of the words for the other scalars. -/
def isTokenChar (c : Char) : Bool := c.isAlphanum || c == '-' || c == '+' || c == '.'

/-- Nothing in `r` can continue a token that ends where `r` starts. -/
def Stops (r : List Char) : Prop := ∀ c, r.head? = some c → isTokenChar c = false

/-- The text of a scalar: a fixed word, or a number literal. -/
inductive Token where
  | word (text : String)
  | number (literal : Literal)
  deriving DecidableEq

def Token.render : Token → List Char
  | .word text => text.toList
  | .number literal => literal.render

def token : Json → Option Token
  | .null => some (.word "null")
  | .bool true => some (.word "true")
  | .bool false => some (.word "false")
  | .int i => some (.number (Literal.ofInt i))
  | .float (.finite x) => some (.number (FloatText.repr x))
  | .float (.infinite false) => some (.word "Infinity")
  | .float (.infinite true) => some (.word "-Infinity")
  | .float .nan => some (.word "NaN")
  | .str _ => none
  | .arr _ => none
  | .obj _ => none

def words : List String := ["null", "true", "false", "Infinity", "-Infinity", "NaN"]

theorem token_word {v : Json} {text : String} (h : token v = some (.word text)) :
    text ∈ words := by
  unfold token at h
  split at h
  all_goals simp only [reduceCtorEq, Option.some.injEq, Token.word.injEq] at h
  all_goals
    subst h
    decide

theorem render_of_token (style : Style) {v : Json} {t : Token} (h : token v = some t) :
    render style v = t.render := by
  unfold token at h
  split at h
  all_goals simp only [reduceCtorEq, Option.some.injEq] at h
  all_goals
    subst h
    unfold JsonText.render
    rfl

theorem token_injective {v w : Json} {t : Token} (hv : token v = some t) (hw : token w = some t) :
    v = w := by
  unfold token at hv
  split at hv
  all_goals simp only [reduceCtorEq, Option.some.injEq] at hv
  all_goals
    subst hv
    unfold token at hw
    split at hw
  all_goals simp only [reduceCtorEq, Option.some.injEq, Token.word.injEq, Token.number.injEq,
    String.reduceEq, ofInt_injective.eq_iff, repr_injective.eq_iff, repr_ne_ofInt,
    (repr_ne_ofInt _ _).symm] at hw
  all_goals first
    | rfl
    | rw [hw]

private theorem word_chars : ∀ text ∈ words, ∀ c ∈ text.toList, isTokenChar c = true := by
  have h : ∀ text ∈ words, text.toList.all isTokenChar = true := by
    decide
  intro text htext
  exact List.all_eq_true.mp (h text htext)

private theorem word_head : ∀ text ∈ words, ∃ c rest, text.toList = c :: rest ∧
    c.isDigit = false ∧ (c = '-' → ∃ d rest', rest = d :: rest' ∧ d.isDigit = false) := by
  intro text h
  simp only [words, List.mem_cons, List.not_mem_nil, or_false] at h
  rcases h with rfl | rfl | rfl | rfl | rfl | rfl
  · exact ⟨'n', "ull".toList, rfl, rfl, fun h => absurd h (by decide)⟩
  · exact ⟨'t', "rue".toList, rfl, rfl, fun h => absurd h (by decide)⟩
  · exact ⟨'f', "alse".toList, rfl, rfl, fun h => absurd h (by decide)⟩
  · exact ⟨'I', "nfinity".toList, rfl, rfl, fun h => absurd h (by decide)⟩
  · exact ⟨'-', "Infinity".toList, rfl, rfl, fun _ => ⟨'I', "nfinity".toList, rfl, rfl⟩⟩
  · exact ⟨'N', "aN".toList, rfl, rfl, fun h => absurd h (by decide)⟩

private theorem word_ne_number {text : String} (h : text ∈ words) (l : Literal) :
    text.toList ≠ l.render := by
  intro heq
  obtain ⟨c, rest, htext, hc, hminus⟩ := word_head text h
  obtain ⟨d, rest', hd, hrender | hrender⟩ := l.render_head
  · rw [htext, hrender] at heq
    rw [(List.cons.inj heq).1, hd] at hc
    exact absurd hc (by simp)
  · rw [htext, hrender] at heq
    obtain ⟨hc', hrest⟩ := List.cons.inj heq
    obtain ⟨e, rest'', he, hdigit⟩ := hminus hc'
    rw [he] at hrest
    rw [(List.cons.inj hrest).1, hd] at hdigit
    exact absurd hdigit (by simp)

private theorem isTokenChar_of_isNumberChar {c : Char} (h : Literal.isNumberChar c = true) :
    isTokenChar c = true := by
  simp only [Literal.isNumberChar, Bool.or_eq_true, beq_iff_eq] at h
  rcases h with (((h | h) | h) | h) | h
  · simp [isTokenChar, Char.isAlphanum, h]
  · subst h
    rfl
  · subst h
    rfl
  · subst h
    rfl
  · subst h
    rfl

theorem token_chars {v : Json} {t : Token} (h : token v = some t) :
    ∀ c ∈ t.render, isTokenChar c = true := by
  intro c hc
  cases t with
  | word text => exact word_chars text (token_word h) c hc
  | number l => exact isTokenChar_of_isNumberChar (l.render_isNumberChar c hc)

/-- Tokens that could come from values are told apart by their text. -/
theorem token_render_inj {v w : Json} {t u : Token} (hv : token v = some t)
    (hw : token w = some u) (h : t.render = u.render) : t = u := by
  cases t with
  | word a =>
    cases u with
    | word b => rw [String.toList_inj.mp h]
    | number m => exact absurd h (word_ne_number (token_word hv) m)
  | number l =>
    cases u with
    | word b => exact absurd h.symm (word_ne_number (token_word hw) l)
    | number m => rw [Literal.render_injective h]

theorem scalar_inj (style : Style) {v w : Json} {t u : Token} {r s : List Char}
    (hv : token v = some t) (hw : token w = some u) (hr : Stops r) (hs : Stops s)
    (h : render style v ++ r = render style w ++ s) : v = w ∧ r = s := by
  rw [render_of_token style hv, render_of_token style hw] at h
  obtain ⟨htext, hrest⟩ := append_inj_of_class isTokenChar (token_chars hv) (token_chars hw) hr hs h
  have htu := token_render_inj hv hw htext
  exact ⟨token_injective hv (htu ▸ hw), hrest⟩

/-- Which kind of value starts with a character; a closing bracket starts none. -/
def kindOf (c : Char) : ℕ :=
  if c = '"' then 1 else if c = '[' then 2 else if c = '\x7b' then 3 else if c = ']' then 4 else 0

def kind : Json → ℕ
  | .str _ => 1
  | .arr _ => 2
  | .obj _ => 3
  | _ => 0

private theorem kindOf_token {c : Char} (h : isTokenChar c = true) : kindOf c = 0 := by
  have h1 : c ≠ '"' := fun hc => absurd h (by subst hc; decide)
  have h2 : c ≠ '[' := fun hc => absurd h (by subst hc; decide)
  have h3 : c ≠ '\x7b' := fun hc => absurd h (by subst hc; decide)
  have h4 : c ≠ ']' := fun hc => absurd h (by subst hc; decide)
  simp [kindOf, h1, h2, h3, h4]

private theorem token_ne_nil {v : Json} {t : Token} (h : token v = some t) : t.render ≠ [] := by
  cases t with
  | word text =>
    obtain ⟨c, rest, htext, -⟩ := word_head text (token_word h)
    simp [Token.render, htext]
  | number l => exact l.render_ne_nil

theorem token_iff_kind (v : Json) : (∃ t, token v = some t) ↔ kind v = 0 := by
  cases v with
  | bool b => cases b <;> simp [token, kind]
  | float x =>
    cases x with
    | infinite b => cases b <;> simp [token, kind]
    | finite x => simp [token, kind]
    | nan => simp [token, kind]
  | null => simp [token, kind]
  | int i => simp [token, kind]
  | str a => simp [token, kind]
  | arr items => simp [token, kind]
  | obj fields => simp [token, kind]

theorem render_head_kind (style : Style) (v : Json) :
    ∃ c rest, render style v = c :: rest ∧ kindOf c = kind v := by
  by_cases hscalar : kind v = 0
  · obtain ⟨t, htoken⟩ := (token_iff_kind v).mpr hscalar
    cases hrender : t.render with
    | nil => exact absurd hrender (token_ne_nil htoken)
    | cons c rest =>
      refine ⟨c, rest, by rw [render_of_token style htoken, hrender], ?_⟩
      rw [hscalar]
      exact kindOf_token (token_chars htoken c (by simp [hrender]))
  · cases v with
    | str a => exact ⟨'"', _, rfl, rfl⟩
    | arr items => cases items <;> exact ⟨'[', _, rfl, rfl⟩
    | obj fields => cases fields <;> exact ⟨'\x7b', _, rfl, rfl⟩
    | null => exact absurd rfl hscalar
    | bool b => exact absurd rfl hscalar
    | int i => exact absurd rfl hscalar
    | float x => exact absurd rfl hscalar

theorem kind_eq_of_render_eq (style : Style) {v w : Json} {r s : List Char}
    (h : render style v ++ r = render style w ++ s) : kind v = kind w := by
  obtain ⟨c, rest, hc, hkind⟩ := render_head_kind style v
  obtain ⟨d, rest', hd, hkind'⟩ := render_head_kind style w
  rw [hc, hd] at h
  rw [← hkind, ← hkind', (List.cons.inj h).1]

theorem render_ne_bracket (style : Style) (v : Json) (r s : List Char) :
    render style v ++ r ≠ ']' :: s := by
  intro h
  obtain ⟨c, rest, hc, hkind⟩ := render_head_kind style v
  rw [hc] at h
  rw [(List.cons.inj h).1] at hkind
  cases v <;> exact absurd hkind (by simp [kind, kindOf])

theorem itemSeparator_head (style : Style) :
    ∃ rest, style.itemSeparator = ',' :: rest := by
  unfold Style.itemSeparator
  split
  · exact ⟨[' '], rfl⟩
  · exact ⟨[], rfl⟩

theorem stops_cons {c : Char} (h : isTokenChar c = false) (r : List Char) :
    Stops (c :: r) := by
  intro d hd
  simp only [List.head?_cons, Option.some.injEq] at hd
  rw [← hd]
  exact h

theorem stops_items (style : Style) (items : List Json) (r : List Char) :
    Stops (renderItems style items ++ ']' :: r) := by
  cases items with
  | nil => exact stops_cons rfl r
  | cons item items =>
    obtain ⟨rest, hrest⟩ := itemSeparator_head style
    rw [renderItems, hrest]
    exact stops_cons rfl _

theorem stops_fields (style : Style) (fields : List (String × Json)) (r : List Char) :
    Stops (renderFields style fields ++ '\x7d' :: r) := by
  cases fields with
  | nil => exact stops_cons rfl r
  | cons field fields =>
    obtain ⟨rest, hrest⟩ := itemSeparator_head style
    rw [renderFields, hrest]
    exact stops_cons rfl _

private theorem str_of_kind {w : Json} (h : kind w = 1) : ∃ b, w = .str b := by
  cases w <;> simp_all [kind]

private theorem arr_of_kind {w : Json} (h : kind w = 2) : ∃ items, w = .arr items := by
  cases w <;> simp_all [kind]

private theorem obj_of_kind {w : Json} (h : kind w = 3) : ∃ fields, w = .obj fields := by
  cases w <;> simp_all [kind]

mutual

/-- The text of a value is read back from the front of any text that stops it. -/
theorem render_inj (style : Style) (v w : Json) (r s : List Char) (hr : Stops r) (hs : Stops s)
    (h : render style v ++ r = render style w ++ s) : v = w ∧ r = s := by
  have hkind := kind_eq_of_render_eq style h
  by_cases hscalar : kind v = 0
  · obtain ⟨t, ht⟩ := (token_iff_kind v).mpr hscalar
    obtain ⟨u, hu⟩ := (token_iff_kind w).mpr (hkind ▸ hscalar)
    exact scalar_inj style ht hu hr hs h
  · cases v with
    | null => exact absurd rfl hscalar
    | bool b => exact absurd rfl hscalar
    | int i => exact absurd rfl hscalar
    | float x => exact absurd rfl hscalar
    | str a =>
      obtain ⟨b, rfl⟩ := str_of_kind hkind.symm
      simp only [JsonText.render] at h
      obtain ⟨rfl, hrest⟩ := renderString_inj style h
      exact ⟨rfl, hrest⟩
    | arr items =>
      obtain ⟨items', rfl⟩ := arr_of_kind hkind.symm
      obtain ⟨rfl, hrest⟩ := renderArr_inj style items items' r s h
      exact ⟨rfl, hrest⟩
    | obj fields =>
      obtain ⟨fields', rfl⟩ := obj_of_kind hkind.symm
      obtain ⟨rfl, hrest⟩ := renderObj_inj style fields fields' r s h
      exact ⟨rfl, hrest⟩

theorem renderArr_inj (style : Style) (items items' : List Json) (r s : List Char)
    (h : render style (.arr items) ++ r = render style (.arr items') ++ s) :
    items = items' ∧ r = s := by
  match items, items' with
  | [], [] => exact ⟨rfl, by simpa [JsonText.render] using h⟩
  | [], item' :: items' =>
    simp only [JsonText.render, List.cons_append, List.append_assoc] at h
    exact absurd (List.cons.inj h).2.symm (render_ne_bracket style _ _ _)
  | item :: items, [] =>
    simp only [JsonText.render, List.cons_append, List.append_assoc] at h
    exact absurd (List.cons.inj h).2 (render_ne_bracket style _ _ _)
  | item :: items, item' :: items' =>
    simp only [JsonText.render, List.cons_append, List.append_assoc, List.nil_append] at h
    obtain ⟨rfl, htail⟩ := render_inj style item item' _ _ (stops_items style items r)
      (stops_items style items' s) (List.cons.inj h).2
    obtain ⟨rfl, hrest⟩ := renderItems_inj style items items' r s htail
    exact ⟨rfl, hrest⟩

theorem renderObj_inj (style : Style) (fields fields' : List (String × Json)) (r s : List Char)
    (h : render style (.obj fields) ++ r = render style (.obj fields') ++ s) :
    fields = fields' ∧ r = s := by
  match fields, fields' with
  | [], [] => exact ⟨rfl, by simpa [JsonText.render] using h⟩
  | [], (key', value') :: fields' => simp [JsonText.render, renderString] at h
  | (key, value) :: fields, [] => simp [JsonText.render, renderString] at h
  | (key, value) :: fields, (key', value') :: fields' =>
    simp only [JsonText.render, List.cons_append, List.append_assoc, List.nil_append] at h
    obtain ⟨rfl, hvalue⟩ := renderString_inj style (List.cons.inj h).2
    obtain ⟨rfl, htail⟩ := render_inj style value value' _ _ (stops_fields style fields r)
      (stops_fields style fields' s) (List.append_cancel_left hvalue)
    obtain ⟨rfl, hrest⟩ := renderFields_inj style fields fields' r s htail
    exact ⟨rfl, hrest⟩

theorem renderItems_inj (style : Style) (items items' : List Json) (r s : List Char)
    (h : renderItems style items ++ ']' :: r = renderItems style items' ++ ']' :: s) :
    items = items' ∧ r = s := by
  obtain ⟨sep, hsep⟩ := itemSeparator_head style
  match items, items' with
  | [], [] => exact ⟨rfl, by simpa [renderItems] using h⟩
  | [], item' :: items' => simp [renderItems, hsep] at h
  | item :: items, [] => simp [renderItems, hsep] at h
  | item :: items, item' :: items' =>
    simp only [renderItems, List.append_assoc] at h
    obtain ⟨rfl, htail⟩ := render_inj style item item' _ _ (stops_items style items r)
      (stops_items style items' s) (List.append_cancel_left h)
    obtain ⟨rfl, hrest⟩ := renderItems_inj style items items' r s htail
    exact ⟨rfl, hrest⟩

theorem renderFields_inj (style : Style) (fields fields' : List (String × Json))
    (r s : List Char)
    (h : renderFields style fields ++ '\x7d' :: r = renderFields style fields' ++ '\x7d' :: s) :
    fields = fields' ∧ r = s := by
  obtain ⟨sep, hsep⟩ := itemSeparator_head style
  match fields, fields' with
  | [], [] => exact ⟨rfl, by simpa [renderFields] using h⟩
  | [], (key', value') :: fields' => simp [renderFields, hsep] at h
  | (key, value) :: fields, [] => simp [renderFields, hsep] at h
  | (key, value) :: fields, (key', value') :: fields' =>
    simp only [renderFields, List.append_assoc] at h
    obtain ⟨rfl, hvalue⟩ := renderString_inj style (List.append_cancel_left h)
    obtain ⟨rfl, htail⟩ := render_inj style value value' _ _ (stops_fields style fields r)
      (stops_fields style fields' s) (List.append_cancel_left hvalue)
    obtain ⟨rfl, hrest⟩ := renderFields_inj style fields fields' r s htail
    exact ⟨rfl, hrest⟩

end

theorem dumps_injective (style : Style) : Function.Injective (dumps style) := by
  intro v w h
  have htext : render style v ++ [] = render style w ++ [] := by
    rw [List.append_nil, List.append_nil]
    exact String.ofList_inj.mp h
  exact (render_inj style v w [] [] (by simp [Stops]) (by simp [Stops]) htext).1

/-- Sorted texts agree exactly when the values agree up to the order of object keys. -/
theorem dumpsSorted_eq_iff (style : Style) (v w : Json) :
    dumpsSorted style v = dumpsSorted style w ↔ sortKeys v = sortKeys w := by
  constructor
  · intro h
    exact dumps_injective style h
  · intro h
    unfold dumpsSorted
    rw [h]

end ContextLedger.JsonInjective
