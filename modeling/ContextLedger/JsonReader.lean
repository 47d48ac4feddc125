import ContextLedger.JsonInjective

/-!
A reader of JSON text. Blanks may stand around every token, escapes are taken back,
numbers follow the grammar of JSON, and a key that comes twice in an object keeps
its first place and its last value. Whatever layout a value was written in, the
reader gives the value back, provided that no object holds a key twice.
-/
namespace ContextLedger.JsonReader

open Numerals FloatText JsonText JsonInjective

def isBlank (c : Char) : Bool := c == ' ' || c == '\t' || c == '\n' || c == '\r'

def skip (text : List Char) : List Char := text.dropWhile isBlank

/-- Digits without a leading zero, and the text behind them. -/
def integerPart (text : List Char) : Option (List Char × List Char) :=
  let ds := text.takeWhile Char.isDigit
  if ds = [] ∨ (ds.head? = some '0' ∧ 1 < ds.length) then none
  else some (ds, text.dropWhile Char.isDigit)

def fractionPart : List Char → Option (List Char × List Char)
  | '.' :: text =>
    if text.takeWhile Char.isDigit = [] then none
    else some (text.takeWhile Char.isDigit, text.dropWhile Char.isDigit)
  | text => some ([], text)

def signedDigits : List Char → Bool × List Char
  | '-' :: ds => (true, ds)
  | '+' :: ds => (false, ds)
  | ds => (false, ds)

/-- The rest of a number: nothing, or an exponent. -/
def exponentPart : List Char → Option (Option ℤ)
  | [] => some none
  | c :: text =>
    let (negative, ds) := signedDigits text
    if (c = 'e' ∨ c = 'E') ∧ ds ≠ [] ∧ ds.all Char.isDigit then
      let n : ℤ := Nat.ofDigitChars 10 ds 0
      some (some (if negative then -n else n))
    else none

def readLiteral (text : List Char) : Option Literal := do
  let negative := text.head? == some '-'
  let (ds, rest) ← integerPart (if negative then text.tail else text)
  let (fs, rest) ← fractionPart rest
  let exponent ← exponentPart rest
  return ⟨negative, Nat.ofDigitChars 10 (ds ++ fs) 0, fs.length, exponent⟩

/-- A number without a point and an exponent is an integer. -/
def ofLiteral (l : Literal) : Json :=
  if l.fraction = 0 ∧ l.exponent = none then
    .int (if l.negative then -(l.significand : ℤ) else l.significand)
  else
    match nearest l.negative l.magnitude with
    | some x => .float (.finite x)
    | none => .float (.infinite l.negative)

def ofWord (text : List Char) : Option Json :=
  [("null".toList, .null), ("true".toList, .bool true), ("false".toList, .bool false),
   ("NaN".toList, .float .nan), ("Infinity".toList, .float (.infinite false)),
   ("-Infinity".toList, .float (.infinite true))].lookup text

def readToken (text : List Char) : Option Json :=
  match readLiteral text with
  | some l => some (ofLiteral l)
  | none => ofWord text

def hexValue (c : Char) : Option ℕ :=
  if '0' ≤ c ∧ c ≤ '9' then some (c.toNat - '0'.toNat)
  else if 'a' ≤ c ∧ c ≤ 'f' then some (c.toNat - 'a'.toNat + 10)
  else if 'A' ≤ c ∧ c ≤ 'F' then some (c.toNat - 'A'.toNat + 10)
  else none

def readHex : List Char → Option (ℕ × List Char)
  | a :: b :: c :: d :: rest => do
    let a ← hexValue a
    let b ← hexValue b
    let c ← hexValue c
    let d ← hexValue d
    return (((a * 16 + b) * 16 + c) * 16 + d, rest)
  | _ => none

/-- What stands behind `\u`: a character, or the two halves of a pair. Half a pair alone is
no character of a text and is refused. -/
def readUnicode (text : List Char) : Option (Char × List Char) := do
  let (n, rest) ← readHex text
  if n < 0xd800 ∨ 0xdfff < n then return (Char.ofNat n, rest)
  match rest with
  | '\\' :: 'u' :: rest =>
    let (m, rest) ← readHex rest
    if n < 0xdc00 ∧ 0xdc00 ≤ m ∧ m ≤ 0xdfff then
      return (Char.ofNat (0x10000 + (n - 0xd800) * 0x400 + (m - 0xdc00)), rest)
    else none
  | _ => none

def isShortEscape (e : Char) : Bool := "\"\\/bfnrt".toList.contains e

/-- What stands behind a backslash. -/
def readEscape : List Char → Option (Char × List Char)
  | [] => none
  | e :: rest =>
    if e = 'u' then readUnicode rest
    else if isShortEscape e then some (unescape e, rest) else none

/-- The next character of a string; control characters are not allowed. -/
def readChar : List Char → Option (Char × List Char)
  | [] => none
  | c :: rest =>
    if c = '\\' then readEscape rest
    else if c.toNat < 0x20 then none else some (c, rest)

/-- A string up to its closing quote. -/
def readChars : ℕ → List Char → Option (List Char × List Char)
  | 0, _ => none
  | fuel + 1, text =>
    if text.head? = some '"' then some ([], text.tail)
    else do
      let (c, rest) ← readChar text
      let (cs, rest) ← readChars fuel rest
      return (c :: cs, rest)

def readString (text : List Char) : Option (String × List Char) :=
  (readChars (text.length + 1) text).map fun p => (String.ofList p.1, p.2)

/-- A key that was there keeps its place and takes the new value. -/
def setField (fields : List (String × Json)) (key : String) (value : Json) :
    List (String × Json) :=
  if key ∈ fields.map Prod.fst then
    fields.map fun field => if field.1 = key then (key, value) else field
  else fields ++ [(key, value)]

def asDict (fields : List (String × Json)) : List (String × Json) :=
  fields.foldl (fun dict field => setField dict field.1 field.2) []

mutual

def readValue : ℕ → List Char → Option (Json × List Char)
  | 0, _ => none
  | _ + 1, [] => none
  | fuel + 1, c :: rest =>
    if c = '"' then (readString rest).map fun p => (.str p.1, p.2)
    else if c = '[' then
      if (skip rest).head? = some ']' then some (.arr [], (skip rest).tail)
      else (readItems fuel (skip rest)).map fun p => (.arr p.1, p.2)
    else if c = '\x7b' then
      if (skip rest).head? = some '\x7d' then some (.obj [], (skip rest).tail)
      else (readFields fuel (skip rest)).map fun p => (.obj (asDict p.1), p.2)
    else
      (readToken ((c :: rest).takeWhile isTokenChar)).map fun v =>
        (v, (c :: rest).dropWhile isTokenChar)

/-- The items of an array up to its closing bracket. -/
def readItems : ℕ → List Char → Option (List Json × List Char)
  | 0, _ => none
  | fuel + 1, text =>
    match readValue fuel text with
    | none => none
    | some (item, rest) =>
      if (skip rest).head? = some ']' then some ([item], (skip rest).tail)
      else if (skip rest).head? = some ',' then
        (readItems fuel (skip (skip rest).tail)).map fun p => (item :: p.1, p.2)
      else none

/-- The fields of an object up to its closing brace. -/
def readFields : ℕ → List Char → Option (List (String × Json) × List Char)
  | 0, _ => none
  | fuel + 1, text =>
    if text.head? = some '"' then
      match readString text.tail with
      | none => none
      | some (key, rest) =>
        if (skip rest).head? = some ':' then
          match readValue fuel (skip (skip rest).tail) with
          | none => none
          | some (value, rest) =>
            if (skip rest).head? = some '\x7d' then some ([(key, value)], (skip rest).tail)
            else if (skip rest).head? = some ',' then
              (readFields fuel (skip (skip rest).tail)).map fun p => ((key, value) :: p.1, p.2)
            else none
        else none
    else none

end

def loads (text : String) : Option Json :=
  match readValue (text.toList.length + 1) (skip text.toList) with
  | none => none
  | some (v, rest) => if skip rest = [] then some v else none

/-- Reading stops where the class of characters stops. -/
theorem span_class {α : Type*} {p : α → Bool} {a r : List α} (ha : ∀ x ∈ a, p x = true)
    (hr : ∀ x, r.head? = some x → p x = false) :
    (a ++ r).takeWhile p = a ∧ (a ++ r).dropWhile p = r := by
  rw [List.takeWhile_append_of_pos ha, List.dropWhile_append_of_pos ha]
  cases r with
  | nil => simp
  | cons x r => simp [hr x rfl]

/-- The text of a positive number does not start with a zero. -/
theorem digits_head {n : ℕ} (hn : 0 < n) : ∃ c rest, digits n = c :: rest ∧ c ≠ '0' := by
  induction n using Nat.strongRecOn with
  | _ n ih =>
    by_cases hsmall : n < 10
    · refine ⟨Nat.digitChar n, [], Nat.toDigits_of_lt_base hsmall, ?_⟩
      have hall : ∀ m < 10, 0 < m → Nat.digitChar m ≠ '0' := by decide
      exact hall n hsmall hn
    · obtain ⟨c, rest, hrest, hc⟩ := ih (n / 10) (by omega) (by omega)
      refine ⟨c, rest ++ [Nat.digitChar (n % 10)], ?_, hc⟩
      rw [digits, Nat.toDigits_of_base_le (by omega) (by omega)]
      change digits (n / 10) ++ _ = _
      rw [hrest, List.cons_append]

/-- The digits before the point: one digit, or no leading zero. -/
theorem integerDigits (f n : ℕ) {ds : List Char} (hds : ds = zeroPad (f + 1) n) :
    ds.take (ds.length - f) ≠ [] ∧
    ((ds.take (ds.length - f)).head? = some '0' → (ds.take (ds.length - f)).length = 1) := by
  have hle := le_length_zeroPad (f + 1) n
  rw [← hds] at hle
  have hlength : (ds.take (ds.length - f)).length = ds.length - f := by
    rw [List.length_take]
    omega
  refine ⟨fun h => ?_, fun hzero => ?_⟩
  · rw [h] at hlength
    simp at hlength
    omega
  · by_cases hshort : (digits n).length ≤ f + 1
    · rw [hlength, hds, zeroPad, List.length_append, List.length_replicate]
      omega
    · have hlong : ds = digits n := by
        rw [hds, zeroPad, Nat.sub_eq_zero_of_le (by omega), List.replicate_zero, List.nil_append]
      have hpos : 0 < n := by
        rcases Nat.eq_zero_or_pos n with rfl | hpos
        · exact absurd hshort (by simp [digits])
        · exact hpos
      obtain ⟨c, rest, hrest, hc⟩ := digits_head hpos
      rw [hlong] at hlength hzero
      rw [List.head?_take, hrest] at hzero
      split at hzero
      · exact absurd hzero (by simp)
      · exact absurd (Option.some.inj hzero) hc

theorem exponentPart_exponentText (e : Option ℤ) :
    exponentPart (Literal.exponentText e) = some e := by
  cases e with
  | none => rfl
  | some e =>
    have hne : zeroPad 2 e.natAbs ≠ [] := by
      intro h
      have hlength := le_length_zeroPad 2 e.natAbs
      rw [h] at hlength
      exact absurd hlength (by simp)
    have hall : (zeroPad 2 e.natAbs).all Char.isDigit = true :=
      List.all_eq_true.mpr fun c hc => isDigit_of_mem_zeroPad hc
    rcases lt_or_ge e 0 with hneg | hpos
    · simp only [Literal.exponentText, if_pos hneg, exponentPart, signedDigits]
      rw [if_pos ⟨Or.inl trivial, hne, hall⟩, ofDigitChars_zeroPad, if_pos trivial]
      congr 2
      omega
    · simp only [Literal.exponentText, if_neg (not_lt.mpr hpos), exponentPart, signedDigits]
      rw [if_pos ⟨Or.inl trivial, hne, hall⟩, ofDigitChars_zeroPad, if_neg (by simp)]
      congr 2
      omega

/-- The text behind the digits of a number does not start with a digit. -/
theorem exponentText_head {e : Option ℤ} {c : Char}
    (h : (Literal.exponentText e).head? = some c) : c = 'e' := by
  cases e with
  | none => exact absurd h (by simp [Literal.exponentText])
  | some e => simpa [Literal.exponentText] using h.symm

theorem fractionPart_exponentText (e : Option ℤ) :
    fractionPart (Literal.exponentText e) = some ([], Literal.exponentText e) := by
  cases e with
  | none => rfl
  | some e => rfl

theorem readBody (f n : ℕ) (e : Option ℤ) :
    ∃ ds fs rest, integerPart (Literal.pointText f (zeroPad (f + 1) n) ++ Literal.exponentText e) =
        some (ds, rest) ∧
      fractionPart rest = some (fs, Literal.exponentText e) ∧
      ds ++ fs = zeroPad (f + 1) n ∧ fs.length = f := by
  obtain ⟨ds, hds⟩ : ∃ ds, ds = zeroPad (f + 1) n := ⟨_, rfl⟩
  have hle := le_length_zeroPad (f + 1) n
  have hdigits : ∀ c ∈ ds, c.isDigit = true := by
    rw [hds]
    exact fun c hc => isDigit_of_mem_zeroPad hc
  rw [← hds] at hle
  rw [← hds]
  have hnotDigit : ∀ c, (Literal.exponentText e).head? = some c → c.isDigit = false := by
    intro c hc
    rw [exponentText_head hc]
    rfl
  obtain ⟨hne, hzero⟩ := integerDigits f n hds
  have hinteger : ∀ rest : List Char, (∀ c, rest.head? = some c → c.isDigit = false) →
      integerPart (ds.take (ds.length - f) ++ rest) = some (ds.take (ds.length - f), rest) := by
    intro rest hrest
    obtain ⟨htake, hdrop⟩ := span_class (p := Char.isDigit)
      (fun c hc => hdigits c (List.mem_of_mem_take hc)) hrest
    rw [integerPart, htake, hdrop, if_neg]
    rintro (h | ⟨h, hlength⟩)
    · exact hne h
    · rw [hzero h] at hlength
      exact absurd hlength (by simp)
  refine ⟨ds.take (ds.length - f), ds.drop (ds.length - f), ?_⟩
  by_cases hf : f = 0
  · subst hf
    refine ⟨Literal.exponentText e, ?_, ?_, List.take_append_drop _ _, by simp⟩
    · rw [Literal.pointText, if_pos rfl, List.append_nil]
      exact hinteger _ hnotDigit
    · rw [fractionPart_exponentText, Nat.sub_zero, List.drop_length]
  · refine ⟨'.' :: (ds.drop (ds.length - f) ++ Literal.exponentText e), ?_, ?_,
      List.take_append_drop _ _, by rw [List.length_drop]; omega⟩
    · rw [Literal.pointText, if_neg hf, List.append_assoc]
      exact hinteger _ fun c hc => by rw [← Option.some.inj hc]; rfl
    · obtain ⟨htake, hdrop⟩ := span_class (p := Char.isDigit)
        (fun c hc => hdigits c (List.mem_of_mem_drop hc)) hnotDigit
      rw [fractionPart, htake, hdrop, if_neg]
      intro h
      have hlength := congrArg List.length h
      rw [List.length_drop] at hlength
      simp only [List.length_nil] at hlength
      omega

theorem readLiteral_render (l : Literal) : readLiteral l.render = some l := by
  obtain ⟨negative, n, f, e⟩ := l
  obtain ⟨ds, fs, rest, hinteger, hfraction, hdigits, hlength⟩ := readBody f n e
  have hread : ∀ text, text = Literal.pointText f (zeroPad (f + 1) n) ++ Literal.exponentText e →
      (do
        let (ds, rest) ← integerPart text
        let (fs, rest) ← fractionPart rest
        let exponent ← exponentPart rest
        return (⟨negative, Nat.ofDigitChars 10 (ds ++ fs) 0, fs.length, exponent⟩ : Literal)) =
      some ⟨negative, n, f, e⟩ := by
    intro text htext
    rw [htext, hinteger]
    simp only [Option.bind_eq_bind, Option.bind_some, hfraction, exponentPart_exponentText]
    rw [hdigits, ofDigitChars_zeroPad, hlength]
    rfl
  cases negative with
  | true => exact hread _ rfl
  | false =>
    obtain ⟨c, rest, hbody, hc⟩ := Literal.body_head ⟨false, n, f, e⟩
    have hrender : Literal.render ⟨false, n, f, e⟩ = c :: rest := hbody
    have hhead : ((c :: rest).head? == some '-') = false := by
      refine beq_false_of_ne fun h => ?_
      rw [Option.some.inj h] at hc
      exact absurd hc (by decide)
    rw [readLiteral, hrender]
    simp only [hhead]
    exact hread _ hbody.symm

theorem ofLiteral_ofInt (i : ℤ) : ofLiteral (Literal.ofInt i) = .int i := by
  rw [ofLiteral, if_pos ⟨rfl, rfl⟩]
  rcases lt_or_ge i 0 with hneg | hpos
  · rw [Literal.ofInt, if_pos (decide_eq_true hneg)]
    congr 1
    show -((i.natAbs : ℕ) : ℤ) = i
    omega
  · rw [Literal.ofInt, if_neg (by simpa using hpos)]
    congr 1
    show ((i.natAbs : ℕ) : ℤ) = i
    omega

theorem ofLiteral_repr (x : Binary64) : ofLiteral (FloatText.repr x) = .float (.finite x) := by
  rw [ofLiteral, if_neg, nearest_repr]
  rintro ⟨hfraction, hexponent⟩
  simp only [FloatText.repr] at hfraction hexponent
  split at hfraction
  · rename_i h
    rw [if_pos h] at hexponent
    exact absurd hexponent (by simp)
  · rename_i h
    rw [if_neg h] at hexponent
    split at hfraction
    · exact absurd hfraction (by simp)
    · rename_i h'
      change (shortest x).exponent.natAbs = 0 at hfraction
      omega

theorem readToken_render {v : Json} {t : Token} (h : token v = some t) :
    readToken t.render = some v := by
  have hnumber : ∀ l, readToken (Token.render (.number l)) = some (ofLiteral l) := by
    intro l
    rw [Token.render, readToken, readLiteral_render]
  cases v with
  | null =>
    obtain rfl := Option.some.inj h
    rfl
  | bool b =>
    cases b with
    | true =>
      obtain rfl := Option.some.inj h
      rfl
    | false =>
      obtain rfl := Option.some.inj h
      rfl
  | int i =>
    obtain rfl := Option.some.inj h
    rw [hnumber, ofLiteral_ofInt]
  | float x =>
    cases x with
    | finite x =>
      obtain rfl := Option.some.inj h
      rw [hnumber, ofLiteral_repr]
    | infinite negative =>
      cases negative with
      | true =>
        obtain rfl := Option.some.inj h
        rfl
      | false =>
        obtain rfl := Option.some.inj h
        rfl
    | nan =>
      obtain rfl := Option.some.inj h
      rfl
  | str a => exact absurd h (by simp [token])
  | arr items => exact absurd h (by simp [token])
  | obj fields => exact absurd h (by simp [token])

theorem hexValue_digitChar : ∀ n < 16, hexValue (Nat.digitChar n) = some n := by
  decide

theorem readHex_hexDigits {n : ℕ} (hn : n < 0x10000) (r : List Char) :
    readHex (hexDigits 4 n ++ r) = some (n, r) := by
  have hdigit : ∀ m, hexValue (Nat.digitChar (m % 16)) = some (m % 16) :=
    fun m => hexValue_digitChar _ (Nat.mod_lt m (by omega))
  simp only [hexDigits, List.nil_append, List.cons_append, readHex, hdigit, Option.bind_eq_bind,
    Option.bind_some]
  congr 2
  omega

theorem readUnicode_basic {c : Char} (hn : c.toNat < 0x10000) (r : List Char) :
    readUnicode (hexDigits 4 c.toNat ++ r) = some (c, r) := by
  have hsurrogate := not_surrogate c
  rw [readUnicode, readHex_hexDigits hn]
  simp only [Option.bind_eq_bind, Option.bind_some]
  rw [if_pos (by omega), Char.ofNat_toNat]
  rfl

theorem readUnicode_pair {c : Char} {high low : ℕ}
    (hhigh : high = 0xd800 + (c.toNat - 0x10000) / 0x400)
    (hlow : low = 0xdc00 + (c.toNat - 0x10000) % 0x400) (hn : 0x10000 ≤ c.toNat)
    (r : List Char) :
    readUnicode (hexDigits 4 high ++ '\\' :: 'u' :: (hexDigits 4 low ++ r)) = some (c, r) := by
  have hc := toNat_lt c
  have hvalue : 0x10000 + (high - 0xd800) * 0x400 + (low - 0xdc00) = c.toNat := by omega
  rw [readUnicode, readHex_hexDigits (by omega)]
  simp only [Option.bind_eq_bind, Option.bind_some]
  rw [if_neg (by omega), readHex_hexDigits (by omega)]
  simp only [Option.bind_some]
  rw [if_pos (by omega), hvalue, Char.ofNat_toNat]
  rfl

theorem readChar_escape (text : List Char) : readChar ('\\' :: text) = readEscape text := rfl

theorem readEscape_unicode (text : List Char) : readEscape ('u' :: text) = readUnicode text := rfl

theorem readChar_escapeChar (style : Style) (c : Char) (r : List Char) :
    readChar (escapeChar style c ++ r) = some (c, r) := by
  rcases escapeChar_cases style c with ⟨h, -, hbackslash⟩ | ⟨e, h, he⟩ | ⟨h, hn⟩ | ⟨h, hn⟩
  · have hcontrol : ¬ c.toNat < 0x20 := by
      intro hcontrol
      unfold escapeChar at h
      split at h
      · exact absurd h (by simp)
      · rw [if_pos hcontrol] at h
        exact absurd h (by simp [unicodeEscape])
    rw [h, List.singleton_append, readChar, if_neg hbackslash, if_neg hcontrol]
  · have hshort : isShortEscape e = true := by
      unfold shortEscape at he
      split_ifs at he <;> obtain rfl := Option.some.inj he <;> rfl
    rw [h, List.cons_append, readChar_escape, List.singleton_append, readEscape,
      if_neg (shortEscape_ne_u he), if_pos hshort, unescape_shortEscape he]
  · rw [h, unicodeEscape, List.cons_append, List.cons_append, readChar_escape, readEscape_unicode]
    exact readUnicode_basic hn r
  · rw [h, unicodeEscape, unicodeEscape, List.append_assoc, List.cons_append, List.cons_append,
      readChar_escape, readEscape_unicode]
    exact readUnicode_pair rfl rfl hn r

theorem readChars_escaped (style : Style) (cs r : List Char) {fuel : ℕ}
    (hfuel : cs.length < fuel) :
    readChars fuel (cs.flatMap (escapeChar style) ++ '"' :: r) = some (cs, r) := by
  induction cs generalizing fuel with
  | nil =>
    obtain ⟨fuel, rfl⟩ := Nat.exists_eq_succ_of_ne_zero (Nat.ne_of_gt hfuel)
    rfl
  | cons c cs ih =>
    obtain ⟨fuel, rfl⟩ := Nat.exists_eq_succ_of_ne_zero (Nat.ne_of_gt (Nat.zero_lt_of_lt hfuel))
    obtain ⟨d, rest, hd, hquote⟩ := escapeChar_head style c
    rw [List.flatMap_cons, List.append_assoc, readChars, if_neg]
    · rw [readChar_escapeChar]
      simp only [Option.bind_eq_bind, Option.bind_some]
      rw [ih (Nat.lt_of_succ_lt_succ hfuel)]
      rfl
    · rw [hd]
      exact fun h => hquote (Option.some.inj h)

theorem length_le_escaped (style : Style) (cs : List Char) :
    cs.length ≤ (cs.flatMap (escapeChar style)).length := by
  induction cs with
  | nil => exact le_refl _
  | cons c cs ih =>
    obtain ⟨d, rest, hd, -⟩ := escapeChar_head style c
    rw [List.flatMap_cons, List.length_append, hd, List.length_cons, List.length_cons]
    omega

theorem readString_renderString (style : Style) (a : String) (r : List Char) :
    ∃ text, renderString style a ++ r = '"' :: text ∧ readString text = some (a, r) := by
  refine ⟨a.toList.flatMap (escapeChar style) ++ '"' :: r, by simp [renderString], ?_⟩
  have hlength := length_le_escaped style a.toList
  rw [readString, readChars_escaped style a.toList r (by rw [List.length_append]; omega)]
  simp

theorem skip_cons {c : Char} (h : isBlank c = false) (r : List Char) :
    skip (c :: r) = c :: r := by
  rw [skip, List.dropWhile_cons_of_neg (by simp [h])]

theorem isBlank_of_isTokenChar {c : Char} (h : isTokenChar c = true) : isBlank c = false := by
  cases hblank : isBlank c with
  | false => rfl
  | true =>
    simp only [isBlank, Bool.or_eq_true, beq_iff_eq] at hblank
    rcases hblank with ((rfl | rfl) | rfl) | rfl <;> exact absurd h (by decide)

/-- A value's text starts with no blank and no closing bracket. -/
theorem render_head (style : Style) (v : Json) :
    ∃ c rest, render style v = c :: rest ∧ isBlank c = false ∧ kindOf c = kind v := by
  obtain ⟨c, rest, hrender, hkind⟩ := render_head_kind style v
  refine ⟨c, rest, hrender, ?_, hkind⟩
  by_cases hscalar : kind v = 0
  · obtain ⟨t, ht⟩ := (token_iff_kind v).mpr hscalar
    refine isBlank_of_isTokenChar (token_chars ht c ?_)
    rw [← render_of_token style ht, hrender]
    exact List.mem_cons_self
  · cases hblank : isBlank c with
    | false => rfl
    | true =>
      simp only [isBlank, Bool.or_eq_true, beq_iff_eq] at hblank
      rw [← hkind] at hscalar
      rcases hblank with ((rfl | rfl) | rfl) | rfl <;> exact absurd rfl hscalar

theorem skip_render (style : Style) (v : Json) (r : List Char) :
    skip (render style v ++ r) = render style v ++ r := by
  obtain ⟨c, rest, hrender, hblank, -⟩ := render_head style v
  rw [hrender, List.cons_append]
  exact skip_cons hblank _

/-- What stands behind the comma or the colon is skipped. -/
theorem itemSeparator_skip (style : Style) : ∃ sep, style.itemSeparator = ',' :: sep ∧
    ∀ text, skip (sep ++ text) = skip text := by
  unfold Style.itemSeparator
  split
  · exact ⟨[' '], rfl, fun text => rfl⟩
  · exact ⟨[], rfl, fun text => rfl⟩

theorem keySeparator_skip (style : Style) : ∃ sep, style.keySeparator = ':' :: sep ∧
    ∀ text, skip (sep ++ text) = skip text := by
  unfold Style.keySeparator
  split
  · exact ⟨[' '], rfl, fun text => rfl⟩
  · exact ⟨[], rfl, fun text => rfl⟩

/-- Fields with different keys are a dictionary as they stand. -/
theorem asDict_eq_self {fields : List (String × Json)} (h : (fields.map Prod.fst).Nodup) :
    asDict fields = fields := by
  have hall : ∀ (rest dict : List (String × Json)), ((dict ++ rest).map Prod.fst).Nodup →
      rest.foldl (fun dict field => setField dict field.1 field.2) dict = dict ++ rest := by
    intro rest
    induction rest with
    | nil =>
      intro dict _
      rw [List.foldl_nil, List.append_nil]
    | cons field rest ih =>
      intro dict hnodup
      have hfresh : field.1 ∉ dict.map Prod.fst := by
        rw [List.map_append, List.nodup_append] at hnodup
        intro hmem
        exact hnodup.2.2 _ hmem _ List.mem_cons_self rfl
      rw [List.foldl_cons, setField, if_neg hfresh, ih]
      · rw [List.append_assoc, List.singleton_append]
      · rw [List.append_assoc, List.singleton_append]
        exact hnodup
  exact hall fields [] h

theorem readValue_scalar (style : Style) {v : Json} {t : Token} (ht : token v = some t)
    {r : List Char} (hr : Stops r) (fuel : ℕ) :
    readValue (fuel + 1) (render style v ++ r) = some (v, r) := by
  have hkind : kind v = 0 := (token_iff_kind v).mp ⟨t, ht⟩
  obtain ⟨c, rest, hrender, -, hc⟩ := render_head style v
  have hclass : ∀ x ∈ render style v, isTokenChar x = true := by
    rw [render_of_token style ht]
    exact token_chars ht
  obtain ⟨htake, hdrop⟩ := span_class hclass hr
  rw [hrender, List.cons_append] at htake hdrop ⊢
  rw [hkind, kindOf] at hc
  have hquote : c ≠ '"' := fun h => by simp [h] at hc
  have hbracket : c ≠ '[' := fun h => by simp [h] at hc
  have hbrace : c ≠ '\x7b' := fun h => by simp [h] at hc
  rw [readValue, if_neg hquote, if_neg hbracket, if_neg hbrace, htake, hdrop, ← hrender,
    render_of_token style ht, readToken_render ht]
  rfl

mutual

/-- Whatever its layout, the text of a value reads back as the value. -/
theorem readValue_render (style : Style) (v : Json) (hv : UniqueKeys v) (r : List Char)
    (hr : Stops r) (fuel : ℕ) (hfuel : (render style v).length ≤ fuel) :
    readValue fuel (render style v ++ r) = some (v, r) := by
  obtain ⟨c, rest, hrender, -⟩ := render_head_kind style v
  obtain ⟨fuel, rfl⟩ : ∃ n, fuel = n + 1 := by
    rw [hrender, List.length_cons] at hfuel
    exact ⟨fuel - 1, by omega⟩
  match v with
  | .null => exact readValue_scalar style rfl hr fuel
  | .bool true => exact readValue_scalar style rfl hr fuel
  | .bool false => exact readValue_scalar style rfl hr fuel
  | .int i => exact readValue_scalar style rfl hr fuel
  | .float (.finite x) => exact readValue_scalar style rfl hr fuel
  | .float (.infinite true) => exact readValue_scalar style rfl hr fuel
  | .float (.infinite false) => exact readValue_scalar style rfl hr fuel
  | .float .nan => exact readValue_scalar style rfl hr fuel
  | .str a =>
    obtain ⟨text, htext, hread⟩ := readString_renderString style a r
    rw [JsonText.render, htext, readValue, if_pos rfl, hread]
    rfl
  | .arr [] =>
    rfl
  | .arr (item :: items) =>
    rw [JsonText.render] at hfuel ⊢
    simp only [List.cons_append, List.append_assoc, List.length_cons] at hfuel ⊢
    obtain ⟨d, rest', hd, -, hkind⟩ := render_head style item
    rw [readValue, if_neg (by decide), if_pos rfl, skip_render, if_neg]
    · rw [List.nil_append, readItems_render style item items hv.1 hv.2 r fuel
        (by simp only [List.length_append] at hfuel ⊢; omega)]
      rfl
    · rw [hd]
      intro h
      rw [Option.some.inj h] at hkind
      cases item <;> exact absurd hkind (by simp [kind, kindOf])
  | .obj [] =>
    rfl
  | .obj ((key, value) :: fields) =>
    rw [JsonText.render] at hfuel ⊢
    simp only [List.cons_append, List.append_assoc, List.length_cons] at hfuel ⊢
    obtain ⟨text, htext, -⟩ := readString_renderString style key
      (style.keySeparator ++ (render style value ++ (renderFields style fields ++ '\x7d' :: r)))
    have hskip : ∀ rest, skip (renderString style key ++ rest) = renderString style key ++ rest :=
      fun rest => skip_cons rfl _
    rw [readValue, if_neg (by decide), if_neg (by decide), if_pos rfl, hskip, if_neg]
    · rw [List.nil_append, readFields_render style key value fields hv.2.1 hv.2.2 r fuel
        (by simp only [List.length_append] at hfuel ⊢; omega)]
      rw [Option.map_some, asDict_eq_self hv.1]
    · exact fun h => absurd (Option.some.inj h) (by decide)
termination_by fuel

theorem readItems_render (style : Style) (item : Json) (items : List Json) (hitem : UniqueKeys item)
    (hitems : UniqueItems items) (r : List Char) (fuel : ℕ)
    (hfuel : (render style item ++ (renderItems style items ++ [']'])).length ≤ fuel) :
    readItems fuel (render style item ++ (renderItems style items ++ ']' :: r)) =
      some (item :: items, r) := by
  simp only [List.length_append, List.length_singleton] at hfuel
  obtain ⟨fuel, rfl⟩ : ∃ n, fuel = n + 1 := ⟨fuel - 1, by omega⟩
  rw [readItems, readValue_render style item hitem _ (stops_items style items r) fuel (by omega)]
  match items with
  | [] =>
    rfl
  | next :: items =>
    obtain ⟨sep, hsep, hskip⟩ := itemSeparator_skip style
    simp only [renderItems, hsep, List.cons_append, List.append_assoc, List.length_cons,
      List.length_append] at hfuel ⊢
    rw [skip_cons rfl, List.head?_cons, if_neg (by decide), if_pos rfl, List.tail_cons, hskip,
      skip_render, readItems_render style next items hitems.1 hitems.2 r fuel
      (by simp only [List.length_append, List.length_singleton]; omega)]
    rfl
termination_by fuel

theorem readFields_render (style : Style) (key : String) (value : Json)
    (fields : List (String × Json)) (hvalue : UniqueKeys value) (hfields : UniqueFields fields)
    (r : List Char) (fuel : ℕ)
    (hfuel : (renderString style key ++ (style.keySeparator ++ (render style value ++
      (renderFields style fields ++ ['\x7d'])))).length ≤ fuel) :
    readFields fuel (renderString style key ++ (style.keySeparator ++ (render style value ++
      (renderFields style fields ++ '\x7d' :: r)))) = some ((key, value) :: fields, r) := by
  simp only [List.length_append, List.length_singleton] at hfuel
  obtain ⟨fuel, rfl⟩ : ∃ n, fuel = n + 1 := ⟨fuel - 1, by omega⟩
  obtain ⟨colon, hcolon, hskipColon⟩ := keySeparator_skip style
  obtain ⟨text, htext, hread⟩ := readString_renderString style key
    (style.keySeparator ++ (render style value ++ (renderFields style fields ++ '\x7d' :: r)))
  rw [htext, readFields, List.head?_cons, if_pos rfl, List.tail_cons, hread]
  simp only [hcolon, List.cons_append]
  rw [skip_cons rfl, List.head?_cons, if_pos rfl, List.tail_cons, hskipColon, skip_render,
    readValue_render style value hvalue _ (stops_fields style fields r) fuel (by omega)]
  match fields with
  | [] =>
    rfl
  | (key', value') :: fields =>
    obtain ⟨sep, hsep, hskip⟩ := itemSeparator_skip style
    have hquote : ∀ rest, skip (renderString style key' ++ rest) = renderString style key' ++ rest :=
      fun rest => skip_cons rfl _
    simp only [renderFields, hsep, List.cons_append, List.append_assoc, List.length_cons,
      List.length_append] at hfuel ⊢
    rw [skip_cons rfl, List.head?_cons, if_neg (by decide), if_pos rfl, List.tail_cons, hskip,
      hquote, readFields_render style key' value' fields hfields.1 hfields.2 r fuel
      (by simp only [List.length_append, List.length_singleton]; omega)]
    rfl
termination_by fuel

end

theorem loads_dumps (style : Style) (v : Json) (hv : UniqueKeys v) :
    loads (dumps style v) = some v := by
  have hread := readValue_render style v hv [] (by simp [Stops])
    ((render style v).length + 1) (by omega)
  have hskip := skip_render style v []
  rw [List.append_nil] at hread hskip
  rw [loads, dumps, String.toList_ofList, hskip, hread]
  rfl

end ContextLedger.JsonReader
