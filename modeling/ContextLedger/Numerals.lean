import Mathlib.Data.List.TakeWhile
import Mathlib.Algebra.Order.Field.Power
import Mathlib.Data.Rat.Defs
import Mathlib.Tactic.Ring
import Mathlib.Tactic.FieldSimp

/-!
Decimal text. Natural numbers are written in base ten, hexadecimal digits in a
fixed width, and number literals as a sign, a significand with a fixed count of
fraction digits and an optional exponent. Each of these texts determines what it
was written from, also when other text that cannot continue it comes behind.
-/
namespace ContextLedger.Numerals

/-- Two splits of one text agree when the first parts hold only characters of a
class and neither remainder starts with one. -/
theorem append_inj_of_class {α : Type*} (p : α → Bool) {a b r s : List α}
    (ha : ∀ x ∈ a, p x = true) (hb : ∀ x ∈ b, p x = true)
    (hr : ∀ x, r.head? = some x → p x = false) (hs : ∀ x, s.head? = some x → p x = false)
    (h : a ++ r = b ++ s) : a = b ∧ r = s := by
  induction a generalizing b with
  | nil =>
    cases b with
    | nil => exact ⟨rfl, h⟩
    | cons y b =>
      have hy : r.head? = some y := by simpa using congrArg List.head? h
      have hp := hb y (List.mem_cons_self ..)
      rw [hr y hy] at hp
      exact absurd hp (by simp)
  | cons x a ih =>
    cases b with
    | nil =>
      have hx : s.head? = some x := by simpa using congrArg List.head? h.symm
      have hp := ha x (List.mem_cons_self ..)
      rw [hs x hx] at hp
      exact absurd hp (by simp)
    | cons y b =>
      obtain ⟨rfl, htail⟩ := List.cons.inj h
      obtain ⟨rfl, hrest⟩ := ih (fun z hz => ha z (List.mem_cons_of_mem _ hz))
        (fun z hz => hb z (List.mem_cons_of_mem _ hz)) htail
      exact ⟨rfl, hrest⟩

/-- The text before a separator that does not occur in it. -/
theorem append_inj_of_separator {α : Type*} [DecidableEq α] {a b r s : List α} {c : α}
    (ha : c ∉ a) (hb : c ∉ b) (h : a ++ c :: r = b ++ c :: s) : a = b ∧ r = s := by
  obtain ⟨hab, hrs⟩ := append_inj_of_class (fun x => decide (x ≠ c))
    (a := a) (b := b) (r := c :: r) (s := c :: s)
    (fun x hx => by simpa using fun hxc : x = c => ha (hxc ▸ hx))
    (fun x hx => by simpa using fun hxc : x = c => hb (hxc ▸ hx))
    (by simp) (by simp) h
  exact ⟨hab, (List.cons.inj hrs).2⟩

def digits (n : ℕ) : List Char := Nat.toDigits 10 n

theorem isDigit_of_mem_digits {n : ℕ} {c : Char} (h : c ∈ digits n) : c.isDigit = true :=
  Nat.isDigit_of_mem_toDigits (by omega) (by omega) h

theorem ofDigitChars_digits (n : ℕ) : Nat.ofDigitChars 10 (digits n) 0 = n :=
  Nat.ofDigitChars_toDigits (by omega) (by omega)

theorem digits_injective : Function.Injective digits := by
  intro m n h
  have hvalue := congrArg (fun l => Nat.ofDigitChars 10 l 0) h
  simpa only [ofDigitChars_digits] using hvalue

theorem digits_ne_nil (n : ℕ) : digits n ≠ [] := Nat.toDigits_ne_nil

/-- Leading zeros up to the given width. -/
def zeroPad (width n : ℕ) : List Char :=
  List.replicate (width - (digits n).length) '0' ++ digits n

theorem ofDigitChars_zeroPad (width n : ℕ) : Nat.ofDigitChars 10 (zeroPad width n) 0 = n := by
  rw [zeroPad, Nat.ofDigitChars_append, Nat.ofDigitChars_replicate_zero, Nat.mul_zero]
  exact ofDigitChars_digits n

theorem isDigit_of_mem_zeroPad {width n : ℕ} {c : Char} (h : c ∈ zeroPad width n) :
    c.isDigit = true := by
  rcases List.mem_append.mp h with hzero | hdigit
  · rw [List.eq_of_mem_replicate hzero]
    rfl
  · exact isDigit_of_mem_digits hdigit

theorem le_length_zeroPad (width n : ℕ) : width ≤ (zeroPad width n).length := by
  simp only [zeroPad, List.length_append, List.length_replicate]
  omega

theorem zeroPad_injective (width : ℕ) : Function.Injective (zeroPad width) := by
  intro m n h
  have hvalue := congrArg (fun l => Nat.ofDigitChars 10 l 0) h
  simpa only [ofDigitChars_zeroPad] using hvalue

/-- Lower-case hexadecimal digits in a fixed width. -/
def hexDigits : ℕ → ℕ → List Char
  | 0, _ => []
  | width + 1, n => hexDigits width (n / 16) ++ [Nat.digitChar (n % 16)]

theorem length_hexDigits (width n : ℕ) : (hexDigits width n).length = width := by
  induction width generalizing n with
  | zero => rfl
  | succ width ih => simp [hexDigits, ih]

private theorem digitChar_inj_below : ∀ a < 16, ∀ b < 16,
    Nat.digitChar a = Nat.digitChar b → a = b := by decide

theorem hexDigits_inj {width m n : ℕ} (hm : m < 16 ^ width) (hn : n < 16 ^ width)
    (h : hexDigits width m = hexDigits width n) : m = n := by
  induction width generalizing m n with
  | zero =>
    rw [Nat.pow_zero] at hm hn
    omega
  | succ width ih =>
    obtain ⟨hhead, hlast⟩ := List.append_inj' h rfl
    have hdiv : m / 16 = n / 16 := by
      apply ih _ _ hhead
      · rw [Nat.pow_succ] at hm
        omega
      · rw [Nat.pow_succ] at hn
        omega
    have hmod : m % 16 = n % 16 := by
      apply digitChar_inj_below (m % 16) (by omega) (n % 16) (by omega)
      simpa using hlast
    omega

/-- A number as written: `significand` shifted right by `fraction` digits, then
by the exponent when there is one. -/
structure Literal where
  negative : Bool
  significand : ℕ
  fraction : ℕ
  exponent : Option ℤ
  deriving DecidableEq, Repr

namespace Literal

def magnitude (l : Literal) : ℚ :=
  l.significand * 10 ^ (l.exponent.getD 0 - (l.fraction : ℤ))

/-- An integer literal has neither a fraction nor an exponent. -/
def ofInt (i : ℤ) : Literal := ⟨decide (i < 0), i.natAbs, 0, none⟩

def exponentText : Option ℤ → List Char
  | none => []
  | some e => 'e' :: (if e < 0 then '-' else '+') :: zeroPad 2 e.natAbs

def pointText (fraction : ℕ) (ds : List Char) : List Char :=
  ds.take (ds.length - fraction) ++
    (if fraction = 0 then [] else '.' :: ds.drop (ds.length - fraction))

/-- At least one digit stands before the point; the exponent carries its sign. -/
def render (l : Literal) : List Char :=
  (if l.negative then ['-'] else []) ++
    (pointText l.fraction (zeroPad (l.fraction + 1) l.significand) ++ exponentText l.exponent)

/-- The characters number literals are written with. -/
def isNumberChar (c : Char) : Bool :=
  c.isDigit || c == '-' || c == '+' || c == '.' || c == 'e'

theorem exponentText_injective : Function.Injective exponentText := by
  intro a b h
  cases a with
  | none =>
    cases b with
    | none => rfl
    | some b => simp [exponentText] at h
  | some a =>
    cases b with
    | none => simp [exponentText] at h
    | some b =>
      obtain ⟨hsign, hdigits⟩ := List.cons.inj (List.cons.inj h).2
      have habs : a.natAbs = b.natAbs := zeroPad_injective 2 hdigits
      have hneg : a < 0 ↔ b < 0 := by
        split at hsign <;> split at hsign
        · simp_all
        · exact absurd hsign (by decide)
        · exact absurd hsign (by decide)
        · omega
      congr 1
      omega

private theorem pointText_split (fraction : ℕ) (ds : List Char) (h : fraction ≤ ds.length) :
    (ds.drop (ds.length - fraction)).length = fraction := by
  rw [List.length_drop]
  omega

private theorem pointText_rest_head (f : ℕ) (ds : List Char) (c : Char)
    (h : (if f = 0 then [] else '.' :: ds).head? = some c) : c.isDigit = false := by
  split at h
  · simp at h
  · obtain rfl : '.' = c := Option.some.inj h
    rfl

theorem pointText_inj {f g : ℕ} {ds es : List Char}
    (hds : ∀ c ∈ ds, c.isDigit = true) (hes : ∀ c ∈ es, c.isDigit = true)
    (hf : f ≤ ds.length) (hg : g ≤ es.length)
    (h : pointText f ds = pointText g es) : f = g ∧ ds = es := by
  obtain ⟨htake, hrest⟩ := append_inj_of_class Char.isDigit
    (fun c hc => hds c (List.mem_of_mem_take hc)) (fun c hc => hes c (List.mem_of_mem_take hc))
    (pointText_rest_head f _) (pointText_rest_head g _) h
  by_cases hf0 : f = 0 <;> by_cases hg0 : g = 0
  · subst hf0 hg0
    refine ⟨rfl, ?_⟩
    simpa using htake
  · simp [hf0, hg0] at hrest
  · simp [hf0, hg0] at hrest
  · rw [if_neg hf0, if_neg hg0] at hrest
    have hdrop := (List.cons.inj hrest).2
    constructor
    · have hlen := congrArg List.length hdrop
      rwa [pointText_split f ds hf, pointText_split g es hg] at hlen
    · rw [← List.take_append_drop (ds.length - f) ds, htake, hdrop, List.take_append_drop]

private theorem pointText_class {f : ℕ} {ds : List Char} (hds : ∀ c ∈ ds, c.isDigit = true)
    {c : Char} (hc : c ∈ pointText f ds) : (c.isDigit || c == '.') = true := by
  rcases List.mem_append.mp hc with htake | hrest
  · simp [hds c (List.mem_of_mem_take htake)]
  · split at hrest
    · simp at hrest
    · rcases List.mem_cons.mp hrest with rfl | hdrop
      · simp
      · simp [hds c (List.mem_of_mem_drop hdrop)]

theorem body_head (l : Literal) :
    ∃ c rest, pointText l.fraction (zeroPad (l.fraction + 1) l.significand) ++
      exponentText l.exponent = c :: rest ∧ c.isDigit = true := by
  have hlen := le_length_zeroPad (l.fraction + 1) l.significand
  obtain ⟨c, ds, hds⟩ : ∃ c ds, zeroPad (l.fraction + 1) l.significand = c :: ds := by
    cases h : zeroPad (l.fraction + 1) l.significand with
    | nil => simp [h] at hlen
    | cons c ds => exact ⟨c, ds, rfl⟩
  have hc : c.isDigit = true :=
    isDigit_of_mem_zeroPad (show c ∈ zeroPad (l.fraction + 1) l.significand by simp [hds])
  obtain ⟨k, hk⟩ : ∃ k, (zeroPad (l.fraction + 1) l.significand).length - l.fraction = k + 1 :=
    ⟨(zeroPad (l.fraction + 1) l.significand).length - l.fraction - 1, by omega⟩
  rw [pointText, hk, hds, List.take_succ_cons, List.append_assoc, List.cons_append]
  exact ⟨c, _, rfl, hc⟩

private theorem exponentText_head (e : Option ℤ) (c : Char) (h : (exponentText e).head? = some c) :
    (c.isDigit || c == '.') = false := by
  cases e with
  | none => simp [exponentText] at h
  | some e =>
    obtain rfl : 'e' = c := by simpa [exponentText] using h
    rfl

private theorem body_inj {l m : Literal}
    (h : pointText l.fraction (zeroPad (l.fraction + 1) l.significand) ++ exponentText l.exponent =
      pointText m.fraction (zeroPad (m.fraction + 1) m.significand) ++ exponentText m.exponent) :
    l.significand = m.significand ∧ l.fraction = m.fraction ∧ l.exponent = m.exponent := by
  have hl := le_length_zeroPad (l.fraction + 1) l.significand
  have hm := le_length_zeroPad (m.fraction + 1) m.significand
  obtain ⟨hpoint, hexp⟩ := append_inj_of_class (fun c => c.isDigit || c == '.')
    (fun c hc => pointText_class (fun _ h => isDigit_of_mem_zeroPad h) hc)
    (fun c hc => pointText_class (fun _ h => isDigit_of_mem_zeroPad h) hc)
    (exponentText_head l.exponent) (exponentText_head m.exponent) h
  obtain ⟨hfraction, hdigits⟩ := pointText_inj (fun _ h => isDigit_of_mem_zeroPad h)
    (fun _ h => isDigit_of_mem_zeroPad h) (by omega) (by omega) hpoint
  rw [hfraction] at hdigits
  exact ⟨zeroPad_injective _ hdigits, hfraction, exponentText_injective hexp⟩

/-- A literal can be read back from its text. -/
theorem render_injective : Function.Injective render := by
  intro l m h
  obtain ⟨c, rest, hl, hc⟩ := body_head l
  obtain ⟨d, rest', hm, hd⟩ := body_head m
  have hsign : l.negative = m.negative := by
    cases hln : l.negative <;> cases hmn : m.negative
    · rfl
    · simp only [render, hln, hmn, hl, hm] at h
      obtain ⟨rfl, -⟩ := List.cons.inj h
      exact absurd hc (by decide)
    · simp only [render, hln, hmn, hl, hm] at h
      obtain ⟨rfl, -⟩ := List.cons.inj h
      exact absurd hd (by decide)
    · rfl
  rw [render, render, hsign] at h
  obtain ⟨hsignificand, hfraction, hexponent⟩ := body_inj (List.append_cancel_left h)
  cases l
  cases m
  simp_all

theorem render_isNumberChar (l : Literal) (c : Char) (hc : c ∈ l.render) :
    isNumberChar c = true := by
  rcases List.mem_append.mp hc with hsign | hbody
  · split at hsign
    · rw [List.mem_singleton.mp hsign]
      rfl
    · simp at hsign
  · rcases List.mem_append.mp hbody with hpoint | hexp
    · have h := pointText_class (fun _ h => isDigit_of_mem_zeroPad h) hpoint
      simp only [isNumberChar]
      rcases Bool.or_eq_true_iff.mp h with h | h <;> simp [h]
    · cases he : l.exponent with
      | none => simp [he, exponentText] at hexp
      | some e =>
        simp only [he, exponentText, List.mem_cons] at hexp
        rcases hexp with rfl | hmark | hpad
        · rfl
        · split at hmark <;> subst hmark <;> rfl
        · simp [isNumberChar, isDigit_of_mem_zeroPad hpad]

theorem render_ne_nil (l : Literal) : l.render ≠ [] := by
  obtain ⟨c, rest, hl, -⟩ := body_head l
  rw [render, hl]
  simp

/-- A literal starts with a digit, or with a minus sign and a digit. -/
theorem render_head (l : Literal) :
    ∃ c rest, c.isDigit = true ∧ (l.render = c :: rest ∨ l.render = '-' :: c :: rest) := by
  obtain ⟨c, rest, hl, hc⟩ := body_head l
  refine ⟨c, rest, hc, ?_⟩
  rw [render, hl]
  cases l.negative
  · exact Or.inl rfl
  · exact Or.inr rfl

end Literal

end ContextLedger.Numerals
