import Mathlib.Data.List.Basic
import Mathlib.Data.List.DropRight
import Mathlib.Data.Nat.Notation

/-!
Base 64 text. Three bytes are written as four characters of six bits each, and a
last group of one or two bytes is filled up with equals signs. The reader skips
characters outside the alphabet and stops at the padding of a group; it gives back
the bytes that were written.
-/
namespace ContextLedger.Base64

def alphabet : List Char :=
  "ABCDEFGHIJKLMNOPQRSTUVWXYZabcdefghijklmnopqrstuvwxyz0123456789+/".toList

def character (n : ℕ) : Char := alphabet.getD n 'A'

/-- Three bytes are four characters. -/
def b64encode : List UInt8 → List Char
  | [] => []
  | [a] => [character (a.toNat / 4), character (a.toNat % 4 * 16), '=', '=']
  | [a, b] =>
    [character (a.toNat / 4), character (a.toNat % 4 * 16 + b.toNat / 16),
     character (b.toNat % 16 * 4), '=']
  | a :: b :: c :: rest =>
    character (a.toNat / 4) :: character (a.toNat % 4 * 16 + b.toNat / 16) ::
      character (b.toNat % 16 * 4 + c.toNat / 64) :: character (c.toNat % 64) :: b64encode rest

def urlsafeCharacter (c : Char) : Char := if c = '+' then '-' else if c = '/' then '_' else c

/-- The alphabet that is safe in addresses, without the padding. -/
def urlsafeText (bytes : List UInt8) : String :=
  String.ofList (((b64encode bytes).map urlsafeCharacter).rdropWhile (· = '='))

def value (c : Char) : Option ℕ := alphabet.findIdx? (· == c)

/-- `quad` characters of the group have been read, `left` are the bits not yet written. -/
def readFrom : ℕ → ℕ → ℕ → List Char → Option (List UInt8)
  | quad, _, _, [] => if quad = 0 then some [] else none
  | quad, left, pads, c :: rest =>
    if c = '=' then
      if 2 ≤ quad then
        if 4 ≤ quad + (pads + 1) then some [] else readFrom quad left (pads + 1) rest
      else readFrom quad left pads rest
    else
      match value c with
      | none => readFrom quad left pads rest
      | some n =>
        match quad with
        | 0 => readFrom 1 n 0 rest
        | 1 => (readFrom 2 (n % 16) 0 rest).map (UInt8.ofNat (left * 4 + n / 16) :: ·)
        | 2 => (readFrom 3 (n % 4) 0 rest).map (UInt8.ofNat (left * 16 + n / 4) :: ·)
        | _ => (readFrom 0 0 0 rest).map (UInt8.ofNat (left * 64 + n) :: ·)

def b64decode (text : List Char) : Option (List UInt8) := readFrom 0 0 0 text

theorem length_b64encode (bytes : List UInt8) :
    (b64encode bytes).length = 4 * ((bytes.length + 2) / 3) := by
  induction bytes using b64encode.induct with
  | case1 => rfl
  | case2 a => simp [b64encode]
  | case3 a b => simp [b64encode]
  | case4 a b c rest ih =>
    simp only [b64encode, List.length_cons, ih]
    omega

/-- Dropping the padding makes the text no longer. -/
theorem length_urlsafeText (bytes : List UInt8) :
    (urlsafeText bytes).length ≤ 4 * ((bytes.length + 2) / 3) := by
  rw [urlsafeText, String.length_ofList]
  have hprefix := (List.rdropWhile_prefix (· = '=') ((b64encode bytes).map urlsafeCharacter))
  have hlength := hprefix.length_le
  rwa [List.length_map, length_b64encode] at hlength

/-- The reader looks a character up where the writer took it. -/
theorem value_character : ∀ n < 64, value (character n) = some n ∧ character n ≠ '=' := by
  decide

theorem urlsafeCharacter_ne_padding {n : ℕ} (hn : n < 64) :
    urlsafeCharacter (character n) ≠ '=' := by
  have hpad := (value_character n hn).2
  unfold urlsafeCharacter
  split_ifs
  · decide
  · decide
  · exact hpad

theorem urlsafeText_ne_empty {bytes : List UInt8} (h : bytes ≠ []) : urlsafeText bytes ≠ "" := by
  obtain ⟨a, rest, rfl⟩ := List.exists_cons_of_ne_nil h
  have ha := a.toNat_lt
  have hfirst : ∃ others, b64encode (a :: rest) = character (a.toNat / 4) :: others := by
    cases rest with
    | nil => exact ⟨_, rfl⟩
    | cons b rest =>
      cases rest with
      | nil => exact ⟨_, rfl⟩
      | cons c rest => exact ⟨_, rfl⟩
  obtain ⟨others, hothers⟩ := hfirst
  intro hempty
  have hnil : ((b64encode (a :: rest)).map urlsafeCharacter).rdropWhile (· = '=') = [] := by
    rw [← String.toList_ofList (l := List.rdropWhile _ _)]
    exact congrArg String.toList hempty
  rw [List.rdropWhile_eq_nil_iff, hothers] at hnil
  exact urlsafeCharacter_ne_padding (by omega) (of_decide_eq_true (hnil _ List.mem_cons_self))

/-- The four places of a group, as the reader meets them. -/
theorem readFrom_first {n : ℕ} (hn : n < 64) (rest : List Char) :
    readFrom 0 0 0 (character n :: rest) = readFrom 1 n 0 rest := by
  obtain ⟨hvalue, hpad⟩ := value_character n hn
  rw [readFrom, if_neg hpad, hvalue]
  rfl

theorem readFrom_second {n : ℕ} (hn : n < 64) (left : ℕ) (rest : List Char) :
    readFrom 1 left 0 (character n :: rest) =
      (readFrom 2 (n % 16) 0 rest).map (UInt8.ofNat (left * 4 + n / 16) :: ·) := by
  obtain ⟨hvalue, hpad⟩ := value_character n hn
  rw [readFrom, if_neg hpad, hvalue]
  rfl

theorem readFrom_third {n : ℕ} (hn : n < 64) (left : ℕ) (rest : List Char) :
    readFrom 2 left 0 (character n :: rest) =
      (readFrom 3 (n % 4) 0 rest).map (UInt8.ofNat (left * 16 + n / 4) :: ·) := by
  obtain ⟨hvalue, hpad⟩ := value_character n hn
  rw [readFrom, if_neg hpad, hvalue]
  rfl

theorem readFrom_fourth {n : ℕ} (hn : n < 64) (left : ℕ) (rest : List Char) :
    readFrom 3 left 0 (character n :: rest) =
      (readFrom 0 0 0 rest).map (UInt8.ofNat (left * 64 + n) :: ·) := by
  obtain ⟨hvalue, hpad⟩ := value_character n hn
  rw [readFrom, if_neg hpad, hvalue]
  rfl

/-- A number that is the byte's own value gives the byte. -/
theorem ofNat_eq_of_toNat {a : UInt8} {n : ℕ} (h : n = a.toNat) : UInt8.ofNat n = a := by
  rw [h]
  exact UInt8.ofNat_toNat

/-- Reading gives back the bytes that were written. -/
theorem b64decode_b64encode (bytes : List UInt8) : b64decode (b64encode bytes) = some bytes := by
  rw [b64decode]
  induction bytes using b64encode.induct with
  | case1 => rfl
  | case2 a =>
    have ha := a.toNat_lt
    rw [b64encode, readFrom_first (by omega), readFrom_second (by omega)]
    have hbyte : UInt8.ofNat (a.toNat / 4 * 4 + a.toNat % 4 * 16 / 16) = a :=
      ofNat_eq_of_toNat (by omega)
    rw [hbyte]
    rfl
  | case3 a b =>
    have ha := a.toNat_lt
    have hb := b.toNat_lt
    rw [b64encode, readFrom_first (by omega), readFrom_second (by omega),
      readFrom_third (by omega)]
    have hfirst : UInt8.ofNat (a.toNat / 4 * 4 + (a.toNat % 4 * 16 + b.toNat / 16) / 16) = a :=
      ofNat_eq_of_toNat (by omega)
    have hsecond : UInt8.ofNat ((a.toNat % 4 * 16 + b.toNat / 16) % 16 * 16 +
        b.toNat % 16 * 4 / 4) = b := ofNat_eq_of_toNat (by omega)
    rw [hfirst, hsecond]
    rfl
  | case4 a b c rest ih =>
    have ha := a.toNat_lt
    have hb := b.toNat_lt
    have hc := c.toNat_lt
    rw [b64encode, readFrom_first (by omega), readFrom_second (by omega),
      readFrom_third (by omega), readFrom_fourth (by omega), ih]
    have hfirst : UInt8.ofNat (a.toNat / 4 * 4 + (a.toNat % 4 * 16 + b.toNat / 16) / 16) = a :=
      ofNat_eq_of_toNat (by omega)
    have hsecond : UInt8.ofNat ((a.toNat % 4 * 16 + b.toNat / 16) % 16 * 16 +
        (b.toNat % 16 * 4 + c.toNat / 64) / 4) = b := ofNat_eq_of_toNat (by omega)
    have hthird : UInt8.ofNat ((b.toNat % 16 * 4 + c.toNat / 64) % 4 * 64 + c.toNat % 64) = c :=
      ofNat_eq_of_toNat (by omega)
    rw [hfirst, hsecond, hthird]
    rfl

end ContextLedger.Base64
