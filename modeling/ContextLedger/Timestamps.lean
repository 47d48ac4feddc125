import ContextLedger.Values

/-!
The text of a timestamp in UTC tells the instant. A day number is recovered from
its date by counting the days of the eras, years and months before it, and the
clock time from its digits: each group of digits ends at the first character that
is not one, so neither a missing fraction nor a long year makes two texts agree.
-/
namespace ContextLedger.Timestamps

open Numerals Values

/-- The year of an era that a day falls in starts at most 365 days before that day. -/
theorem yearOfEra_bounds {e : ℕ} (h : e < 146097) :
    let y := (e - e / 1460 + e / 36524 - e / 146096) / 365
    y < 400 ∧ 365 * y + y / 4 - y / 100 ≤ e ∧ e < 365 * y + y / 4 - y / 100 + 366 := by
  intro y
  rcases Nat.eq_or_lt_of_le (Nat.le_of_lt_succ h) with rfl | hlt
  · decide
  · have hlast : e / 146096 = 0 := Nat.div_eq_of_lt hlt
    have hy : y = (e - e / 1460 + e / 36524) / 365 := by
      simp only [y, hlast, Nat.sub_zero]
    have hcentury : y / 100 = e / 36524 := by
      rw [hy]
      have hf : e / 36524 = 0 ∨ e / 36524 = 1 ∨ e / 36524 = 2 ∨ e / 36524 = 3 := by omega
      rcases hf with hf | hf | hf | hf
      all_goals
        rw [hf]
        omega
    clear_value y
    have hleap : y / 4 ≤ e / 1460 ∧ e / 1460 ≤ y / 4 + 1 := by omega
    rw [hcentury]
    omega

/-- Day and month of a date tell the day of the year, counted from March. -/
theorem dayOfYear_inj {m n : ℕ} (hm : m < 366) (hn : n < 366)
    (hmonth : (if (5 * m + 2) / 153 < 10 then (5 * m + 2) / 153 + 3 else (5 * m + 2) / 153 - 9) =
      if (5 * n + 2) / 153 < 10 then (5 * n + 2) / 153 + 3 else (5 * n + 2) / 153 - 9)
    (hday : m - (153 * ((5 * m + 2) / 153) + 2) / 5 + 1 =
      n - (153 * ((5 * n + 2) / 153) + 2) / 5 + 1) : m = n := by
  have hshifted : (5 * m + 2) / 153 = (5 * n + 2) / 153 := by
    split at hmonth <;> split at hmonth <;> omega
  rw [hshifted] at hday
  omega

theorem civilDate_injective : Function.Injective civilDate := by
  intro a b h
  have hdayOfEra : ∀ d : ℤ, ((d + 719468) % 146097).toNat < 146097 := by
    intro d
    omega
  obtain ⟨hyearA, hfromA, htoA⟩ := yearOfEra_bounds (hdayOfEra a)
  obtain ⟨hyearB, hfromB, htoB⟩ := yearOfEra_bounds (hdayOfEra b)
  simp only [civilDate, Prod.mk.injEq] at h
  obtain ⟨hyear, hmonth, hday⟩ := h
  rw [hmonth] at hyear
  have hdayOfYear := dayOfYear_inj (Nat.sub_lt_left_of_lt_add hfromA htoA)
    (Nat.sub_lt_left_of_lt_add hfromB htoB) hmonth hday
  clear hmonth hday
  generalize hA : ((a + 719468) % 146097).toNat = eA at *
  generalize hB : ((b + 719468) % 146097).toNat = eB at *
  generalize (eA - eA / 1460 + eA / 36524 - eA / 146096) / 365 = yA at *
  generalize (eB - eB / 1460 + eB / 36524 - eB / 146096) / 365 = yB at *
  have heras : (yA : ℤ) + (a + 719468) / 146097 * 400 = yB + (b + 719468) / 146097 * 400 :=
    add_right_cancel hyear
  clear hyear
  have hyears : yA = yB ∧ (a + 719468) / 146097 = (b + 719468) / 146097 := by omega
  obtain ⟨rfl, hera⟩ := hyears
  have hdays : eA = eB := by
    rw [← Nat.sub_add_cancel hfromA, hdayOfYear, Nat.sub_add_cancel hfromB]
  omega

/-- A group of digits ends where the rest starts. -/
theorem zeroPad_append_inj {width m n : ℕ} {r s : List Char}
    (hr : ∀ c, r.head? = some c → c.isDigit = false)
    (hs : ∀ c, s.head? = some c → c.isDigit = false)
    (h : zeroPad width m ++ r = zeroPad width n ++ s) : m = n ∧ r = s := by
  obtain ⟨hdigits, hrest⟩ := append_inj_of_class Char.isDigit (fun _ => isDigit_of_mem_zeroPad)
    (fun _ => isDigit_of_mem_zeroPad) hr hs h
  exact ⟨zeroPad_injective width hdigits, hrest⟩

theorem head_cons {c : Char} (hc : c.isDigit = false) (l : List Char) :
    ∀ d, (c :: l).head? = some d → d.isDigit = false := by
  intro d hd
  rw [← Option.some.inj hd]
  exact hc

/-- What follows the seconds of a clock time. -/
def fractionText (micros : ℕ) : List Char := if micros = 0 then [] else '.' :: zeroPad 6 micros

theorem fractionText_append_inj {m n : ℕ} {rest : List Char}
    (h : fractionText m ++ '+' :: rest = fractionText n ++ '+' :: rest) : m = n := by
  unfold fractionText at h
  split at h <;> split at h
  · simp_all
  · exact absurd (List.cons.inj h).1 (by decide)
  · exact absurd (List.cons.inj h).1 (by decide)
  · exact (zeroPad_append_inj (head_cons (by decide) rest) (head_cons (by decide) rest)
      (List.cons.inj h).2).1

theorem clockText_append_inj {m n : ℕ} {rest : List Char}
    (h : clockText m ++ '+' :: rest = clockText n ++ '+' :: rest) : m = n := by
  have hhead : ∀ micros d, (fractionText micros ++ '+' :: rest).head? = some d →
      d.isDigit = false := by
    intro micros
    unfold fractionText
    split
    · exact head_cons (by decide) rest
    · exact head_cons (by decide) _
  have hclock : ∀ micros, clockText micros ++ '+' :: rest =
      zeroPad 2 (micros / 1000000 / 3600) ++ (':' :: (zeroPad 2 (micros / 1000000 / 60 % 60) ++
        (':' :: (zeroPad 2 (micros / 1000000 % 60) ++
          (fractionText (micros % 1000000) ++ '+' :: rest))))) := by
    intro micros
    simp [clockText, fractionText]
  rw [hclock, hclock] at h
  obtain ⟨hhours, h⟩ := zeroPad_append_inj (head_cons (by decide) _) (head_cons (by decide) _) h
  obtain ⟨hminutes, h⟩ := zeroPad_append_inj (head_cons (by decide) _) (head_cons (by decide) _)
    (List.cons.inj h).2
  obtain ⟨hseconds, h⟩ := zeroPad_append_inj (hhead _) (hhead _) (List.cons.inj h).2
  have hfraction := fractionText_append_inj h
  omega

theorem civilDate_year_nonneg {d : ℤ} (h : -719162 ≤ d) : 0 ≤ (civilDate d).1 := by
  have hera : 0 ≤ (d + 719468) / 146097 := by omega
  simp only [civilDate]
  split <;> omega

/-- From the year 1 on, different instants have different texts. -/
theorem isoformat_inj {s t : Instant} (hs : -719162 * day ≤ s) (ht : -719162 * day ≤ t)
    (h : isoformat s = isoformat t) : s = t := by
  have hday : (0 : ℤ) < day := by decide
  have hyear : ∀ u : Instant, -719162 * day ≤ u → 0 ≤ (civilDate (u / day)).1 := by
    intro u hu
    exact civilDate_year_nonneg ((Int.le_ediv_iff_mul_le hday).mpr hu)
  have htext : ∀ u : Instant, (isoformat u).toList =
      zeroPad 4 (civilDate (u / day)).1.toNat ++ ('-' :: (zeroPad 2 (civilDate (u / day)).2.1 ++
        ('-' :: (zeroPad 2 (civilDate (u / day)).2.2 ++
          ('T' :: (clockText (u % day).toNat ++ '+' :: (clockText 0).take 5)))))) := by
    intro u
    simp [isoformat, Datetime.isoformat, offsetText]
  have hlist := congrArg String.toList h
  rw [htext, htext] at hlist
  obtain ⟨hyears, hlist⟩ :=
    zeroPad_append_inj (head_cons (by decide) _) (head_cons (by decide) _) hlist
  obtain ⟨hmonths, hlist⟩ :=
    zeroPad_append_inj (head_cons (by decide) _) (head_cons (by decide) _) (List.cons.inj hlist).2
  obtain ⟨hdays, hlist⟩ :=
    zeroPad_append_inj (head_cons (by decide) _) (head_cons (by decide) _) (List.cons.inj hlist).2
  have hclock := clockText_append_inj (List.cons.inj hlist).2
  have hdate : s / day = t / day := by
    apply civilDate_injective
    refine Prod.ext ?_ (Prod.ext hmonths hdays)
    rw [← Int.toNat_of_nonneg (hyear s hs), hyears, Int.toNat_of_nonneg (hyear t ht)]
  have hclock' : s % day = t % day := by
    rw [← Int.toNat_of_nonneg (Int.emod_nonneg s hday.ne'), hclock,
      Int.toNat_of_nonneg (Int.emod_nonneg t hday.ne')]
  rw [← Int.mul_ediv_add_emod s day, hdate, hclock', Int.mul_ediv_add_emod]

end ContextLedger.Timestamps
