import PlaybackCues.Proofs.Text.Digits
import PlaybackCues.Proofs.Time.Calendars
import PlaybackCues.Time.Text

set_option autoImplicit false

/-!
# Reading timestamps

A timestamp that can be told reads back from its written form, and only such timestamps are ever
read. Each part of the text is read as it was written, whatever follows it.
-/
namespace PlaybackCues.Timestamp

/-! ## Parts of a timestamp -/

variable {rest : List Char}

theorem isBlank_of_isDigit {c : Char} (h : c.isDigit = true) : Blank.isBlank c = false := by
  simp only [Char.isDigit, Bool.and_eq_true, decide_eq_true_eq] at h
  have hlow : 48 ≤ c.toNat := h.1
  have hhigh : c.toNat ≤ 57 := h.2
  simp [Blank.isBlank, Blank.ranges]
  omega

theorem skip_digits {ds : List Char} (h : ∀ c ∈ ds, c.isDigit = true) (hne : ds ≠ []) :
    Blank.skip (ds ++ rest) = ds ++ rest := by
  obtain ⟨c, cs, rfl⟩ := List.exists_cons_of_ne_nil hne
  exact List.dropWhile_cons_of_neg (by simp [isBlank_of_isDigit (h c List.mem_cons_self)])

theorem number?_padded {width n : Nat} (hwidth : 0 < width) (h : n < 10 ^ width) :
    number? width (Digits.padded width n ++ rest) = some (n, rest) := by
  have hdigit : ∀ c ∈ Digits.padded width n, c.isDigit = true :=
    fun _ => Digits.isDigit_of_mem_padded
  have hlength := Digits.length_padded hwidth h
  have hall : ((Digits.padded width n ++ rest).take width).takeWhile Char.isDigit =
      Digits.padded width n := by
    rw [List.take_append_of_le_length hlength.ge, List.take_of_length_le hlength.le,
      ← List.append_nil (Digits.padded width n), List.takeWhile_append_of_pos hdigit,
      List.takeWhile_nil]
  simp only [number?, skip_digits hdigit (Digits.padded_ne_nil _ _), hall,
    if_neg (Digits.padded_ne_nil width n), Digits.value_padded, List.drop_left]

theorem mark?_cons {c : Char} (h : Blank.isBlank c = false) : mark? c (c :: rest) = some rest := by
  rw [mark?, Blank.skip, List.dropWhile_cons_of_neg (by simp [h])]
  simp

theorem year?_of_isDigit {c : Char} {cs : List Char} (h : c.isDigit = true) :
    year? (c :: cs) = (number? 4 (c :: cs)).map fun r => ((r.1 : Int), r.2) := by
  have hkeep : Blank.skip (c :: cs) = c :: cs :=
    List.dropWhile_cons_of_neg (by simp [isBlank_of_isDigit h])
  rw [year?, hkeep]
  split
  · rename_i heq
    obtain ⟨rfl, -⟩ := List.cons.inj heq
    cases h
  · rename_i heq
    obtain ⟨rfl, -⟩ := List.cons.inj heq
    cases h
  · rfl

theorem year?_yearText (y : Int) : year? (yearText y ++ '-' :: rest) = some (y, '-' :: rest) := by
  have hdigit : ∀ n, ∀ c ∈ Digits.padded 4 n, c.isDigit = true :=
    fun _ _ => Digits.isDigit_of_mem_padded
  have hrun : ∀ n, Digits.run? (Digits.padded 4 n ++ '-' :: rest) =
      some (Digits.padded 4 n, '-' :: rest) := fun n =>
    Digits.run?_of_isDigit (hdigit n) (Digits.padded_ne_nil 4 n) (by simp)
  unfold yearText
  by_cases hy : 0 ≤ y ∧ y ≤ 9999
  · have hnumber : number? 4 (Digits.padded 4 y.toNat ++ '-' :: rest) =
        some (y.toNat, '-' :: rest) := number?_padded (by decide) (by omega)
    obtain ⟨c, cs, hcs⟩ := List.exists_cons_of_ne_nil (Digits.padded_ne_nil 4 y.toNat)
    have hc := hdigit y.toNat c (hcs ▸ List.mem_cons_self)
    rw [if_pos (by simpa using hy)]
    rw [hcs] at hnumber ⊢
    rw [List.cons_append, year?_of_isDigit hc, ← List.cons_append, hnumber, Option.map_some,
      Int.toNat_of_nonneg hy.1]
  · rw [if_neg (by simpa using hy)]
    by_cases hneg : y < 0
    · rw [if_pos hneg]
      change (Digits.run? (Digits.padded 4 y.natAbs ++ '-' :: rest)).map _ = _
      rw [hrun, Option.map_some, Digits.value_padded,
        Int.ofNat_natAbs_of_nonpos (Int.le_of_lt hneg), Int.neg_neg]
    · rw [if_neg hneg]
      change (Digits.run? (Digits.padded 4 y.natAbs ++ '-' :: rest)).map _ = _
      rw [hrun, Option.map_some, Digits.value_padded, Int.natAbs_of_nonneg (by omega)]

theorem fraction?_digits {width n : Nat} (hwidth : 0 < width) (hmost : width ≤ 9)
    (h : n < 10 ^ width) : fraction? ('.' :: Digits.padded width n ++ 'Z' :: rest) =
      some (n * tenTo (9 - width), 'Z' :: rest) := by
  have hlength := Digits.length_padded hwidth h
  have hrun : Digits.run? (Digits.padded width n ++ 'Z' :: rest) =
      some (Digits.padded width n, 'Z' :: rest) :=
    Digits.run?_of_isDigit (fun _ => Digits.isDigit_of_mem_padded) (Digits.padded_ne_nil _ _)
      (by simp)
  rw [List.cons_append, fraction?, hrun, Option.map_some]
  dsimp only
  rw [hlength, List.take_of_length_le (by omega), Digits.value_padded]

theorem fraction?_fractionText {nanos : Nat} (h : nanos < nanosPerSecond) :
    fraction? (fractionText nanos ++ 'Z' :: rest) = some (nanos, 'Z' :: rest) := by
  have hbound : nanos < 1000000000 := h
  unfold fractionText
  split
  · rename_i hzero
    rw [hzero]
    rfl
  split
  · rw [fraction?_digits (by decide) (by decide) (by omega)]
    have hexact : nanos / 1000000 * tenTo (9 - 3) = nanos :=
      Nat.div_mul_cancel (Nat.dvd_of_mod_eq_zero ‹_›)
    rw [hexact]
  split
  · rw [fraction?_digits (by decide) (by decide) (by omega)]
    have hexact : nanos / 1000 * tenTo (9 - 6) = nanos :=
      Nat.div_mul_cancel (Nat.dvd_of_mod_eq_zero ‹_›)
    rw [hexact]
  · rw [fraction?_digits (by decide) (by decide) hbound, Nat.sub_self]
    exact congrArg (fun n => some (n, 'Z' :: rest)) (Nat.mul_one nanos)

/-! ## Date and clock -/

/-- Nanoseconds beyond the second belong to a leap second, which ends a minute. -/
def WithinSecond (seconds : Int) (nanos : Nat) : Prop :=
  nanos < nanosPerSecond ∨ nanos < 2 * nanosPerSecond ∧ seconds % 60 = 59

instance (seconds : Int) (nanos : Nat) : Decidable (WithinSecond seconds nanos) :=
  inferInstanceAs (Decidable (_ ∨ _))

structure Told (t : Timestamp) : Prop where
  year : isYear t.date.year = true
  nanos : WithinSecond t.seconds t.nanos

variable {t : Timestamp}

theorem date?_written (h : t.Told) (rest : List Char) :
    date? (yearText t.date.year ++ '-' :: Digits.padded 2 t.date.month ++
      '-' :: Digits.padded 2 t.date.day ++ rest) = some (t.date, rest) := by
  have hvalid : t.date.isValid = true := CalendarDate.isValid_ofDays _
  obtain ⟨⟨⟨hfirst, hmonth⟩, hday⟩, hdays⟩ : ((1 ≤ t.date.month ∧ t.date.month ≤ 12) ∧
      1 ≤ t.date.day) ∧ t.date.day ≤ CalendarDate.daysInMonth t.date.year t.date.month := by
    simpa [CalendarDate.isValid] using hvalid
  have hlength : CalendarDate.daysInMonth t.date.year t.date.month ≤ 31 := by
    unfold CalendarDate.daysInMonth
    split <;> split <;> decide
  have hdash : Blank.isBlank '-' = false := by decide
  simp only [List.append_assoc, List.cons_append]
  simp only [date?, Option.bind_eq_bind, year?_yearText, Option.bind_some, mark?_cons hdash,
    number?_padded (by decide : 0 < 2) (show t.date.month < 10 ^ 2 by omega),
    number?_padded (by decide : 0 < 2) (show t.date.day < 10 ^ 2 by omega), hvalid, h.year]
  rfl

theorem clock?_written {clock nanos : Nat} (hclock : clock < secondsPerDay)
    (hnanos : WithinSecond clock nanos) (rest : List Char) :
    clock? (Digits.padded 2 (clock / 3600) ++ ':' :: Digits.padded 2 (clock / 60 % 60) ++
      ':' :: Digits.padded 2 (clock % 60 + nanos / nanosPerSecond) ++
      fractionText (nanos % nanosPerSecond) ++ 'Z' :: rest) = some (clock, nanos, 'Z' :: rest) := by
  have hcolon : Blank.isBlank ':' = false := by decide
  have hday : secondsPerDay = 86400 := rfl
  have hsecond : nanosPerSecond = 1000000000 := rfl
  -- The sixtieth second is the second before it and a whole second of nanoseconds.
  obtain ⟨hlast, hleap, hcount⟩ : clock % 60 + nanos / nanosPerSecond ≤ 60 ∧
      clock / 3600 * 3600 + clock / 60 % 60 * 60 + (clock % 60 + nanos / nanosPerSecond) -
        (clock % 60 + nanos / nanosPerSecond) / 60 = clock ∧
      nanos % nanosPerSecond +
        (clock % 60 + nanos / nanosPerSecond) / 60 * nanosPerSecond = nanos := by
    unfold WithinSecond at hnanos
    rw [hsecond] at hnanos ⊢
    rcases hnanos with hnanos | ⟨hnanos, hclock⟩
    · rw [Nat.div_eq_of_lt hnanos, Nat.mod_eq_of_lt hnanos]
      omega
    · omega
  simp only [List.append_assoc, List.cons_append]
  simp only [clock?, Option.bind_eq_bind, mark?_cons hcolon, Option.bind_some,
    number?_padded (by decide : 0 < 2) (show clock / 3600 < 10 ^ 2 by omega),
    number?_padded (by decide : 0 < 2) (show clock / 60 % 60 < 10 ^ 2 by omega),
    number?_padded (by decide : 0 < 2) (show clock % 60 + nanos / nanosPerSecond < 10 ^ 2 by omega),
    fraction?_fractionText (Nat.mod_lt nanos (by decide : 0 < nanosPerSecond))]
  rw [hleap, hcount, if_pos]
  simp only [Bool.and_eq_true, decide_eq_true_eq]
  exact ⟨⟨by omega, by omega⟩, hlast⟩

/-! ## Reading back -/

theorem read?_toChars (h : t.Told) : read? t.toChars = some t := by
  have hday : (secondsPerDay : Int) = 86400 := rfl
  have hbefore : (t.seconds % secondsPerDay).toNat < secondsPerDay := by
    have := Int.emod_lt_of_pos t.seconds (show (0 : Int) < secondsPerDay by decide)
    omega
  have hnanos : WithinSecond (t.seconds % secondsPerDay).toNat t.nanos := by
    rw [hday]
    exact h.nanos.imp id fun hleap => ⟨hleap.1, by omega⟩
  have hdate := date?_written h
  have hclock := clock?_written hbefore hnanos []
  have hseparator : ∀ cs, separator? ('T' :: cs) = some cs := fun _ => rfl
  have hoffset : offset? (Blank.skip ['Z']) = some (0, []) := by decide
  have hseconds :
      t.date.toDays * secondsPerDay + (t.seconds % secondsPerDay).toNat - 0 = t.seconds := by
    rw [date, CalendarDate.toDays_ofDays, hday]
    omega
  unfold toChars
  simp only [List.append_assoc, List.cons_append] at hdate hclock ⊢
  simp only [read?, hdate, Option.bind_eq_bind, Option.bind_some, hseparator, hclock, hoffset,
    hseconds]
  exact if_pos (by simpa [Blank.skip] using h.year)

/-! ## What is read -/

theorem fraction?_lt {cs rest : List Char} {nanos : Nat} (h : fraction? cs = some (nanos, rest)) :
    nanos < nanosPerSecond := by
  unfold fraction? at h
  split at h
  · obtain ⟨⟨ds, tail⟩, hrun, heq⟩ := Option.map_eq_some_iff.mp h
    cases heq
    have hdigit : ∀ c ∈ ds.take 9, c.isDigit = true := fun c hc =>
      Digits.isDigit_of_run? hrun c (List.mem_of_mem_take hc)
    calc
      Digits.value (ds.take 9) * tenTo (9 - ds.length) <
          10 ^ (ds.take 9).length * tenTo (9 - ds.length) :=
        Nat.mul_lt_mul_of_pos_right (Digits.value_lt hdigit) (tenTo_pos _)
      _ = 10 ^ (min 9 ds.length + (9 - ds.length)) := by
        rw [List.length_take]
        exact (Nat.pow_add ..).symm
      _ = nanosPerSecond := by
        rw [show min 9 ds.length + (9 - ds.length) = 9 by omega]
        rfl
  · cases h
    decide

theorem offsetSeconds?_mod {cs rest : List Char} {seconds : Nat}
    (h : offsetSeconds? cs = some (seconds, rest)) : seconds % 60 = 0 := by
  unfold offsetSeconds? at h
  split at h
  · split at h
    · simp only [Option.bind_eq_bind, Option.bind_eq_some_iff] at h
      obtain ⟨⟨minutes, tail⟩, -, h⟩ := h
      split at h
      · cases h
        omega
      · cases h
    · cases h
  · cases h

theorem offset?_mod {cs rest : List Char} {seconds : Int} (h : offset? cs = some (seconds, rest)) :
    seconds % 60 = 0 := by
  unfold offset? at h
  split at h
  · cases h
    rfl
  split at h
  · cases h
  split at h
  · cases h
    rfl
  split at h
  · obtain ⟨⟨n, tail⟩, hn, heq⟩ := Option.map_eq_some_iff.mp h
    cases heq
    have := offsetSeconds?_mod hn
    omega
  split at h
  · obtain ⟨⟨n, tail⟩, hn, heq⟩ := Option.map_eq_some_iff.mp h
    cases heq
    have := offsetSeconds?_mod hn
    omega
  · cases h

theorem clock?_nanos {cs rest : List Char} {clock nanos : Nat}
    (h : clock? cs = some (clock, nanos, rest)) : WithinSecond clock nanos := by
  simp only [clock?, Option.bind_eq_bind, Option.bind_eq_some_iff] at h
  obtain ⟨⟨hour, _⟩, -, _, -, ⟨minute, _⟩, -, _, -, ⟨second, _⟩, -, ⟨fraction, _⟩, hfraction, h⟩ := h
  have hlt := fraction?_lt hfraction
  unfold WithinSecond
  rw [show nanosPerSecond = 1000000000 from rfl] at hlt h ⊢
  split at h
  · rename_i hrange
    cases h
    simp only [Bool.and_eq_true, decide_eq_true_eq] at hrange
    dsimp only at hrange ⊢
    rcases Nat.lt_or_eq_of_le hrange.2 with hsecond | rfl
    · exact .inl (by rw [Nat.div_eq_of_lt hsecond]; omega)
    · exact .inr (by omega)
  · cases h

theorem told_of_read? {cs : List Char} (h : read? cs = some t) : t.Told := by
  simp only [read?, Option.bind_eq_bind, Option.bind_eq_some_iff] at h
  obtain ⟨⟨date, _⟩, -, _, -, ⟨clock, nanos, _⟩, hclock, ⟨offset, _⟩, hoffset, h⟩ := h
  split at h
  · rename_i htold
    cases h
    refine ⟨(Bool.and_eq_true_iff.mp htold).2, ?_⟩
    refine (clock?_nanos hclock).imp id fun hleap => ⟨hleap.1, ?_⟩
    have hmod := offset?_mod hoffset
    have hday : (secondsPerDay : Int) = 86400 := rfl
    dsimp only
    rw [hday]
    omega
  · cases h

/-- The timestamps that can be told are those that are read back. -/
theorem read?_toChars_iff : read? t.toChars = some t ↔ t.Told := ⟨told_of_read?, read?_toChars⟩

end PlaybackCues.Timestamp
