import PlaybackCues.Json.Writer
import PlaybackCues.Json.Reader
import PlaybackCues.Proofs.Number.Fractions
import PlaybackCues.Proofs.Text.Digits

set_option autoImplicit false

/-!
# Reading numbers in JSON

What stands behind a number in a text never changes how it is read: a comma or a closing bracket
ends each of its parts. So a number is read back from a whole text if it is read back on its own,
which whole numbers of 64 bits are. Whatever is read as a double is finite.
-/
namespace PlaybackCues

def Json.Closed (rest : List Char) : Prop := ∀ c ∈ rest.head?, c = ',' ∨ c = ']' ∨ c = '\x7d'

theorem Json.Closed.not_isDigit {rest : List Char} (h : Json.Closed rest) :
    ∀ c ∈ rest.head?, c.isDigit = false := fun c hc => by
  rcases h c hc with rfl | rfl | rfl <;> rfl

namespace JsonLiteral

open Json

/-! ## Parts of a number -/

/-- A part is read the same, whatever stands behind the text. -/
def Local {α : Type} (part? : List Char → Option (α × List Char)) : Prop :=
  ∀ cs a r, part? cs = some (a, r) → ∀ rest, Closed rest → part? (cs ++ rest) = some (a, r ++ rest)

theorem run?_local : Local Digits.run? := by
  intro cs ds r h rest hrest
  obtain ⟨hne, hsplit⟩ := Digits.run?_eq_some_iff.mp h
  have hbehind : ∀ c ∈ (r ++ rest).head?, c.isDigit = false := by
    cases r with
    | nil => exact hrest.not_isDigit
    | cons c r =>
      have hc := List.head?_dropWhile_not Char.isDigit cs
      rw [show cs.dropWhile Char.isDigit = c :: r from congrArg Prod.snd hsplit] at hc
      intro d hd
      cases hd
      exact hc
  rw [← Digits.run?_append h, List.append_assoc]
  exact Digits.run?_of_isDigit (Digits.isDigit_of_run? h) hne hbehind

theorem run?_of_wholePart? {cs : List Char} {r : List Char × List Char}
    (h : wholePart? cs = some r) : Digits.run? cs = some r := by
  unfold wholePart? at h
  split at h
  · cases h
  · exact h

theorem wholePart?_local : Local wholePart? := by
  intro cs whole r h rest hrest
  unfold wholePart? at h ⊢
  split at h
  · cases h
  · rename_i hzero
    rw [run?_local cs whole r h rest hrest]
    split
    · rename_i heq
      cases heq
      exact (hzero _ _ _ h).elim
    · rfl

theorem fractionPart?_of_ne {cs : List Char} (h : ∀ c ∈ cs.head?, c ≠ '.') :
    fractionPart? cs = some (none, cs) := by
  unfold fractionPart?
  split
  · exact absurd rfl (h _ rfl)
  · rfl

theorem fractionPart?_local : Local fractionPart? := by
  intro cs fraction r h rest hrest
  by_cases hpoint : cs.head? = some '.'
  · obtain ⟨cs, rfl⟩ := List.head?_eq_some_iff.mp hpoint
    obtain ⟨⟨ds, tail⟩, hrun, heq⟩ := Option.map_eq_some_iff.mp h
    cases heq
    rw [List.cons_append, fractionPart?, run?_local _ _ _ hrun rest hrest]
    rfl
  · have hne : ∀ c ∈ cs.head?, c ≠ '.' := by
      rintro c hc rfl
      exact hpoint hc
    rw [fractionPart?_of_ne hne] at h
    cases h
    refine fractionPart?_of_ne fun c hc => ?_
    cases cs with
    | nil => rcases hrest c hc with rfl | rfl | rfl <;> decide
    | cons d cs => exact hne c hc

theorem signPart_append {cs : List Char} (h : cs ≠ []) (rest : List Char) :
    signPart (cs ++ rest) = ((signPart cs).1, (signPart cs).2 ++ rest) := by
  obtain ⟨c, cs, rfl⟩ := List.exists_cons_of_ne_nil h
  rw [List.cons_append]
  unfold signPart
  split <;> split <;> simp_all

theorem exponentPart?_local : Local exponentPart? := by
  intro cs exponent r h rest hrest
  cases cs with
  | nil =>
    cases h
    cases rest with
    | nil => rfl
    | cons c rest =>
      have hmark : ¬ (c = 'e' || c = 'E') = true := by
        rcases hrest c rfl with rfl | rfl | rfl <;> decide
      simp only [List.nil_append, exponentPart?, if_neg hmark]
  | cons c cs =>
    by_cases hmark : (c = 'e' || c = 'E') = true
    · simp only [exponentPart?, if_pos hmark] at h
      obtain ⟨⟨ds, tail⟩, hrun, heq⟩ := Option.map_eq_some_iff.mp h
      cases heq
      have hne : cs ≠ [] := by
        rintro rfl
        cases hrun
      simp only [List.cons_append, exponentPart?, if_pos hmark, signPart_append hne,
        run?_local _ _ _ hrun rest hrest, Option.map_some]
    · simp only [exponentPart?, if_neg hmark] at h
      cases h
      simp only [List.cons_append, exponentPart?, if_neg hmark]

theorem scan?_local : Local scan? := by
  intro cs l r h rest hrest
  simp only [scan?, Option.bind_eq_bind, Option.bind_eq_some_iff] at h
  obtain ⟨⟨whole, cs₁⟩, hwhole, ⟨fraction, cs₂⟩, hfraction, ⟨exponent, cs₃⟩, hexponent, heq⟩ := h
  cases heq
  have hne : cs ≠ [] := by
    rintro rfl
    cases hwhole
  obtain ⟨c, cs, rfl⟩ := List.exists_cons_of_ne_nil hne
  have hbody : (if (c :: cs).head? = some '-' then (c :: cs ++ rest).tail else c :: cs ++ rest) =
      (if (c :: cs).head? = some '-' then (c :: cs).tail else c :: cs) ++ rest := by
    split <;> rfl
  have hhead : (c :: cs ++ rest).head? = (c :: cs).head? := rfl
  simp only [scan?, Option.bind_eq_bind, hhead, hbody,
    wholePart?_local _ _ _ hwhole rest hrest, fractionPart?_local _ _ _ hfraction rest hrest,
    exponentPart?_local _ _ _ hexponent rest hrest, Option.bind_some]

theorem head_of_scan? {cs r : List Char} {l : JsonLiteral} (h : scan? cs = some (l, r)) :
    ∃ c tail, cs = c :: tail ∧ (c = '-' ∨ c.isDigit = true) := by
  simp only [scan?, Option.bind_eq_bind, Option.bind_eq_some_iff] at h
  obtain ⟨⟨whole, behind⟩, hwhole, -⟩ := h
  cases cs with
  | nil => cases hwhole
  | cons c tail =>
    refine ⟨c, tail, rfl, ?_⟩
    by_cases hminus : c = '-'
    · exact .inl hminus
    · rw [if_neg (by simpa using hminus)] at hwhole
      have hrun := run?_of_wholePart? hwhole
      obtain ⟨d, ds, rfl⟩ := List.exists_cons_of_ne_nil (Digits.run?_eq_some_iff.mp hrun).1
      obtain ⟨rfl, -⟩ := List.cons.inj (Digits.run?_append hrun)
      exact .inr (Digits.isDigit_of_run? hrun _ List.mem_cons_self)

/-! ## Numbers on their own -/

def read? (cs : List Char) : Option JsonNumber :=
  match scan? cs with
  | some (l, []) => some l.toNumber
  | _ => none

theorem read?_eq_some_iff {cs : List Char} {n : JsonNumber} :
    read? cs = some n ↔ ∃ l, scan? cs = some (l, []) ∧ l.toNumber = n := by
  unfold read?
  split
  · rename_i l h
    simp [h]
  · rename_i h
    refine iff_of_false (fun h => by cases h) ?_
    rintro ⟨l, hl, -⟩
    exact h l hl

end JsonLiteral

def JsonNumber.Restored (n : JsonNumber) : Prop := JsonLiteral.read? (Json.writeNumber n) = some n

instance (n : JsonNumber) : Decidable n.Restored := inferInstanceAs (Decidable (_ = _))

/-! ## Whole numbers -/

theorem Digits.head_write (n : Nat) : (write n).head? = some '0' → n = 0 := by
  induction n using Nat.strongRecOn with
  | _ n ih =>
    intro h
    unfold write at h ih
    by_cases hn : n < 10
    · have hdigit : ∀ d : Fin 10, (d : Nat).digitChar = '0' → (d : Nat) = 0 := by decide
      rw [Nat.toDigits_of_lt_base hn] at h
      exact hdigit ⟨n, hn⟩ (Option.some.inj h)
    · rw [Nat.toDigits_of_base_le (by decide) (Nat.le_of_not_lt hn)] at h
      have hhead : (Nat.toDigits 10 (n / 10)).head? = some '0' := by
        have hne : Nat.toDigits 10 (n / 10) ≠ [] := Nat.toDigits_ne_nil
        obtain ⟨c, cs, hcs⟩ := List.exists_cons_of_ne_nil hne
        rw [hcs] at h ⊢
        exact h
      have := ih (n / 10) (by omega) hhead
      omega

namespace JsonLiteral

theorem wholePart?_write (n : Nat) : wholePart? (Digits.write n) = some (Digits.write n, []) := by
  have hrun : Digits.run? (Digits.write n ++ []) = some (Digits.write n, []) :=
    Digits.run?_of_isDigit (fun _ => Digits.isDigit_of_mem_write) (Digits.write_ne_nil n) nofun
  rw [List.append_nil] at hrun
  unfold wholePart?
  rw [hrun]
  split
  · rename_i heq
    obtain ⟨hzero, -⟩ := Prod.mk.inj (Option.some.inj heq)
    rw [Digits.head_write n (by rw [hzero]; rfl)] at hzero
    cases hzero
  · rfl

theorem read?_minus_write {n : Nat} (h0 : 0 < n) (h : n ≤ maxNegative) :
    read? ('-' :: Digits.write n) = some (.whole (-n)) := by
  refine read?_eq_some_iff.mpr ⟨⟨true, Digits.write n, none, none⟩, ?_, ?_⟩
  · simp [scan?, wholePart?_write, fractionPart?, exponentPart?]
  · simp [toNumber, Digits.value_write, h0, h]

theorem read?_write {n : Nat} (h : n ≤ maxWord) : read? (Digits.write n) = some (.whole n) := by
  have hhead : (Digits.write n).head? ≠ some '-' := fun h => by
    cases Digits.isDigit_of_mem_write (List.mem_of_head? h)
  refine read?_eq_some_iff.mpr ⟨⟨false, Digits.write n, none, none⟩, ?_, ?_⟩
  · simp [scan?, hhead, wholePart?_write, fractionPart?, exponentPart?]
  · simp [toNumber, Digits.value_write, h]

end JsonLiteral

theorem JsonNumber.restored_whole {z : Int} (hlow : -(JsonLiteral.maxNegative : Int) ≤ z)
    (hhigh : z ≤ maxWord) : (JsonNumber.whole z).Restored := by
  unfold Restored Json.writeNumber
  by_cases hz : z < 0
  · simp only [if_pos hz, List.singleton_append]
    rw [JsonLiteral.read?_minus_write (by omega) (by omega), Int.ofNat_natAbs_of_nonpos (by omega),
      Int.neg_neg]
  · simp only [if_neg hz, List.nil_append]
    rw [JsonLiteral.read?_write (by omega), Int.natAbs_of_nonneg (by omega)]

/-! ## Doubles -/

theorem tenTo_mono {j k : Nat} (h : j ≤ k) : tenTo j ≤ tenTo k := Nat.pow_le_pow_right (by decide) h

theorem twoTo_le_tenTo (k : Nat) : twoTo k ≤ tenTo k := Nat.pow_le_pow_left (by decide) k

namespace Binary64

/-- A finite number divided by one that is not below one stays finite. -/
theorem isFinite_div {s t : Bool} {m n : Nat} (hm : Representable m) (hn : Representable n)
    (h : unity ≤ n) : (finite s m hm / finite t n hn).isFinite = true := by
  have hpos : 0 < n := Nat.lt_of_lt_of_le unity_pos h
  have hle : nearest (m * unity) n ≤ m := by
    calc
      nearest (m * unity) n ≤ nearest (m * n) (1 * n) := by
        rw [Nat.one_mul]
        exact nearest_mono (Nat.mul_le_mul_left m h)
      _ = nearest m 1 := nearest_mul_right hpos
      _ = m := nearest_one_of_dvd hm.2
  rw [div_finite s t hm hn (by omega), ofUnits_of_lt _ (Nat.lt_of_le_of_lt hle hm.1)]
  rfl

theorem isFinite_neg {a : Binary64} (h : a.isFinite = true) : (-a).isFinite = true := by
  obtain ⟨s, n, hn, rfl⟩ := exists_eq_finite h
  rfl

theorem nearest_whole_lt {n : Nat} (h : n ≤ tenTo 308) : nearest (n * unity) 1 < limit := by
  have hlargest : nearest (tenTo 308 * unity) 1 < limit := by decide +kernel
  exact Nat.lt_of_le_of_lt (nearest_mono (Nat.mul_le_mul_right unity h)) hlargest

/-- Whole numbers of 64 bits are far below the largest double. -/
theorem isFinite_ofUnits_whole (s : Bool) {n : Nat} (h : n ≤ twoTo 64) :
    (ofUnits s (n * unity) 1).isFinite = true := by
  have hbound : twoTo 64 ≤ tenTo 308 := Nat.le_trans (twoTo_le_tenTo 64) (tenTo_mono (by decide))
  rw [ofUnits_of_lt s (nearest_whole_lt (Nat.le_trans h hbound))]
  rfl

end Binary64

namespace JsonLiteral

theorem exists_power {k : Nat} (h : k ≤ 308) :
    ∃ n hn, power k = .finite false n hn ∧ unity ≤ n := by
  have hpow : tenTo k ≤ tenTo 308 := tenTo_mono h
  have hlow : 1 * unity ≤ nearest (tenTo k * unity) 1 := by
    rw [← nearest_whole (twoTo_pos 30)]
    exact nearest_mono (Nat.mul_le_mul_right unity (tenTo_pos k))
  rw [Nat.one_mul] at hlow
  refine ⟨_, representable_nearest (Binary64.nearest_whole_lt hpow), ?_, hlow⟩
  unfold power Binary64.ofDecimal
  rw [if_neg Nat.one_ne_zero, if_neg (by omega), if_pos (Int.natCast_nonneg k), Nat.one_mul]
  exact Binary64.ofUnits_of_lt false (Binary64.nearest_whole_lt hpow)

theorem isFinite_div_power {x : Binary64} (hx : x.isFinite = true) {k : Nat} (h : k ≤ 308) :
    (x / power k).isFinite = true := by
  obtain ⟨n, hn, hpower, hle⟩ := exists_power h
  obtain ⟨s, m, hm, rfl⟩ := Binary64.exists_eq_finite hx
  rw [hpower]
  exact Binary64.isFinite_div hm hn hle

/-- A finite double, or beyond every double. -/
def Inexact : JsonNumber → Prop
  | .whole _ => False
  | .double x => x.isFinite = true
  | .beyond => True

/-- A step that is too long for one power of ten leaves the rest to the steps behind it. -/
theorem scale_of_rest {steps : Nat} {x : Binary64} {e : Int} (hx : x.isFinite = true)
    (hrest : ∀ k, steps = k + 1 → Inexact (scale k (x / power 308) (e + 308))) :
    Inexact (scale steps x e) := by
  unfold scale
  split
  · rename_i he
    split
    · exact isFinite_div_power hx he
    split
    · rename_i hproduct
      exact hproduct
    · trivial
  split
  · exact hx
  split
  · trivial
  split
  · exact Binary64.isFinite_ofNat (Nat.zero_le _)
  · exact hrest _ rfl

theorem scale_inexact {steps : Nat} {x : Binary64} {e : Int} (hx : x.isFinite = true) :
    Inexact (scale steps x e) := by
  induction steps generalizing x e with
  | zero => exact scale_of_rest hx nofun
  | succ k ih =>
    refine scale_of_rest hx fun j hj => ?_
    obtain rfl := Nat.succ.inj hj
    exact ih (isFinite_div_power hx (Nat.le_refl _))

theorem collect_fst_le {word : Nat} (h : word ≤ maxWord) (cs : List Char) :
    (collect word cs).1 ≤ maxWord := by
  induction cs generalizing word with
  | nil => exact h
  | cons c cs ih =>
    unfold collect
    split
    · exact ih ‹_›
    · exact h

theorem withSign_inexact {n : JsonNumber} (h : Inexact n) (negative : Bool) :
    Inexact (withSign negative n) := by
  cases n with
  | whole z => exact h
  | beyond => trivial
  | double x =>
    unfold withSign
    dsimp only [Inexact]
    split
    · exact Binary64.isFinite_neg h
    · exact h

theorem inexact_inexact (l : JsonLiteral) : Inexact (inexact l) := by
  refine withSign_inexact (scale_inexact ?_) _
  refine Binary64.isFinite_ofUnits_whole false (Nat.le_trans ?_ (Nat.sub_le (twoTo 64) 1))
  exact collect_fst_le (collect_fst_le (Nat.zero_le _) _) _

/-- Whatever is read as a whole number fits 64 bits, and whatever is read as a double is finite. -/
theorem toNumber_cases (l : JsonLiteral) :
    (∃ z : Int, l.toNumber = .whole z ∧ -(maxNegative : Int) ≤ z ∧ z ≤ maxWord) ∨
      Inexact l.toNumber := by
  unfold toNumber
  dsimp only
  split
  · exact .inr (inexact_inexact l)
  split
  · split
    · rename_i hrange
      simp only [Bool.and_eq_true, decide_eq_true_eq] at hrange
      exact .inl ⟨_, rfl, by omega, by omega⟩
    · exact .inr (inexact_inexact l)
  split
  · exact .inl ⟨_, rfl, by omega, by omega⟩
  · exact .inr (inexact_inexact l)

end JsonLiteral

end PlaybackCues
