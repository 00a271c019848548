import PlaybackCues.Json.Reader
import PlaybackCues.Json.Writer

set_option autoImplicit false

/-!
# Reading texts in JSON

Any characters are read back from their escaped form between quotes. One character at a time: its
escape is read as that character, and nothing of it can be taken for the closing quote.
-/
namespace PlaybackCues.Json

/-! ## Escapes -/

theorem hexEscape?_append {cs : List Char} {n : Nat} (h : hexEscape? cs = some (n, []))
    (rest : List Char) : hexEscape? (cs ++ rest) = some (n, rest) := by
  unfold hexEscape? at h
  split at h
  · rename_i a b c d tail
    simp only [Option.bind_eq_bind, Option.bind_eq_some_iff] at h
    obtain ⟨wa, ha, wb, hb, wc, hc, wd, hd, heq⟩ := h
    cases heq
    simp only [List.cons_append, List.nil_append, hexEscape?, ha, hb, hc, hd, Option.bind_eq_bind,
      Option.bind_some]
  · cases h

/-- The four digits of a control character. -/
theorem hexEscape?_hexDigits : ∀ n : Fin 32, hexEscape? (hexDigits n) = some ((n : Nat), []) := by
  decide

theorem pieceOf_control {n : Nat} (h : n < 32) : pieceOf n = .char (Char.ofNat n) := by
  have hhigh : isHighSurrogate n = false := by simp [isHighSurrogate]; omega
  have hlow : isLowSurrogate n = false := by simp [isLowSurrogate]; omega
  rw [pieceOf, hhigh, hlow]
  rfl

theorem pieces?_short {c mark : Char} (h : shortEscape? mark = some c) (k : Nat) (rest : List Char) :
    pieces? (k + 1) ('\\' :: mark :: rest) = (pieces? k rest).map fun r => (.char c :: r.1, r.2) := by
  have hmark : mark ≠ 'u' := by
    rintro rfl
    cases h
  rw [pieces?, h]
  · cases pieces? k rest <;> rfl
  · exact hmark

theorem pieces?_plain {c : Char} (hquote : c ≠ '"') (hslash : c ≠ '\\') (hcontrol : ¬ c.toNat < 32)
    (k : Nat) (rest : List Char) :
    pieces? (k + 1) (c :: rest) = (pieces? k rest).map fun r => (.char c :: r.1, r.2) := by
  rw [pieces?, if_neg (by simp [hslash, hcontrol])]
  · exact hquote
  · exact fun _ h _ => hslash h
  · exact fun _ _ h _ => hslash h

theorem pieces?_control {c : Char} (h : c.toNat < 32) (k : Nat) (rest : List Char) :
    pieces? (k + 1) ('\\' :: 'u' :: hexDigits c.toNat ++ rest) =
      (pieces? k rest).map fun r => (.char c :: r.1, r.2) := by
  have hdigits := hexEscape?_append (hexEscape?_hexDigits ⟨c.toNat, h⟩) rest
  dsimp only at hdigits
  simp only [List.cons_append, pieces?, hdigits, Option.bind_eq_bind, Option.bind_some,
    pieceOf_control h, Char.ofNat_toNat]
  cases pieces? k rest <;> rfl

theorem pieces?_escape (c : Char) (k : Nat) (rest : List Char) :
    pieces? (k + 1) (escape c ++ rest) = (pieces? k rest).map fun r => (.char c :: r.1, r.2) := by
  unfold escape
  iterate 7
    split
    · subst c
      exact pieces?_short rfl k rest
  split
  · exact pieces?_control ‹_› k rest
  · exact pieces?_plain ‹_› ‹_› ‹_› k rest

theorem escape_ne_nil (c : Char) : escape c ≠ [] := by
  unfold escape
  repeat' split
  all_goals exact List.cons_ne_nil _ _

theorem pieces?_flatMap (cs : List Char) {k : Nat} (h : cs.length < k) (rest : List Char) :
    pieces? k (cs.flatMap escape ++ '"' :: rest) = some (cs.map .char, rest) := by
  induction cs generalizing k with
  | nil =>
    obtain ⟨k, rfl⟩ := Nat.exists_eq_add_one.mpr h
    rfl
  | cons c cs ih =>
    obtain ⟨k, rfl⟩ := Nat.exists_eq_add_one.mpr (Nat.zero_lt_of_lt h)
    rw [List.flatMap_cons, List.append_assoc, pieces?_escape, ih (Nat.lt_of_succ_lt_succ h)]
    rfl

theorem assemble_map_char (cs : List Char) : assemble (cs.map .char) = some cs := by
  induction cs with
  | nil => rfl
  | cons c cs ih => rw [List.map_cons, assemble, ih]; rfl

theorem length_le_flatMap (cs : List Char) : cs.length ≤ (cs.flatMap escape).length := by
  induction cs with
  | nil => exact Nat.le_refl _
  | cons c cs ih =>
    have hone := List.length_pos_iff.mpr (escape_ne_nil c)
    rw [List.flatMap_cons, List.length_append, List.length_cons]
    omega

theorem text?_flatMap (cs rest : List Char) :
    text? (cs.flatMap escape ++ '"' :: rest) = some (some cs, rest) := by
  have hlength := length_le_flatMap cs
  rw [text?, pieces?_flatMap cs (by rw [List.length_append]; omega), Option.map_some,
    assemble_map_char]

end PlaybackCues.Json
