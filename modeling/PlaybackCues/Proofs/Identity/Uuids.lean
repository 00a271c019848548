import PlaybackCues.Identity.Uuid

set_option autoImplicit false

/-!
# Reading ids

An id in its written form reads back as itself: the hexadecimal digits of a number have that number
as their value, with or without zeros in front, and thirty-two of them survive being grouped.
-/
namespace PlaybackCues.Uuid

/-! ## Hexadecimal digits -/

theorem hexValue?_digitChar :
    ∀ d : Fin 16, Digits.hexValue? (d : Nat).digitChar = some (d : Nat) := by
  decide

theorem readHex?_concat (cs : List Char) (c : Char) :
    readHex? (cs ++ [c]) = (readHex? cs).bind fun n => (Digits.hexValue? c).map (16 * n + ·) := by
  simp [readHex?, List.foldlM_append]

theorem readHex?_toDigits (n : Nat) : readHex? (Nat.toDigits 16 n) = some n := by
  induction n using Nat.strongRecOn with
  | _ n ih =>
    by_cases h : n < 16
    · rw [Nat.toDigits_of_lt_base h]
      simp [readHex?, hexValue?_digitChar ⟨n, h⟩]
    · have hlast := hexValue?_digitChar ⟨n % 16, Nat.mod_lt n (by decide)⟩
      rw [Nat.toDigits_of_base_le (by decide) (Nat.le_of_not_lt h), readHex?_concat,
        ih (n / 16) (by omega), hlast, Option.bind_some, Option.map_some, Nat.div_add_mod]

theorem readHex?_zeros (k : Nat) (cs : List Char) :
    readHex? (List.replicate k '0' ++ cs) = readHex? cs := by
  induction k with
  | zero => rfl
  | succ k ih => exact ih

/-! ## Written ids -/

theorem length_hexDigits (u : Uuid) : u.hexDigits.length = 32 := by
  have hle : (Nat.toDigits 16 u.bits.toNat).length ≤ 32 :=
    (Nat.length_toDigits_le_iff (by decide) (by decide)).mpr u.bits.isLt
  simp only [hexDigits, List.length_append, List.length_replicate]
  omega

theorem readSimple?_hexDigits (u : Uuid) : readSimple? u.hexDigits = some u := by
  rw [readSimple?, if_pos u.length_hexDigits, hexDigits, readHex?_zeros, readHex?_toDigits,
    Option.map_some, BitVec.ofNat_toNat, BitVec.setWidth_eq]

theorem readGrouped?_of_length {a b c d e : List Char} (ha : a.length = 8) (hb : b.length = 4)
    (hc : c.length = 4) (hd : d.length = 4) (he : e.length = 12) :
    readGrouped? (a ++ '-' :: b ++ '-' :: c ++ '-' :: d ++ '-' :: e) =
      readSimple? (a ++ b ++ c ++ d ++ e) := by
  simp [readGrouped?, List.drop_append, List.drop_eq_nil_of_le, List.getElem?_append, ha, hb, hc,
    hd, he]

theorem readGrouped?_grouped {ds : List Char} (h : ds.length = 32) :
    readGrouped? (grouped ds) = readSimple? ds := by
  have hjoin : ds.take 8 ++ (ds.drop 8).take 4 ++ (ds.drop 12).take 4 ++ (ds.drop 16).take 4 ++
      ds.drop 20 = ds := by
    have hsplit : ∀ i, (ds.drop i).take 4 ++ ds.drop (i + 4) = ds.drop i := fun i => by
      rw [← List.drop_drop, List.take_append_drop]
    rw [List.append_assoc, hsplit 16, List.append_assoc, hsplit 12, List.append_assoc, hsplit 8,
      List.take_append_drop]
  unfold grouped
  rw [readGrouped?_of_length, hjoin] <;> simp only [List.length_take, List.length_drop, h] <;> rfl

theorem read?_toChars (u : Uuid) : read? u.toChars = some u := by
  have hlength : u.toChars.length = 36 := by
    have := u.length_hexDigits
    simp only [toChars, grouped, List.length_append, List.length_cons, List.length_take,
      List.length_drop]
    omega
  simp only [read?, hlength]
  rw [toChars, readGrouped?_grouped u.length_hexDigits, readSimple?_hexDigits]

end PlaybackCues.Uuid
