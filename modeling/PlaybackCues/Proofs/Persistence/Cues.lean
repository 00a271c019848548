import PlaybackCues.Persistence.Cues
import PlaybackCues.Proofs.Persistence.Fields

set_option autoImplicit false

/-!
# Cues read back from JSON

A cue whose numbers fit their types is read back from its value in JSON, and each cue that is read
is of that kind. A mode is written as an object with its kind; only a pause needs another field.
-/
namespace PlaybackCues

open Json

namespace Mode

def Sized (m : Mode) : Prop := ∀ n, m = .pause n → n ≤ maxPause

theorem ofJson?_pause {n : Nat} (h : n ≤ maxPause) :
    ofJson? 1 (toJson (.pause n)) = some (.pause n) := by
  have hsound : (toJson (.pause n)).sound (maxNesting - 1) = true := by
    simp [toJson, ofMembers, maxNesting, sound, ofString, ofChars, ofNat]
  unfold ofJson?
  rw [if_pos hsound]
  simp [toJson, ofMembers, ofString, ofChars, ofNat, occurrences, member?, List.lookup_cons, chars?,
    natural?, ofKind?, secondsOf?, label, h]

theorem ofJson?_toJson {m : Mode} (h : m.Sized) : ofJson? 1 m.toJson = some m := by
  cases m with
  | natural => decide +kernel
  | jump => decide +kernel
  | pause n => exact ofJson?_pause (h n rfl)

theorem ofKind?_sized {kind : String} {seconds : Option Nat} {m : Mode}
    (hseconds : ∀ n, seconds = some n → n ≤ maxPause) (h : ofKind? kind seconds = some m) :
    m.Sized := by
  rintro n rfl
  unfold ofKind? at h
  split at h
  · cases h
  split at h
  · cases h
  split at h
  · obtain ⟨k, hk, heq⟩ := Option.map_eq_some_iff.mp h
    cases heq
    exact hseconds n hk
  · cases h

theorem sized_of_ofJson? {outer : Nat} {j : Json} {m : Mode} (h : ofJson? outer j = some m) :
    m.Sized := by
  unfold ofJson? at h
  split at h
  · split at h
    · split at h
      · obtain ⟨kind, -, hkind⟩ := Option.bind_eq_some_iff.mp h
        refine ofKind?_sized (fun n hn => ?_) hkind
        unfold secondsOf? at hn
        split at hn
        · obtain ⟨j, -, hj⟩ := Option.bind_eq_some_iff.mp hn
          exact natural?_le hj
        · cases hn
      · cases h
    · rename_i kind rest _
      have hsized : ∀ n, (rest.head?.bind (natural? maxPause)) = some n → n ≤ maxPause :=
        fun n hn => by
          obtain ⟨j, -, hj⟩ := Option.bind_eq_some_iff.mp hn
          exact natural?_le hj
      split at h
      · split at h
        · rename_i hkind _
          cases h
          exact ofKind?_sized hsized hkind
        · cases h
      · split at h
        · rename_i hkind _
          cases h
          exact ofKind?_sized hsized hkind
        · cases h
      · cases h
    · cases h
  · cases h

theorem toJson_legible {m : Mode} (h : m.Sized) : m.toJson.Legible := by
  have hword : maxPause ≤ maxWord := by decide
  have hkind : ∀ label, (ofMembers (["kind"].zip [ofString label])).Legible := fun _ =>
    legible_ofMembers (List.forall_mem_singleton.mpr (legible_ofChars _))
  cases m with
  | natural => exact hkind _
  | jump => exact hkind _
  | pause n =>
    have hseconds := legible_ofNat (Nat.le_trans (h n rfl) hword)
    show (ofMembers (["kind", "seconds"].zip [ofString _, ofNat n])).Legible
    exact legible_ofMembers (List.forall_mem_cons.mpr ⟨legible_ofChars _,
      List.forall_mem_singleton.mpr hseconds⟩)

end Mode

namespace Cue

structure Sized (c : Cue) : Prop where
  index : c.index ≤ maxIndex
  offset : c.offset ≤ maxWord
  volume : c.volume ≤ maxByte
  mode : c.mode.Sized

def doubles (c : Cue) : List Binary64 := [c.start, c.stop, c.rate]

theorem ofJson?_toJson {c : Cue} (h : c.Sized) : ofJson? c.toJson = some c := by
  unfold ofJson? toJson
  rw [fields?_ofMembers (by decide) rfl]
  simp [uuid?_toChars, natural?_ofNat h.index, natural?_ofNat h.offset, natural?_ofNat h.volume,
    ofDouble, double?, Mode.ofJson?_toJson h.mode]

theorem toJson_legible {c : Cue} (h : c.Sized)
    (hdoubles : ∀ x ∈ c.doubles, (JsonNumber.double x).Restored) : c.toJson.Legible := by
  have hindex : maxIndex ≤ maxWord := by decide
  have hlevel : maxByte ≤ maxWord := by decide
  have hnumbers : ∀ x ∈ c.doubles, (ofDouble x).Legible := fun x hx => .number (hdoubles x hx)
  simp only [doubles, List.forall_mem_cons] at hnumbers
  obtain ⟨hstart, hstop, hrate, -⟩ := hnumbers
  refine legible_ofMembers ?_
  simp only [List.forall_mem_cons]
  exact ⟨legible_ofChars _, legible_ofNat (Nat.le_trans h.index hindex), legible_ofNat h.offset,
    hstart, hstop, legible_ofNat (Nat.le_trans h.volume hlevel), hrate, Mode.toJson_legible h.mode,
    List.forall_mem_nil _⟩

/-- What the fields of a cue that is read are. -/
theorem exists_fields {j : Json} {c : Cue} (h : ofJson? j = some c) :
    ∃ id index offset start stop volume rate mode,
      j.fields? fieldNames = some [some id, some index, some offset, some start, some stop,
        some volume, some rate, some mode] ∧
      id.uuid? = some c.id ∧ index.natural? maxIndex = some c.index ∧
      offset.natural? maxWord = some c.offset ∧ start.double? = some c.start ∧
      stop.double? = some c.stop ∧ volume.natural? maxByte = some c.volume ∧
      rate.double? = some c.rate ∧ Mode.ofJson? 1 mode = some c.mode := by
  unfold ofJson? at h
  split at h
  · rename_i hfields
    simp only [Option.bind_eq_bind, Option.bind_eq_some_iff] at h
    obtain ⟨id, hid, index, hindex, offset, hoffset, start, hstart, stop, hstop, volume, hvolume,
      rate, hrate, mode, hmode, heq⟩ := h
    cases heq
    exact ⟨_, _, _, _, _, _, _, _, hfields, hid, hindex, hoffset, hstart, hstop, hvolume, hrate,
      hmode⟩
  · cases h

theorem sized_of_ofJson? {j : Json} {c : Cue} (h : ofJson? j = some c) : c.Sized := by
  obtain ⟨_, _, _, _, _, _, _, _, -, -, hindex, hoffset, -, -, hvolume, -, hmode⟩ := exists_fields h
  exact ⟨natural?_le hindex, natural?_le hoffset, natural?_le hvolume, Mode.sized_of_ofJson? hmode⟩

theorem isFinite_of_ofJson? {text : JsonText → Prop} {j : Json} {c : Cue}
    (hj : j.Each FiniteNumber text) (h : ofJson? j = some c) :
    ∀ x ∈ c.doubles, x.isFinite = true := by
  obtain ⟨_, _, _, start, stop, _, rate, _, hfields, -, -, -, hstart, hstop, -, hrate, -⟩ :=
    exists_fields h
  have heach := fields?_each hj hfields
  simp only [doubles, List.forall_mem_cons]
  exact ⟨isFinite_of_double? (heach start (by simp)) hstart,
    isFinite_of_double? (heach stop (by simp)) hstop,
    isFinite_of_double? (heach rate (by simp)) hrate, List.forall_mem_nil _⟩

end Cue

end PlaybackCues
