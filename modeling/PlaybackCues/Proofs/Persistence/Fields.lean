import Mathlib.Data.List.Nodup
import PlaybackCues.Persistence.Decoding
import PlaybackCues.Proofs.Identity.Uuids
import PlaybackCues.Proofs.Json.Reading
import PlaybackCues.Proofs.Time.Timestamps

set_option autoImplicit false

/-!
# Fields of JSON records, read back

A record with names that differ gives each of its fields back. The readers of fields undo the
writers, and what they give is within the range they check; a double that is read is finite.
-/
namespace PlaybackCues.Json

/-! ## Records -/

variable {names : List String} {values : List Json}

theorem member?_ofMembers {name : String} {v : Json} (hnames : names.Nodup)
    (h : (name, v) ∈ names.zip values) :
    member? name ((names.zip values).map fun m => (some m.1.toList, m.2)) = some v := by
  induction names generalizing values with
  | nil => cases h
  | cons first names ih =>
    cases values with
    | nil => cases h
    | cons w values =>
      obtain ⟨hfirst, hnames⟩ := List.nodup_cons.mp hnames
      rcases List.mem_cons.mp h with heq | hmem
      · cases heq
        exact List.lookup_cons_self
      · have hother : (some name.toList == some first.toList) = false := by
          refine beq_eq_false_iff_ne.mpr fun heq => hfirst ?_
          rw [← String.toList_inj.mp (Option.some.inj heq)]
          exact (List.of_mem_zip hmem).1
        have htail := ih hnames hmem
        unfold member? at htail ⊢
        rw [List.zip_cons_cons, List.map_cons, List.lookup_cons, hother]
        exact htail

theorem occurrences_ofMembers (hlength : values.length = names.length) (name : String) :
    occurrences name ((names.zip values).map fun m => (some m.1.toList, m.2)) = names.count name := by
  have hcount : occurrences name ((names.zip values).map fun m => (some m.1.toList, m.2)) =
      (names.zip values).countP ((fun n => n == name) ∘ Prod.fst) := by
    rw [occurrences, List.countP_map]
    refine List.countP_congr fun m _ => ?_
    simp [String.toList_inj]
  rw [hcount, ← List.countP_map, List.map_fst_zip hlength.ge]
  rfl

theorem fields?_ofMembers (hnames : names.Nodup) (hlength : values.length = names.length) :
    (ofMembers (names.zip values)).fields? names = some (values.map some) := by
  have hmembers : names.map (fun n => member? n ((names.zip values).map
      fun m => (some m.1.toList, m.2))) = values.map some := by
    conv_lhs => enter [2]; rw [← List.map_fst_zip hlength.ge]
    conv_rhs => enter [2]; rw [← List.map_snd_zip hlength.le]
    rw [List.map_map, List.map_map]
    exact List.map_congr_left fun m hm => member?_ofMembers hnames hm
  rw [ofMembers, fields?, if_pos, hmembers]
  simp only [Bool.and_eq_true, List.all_eq_true, decide_eq_true_eq]
  refine ⟨fun m hm => ?_, fun n _ => ?_⟩
  rotate_left
  · rw [occurrences_ofMembers hlength]
    exact List.nodup_iff_count_le_one.mp hnames n
  obtain ⟨field, -, rfl⟩ := List.mem_map.mp hm
  rfl

theorem legible_ofMembers (h : ∀ v ∈ values, v.Legible) :
    (ofMembers (names.zip values)).Legible := by
  refine .object (fun m hm => ?_) fun m hm => ?_
  · obtain ⟨field, -, rfl⟩ := List.mem_map.mp hm
    rfl
  · obtain ⟨⟨name, v⟩, hmem, rfl⟩ := List.mem_map.mp hm
    exact h v (List.of_mem_zip hmem).2

theorem mem_of_member? {name : String} {members : List (JsonText × Json)} {v : Json}
    (h : member? name members = some v) : ∃ m ∈ members, m.2 = v := by
  obtain ⟨before, after, rfl, -⟩ := List.lookup_eq_some_iff.mp h
  exact ⟨_, List.mem_append_right _ List.mem_cons_self, rfl⟩

theorem fields?_each {number : JsonNumber → Prop} {text : JsonText → Prop} {j : Json}
    {fields : List (Option Json)} (hj : j.Each number text) (h : j.fields? names = some fields) :
    ∀ v, some v ∈ fields → v.Each number text := by
  intro v hv
  unfold fields? at h
  split at h
  · split at h
    · cases h
      obtain ⟨name, -, hmember⟩ := List.mem_map.mp hv
      obtain ⟨m, hm, rfl⟩ := mem_of_member? hmember
      cases hj with
      | object _ hvalues => exact hvalues m hm
    · cases h
  · split at h
    · cases h
      obtain ⟨w, hw, heq⟩ := List.mem_map.mp hv
      cases heq
      cases hj with
      | array hitems => exact hitems v hw
    · cases h
  · cases h

/-! ## Fields -/

theorem natural?_ofNat {n top : Nat} (h : n ≤ top) : natural? top (ofNat n) = some n :=
  if_pos (by simp [h])

theorem natural?_le {j : Json} {n top : Nat} (h : natural? top j = some n) : n ≤ top := by
  unfold natural? at h
  split at h
  · split at h
    · rename_i hrange
      cases h
      simp only [Bool.and_eq_true, decide_eq_true_eq] at hrange
      omega
    · cases h
  · cases h

theorem integer?_ofInt {z low high : Int} (hlow : low ≤ z) (hhigh : z ≤ high) :
    integer? low high (ofInt z) = some z := if_pos (by simp [hlow, hhigh])

theorem integer?_range {j : Json} {z low high : Int} (h : integer? low high j = some z) :
    low ≤ z ∧ z ≤ high := by
  unfold integer? at h
  split at h
  · split at h
    · rename_i hrange
      cases h
      simpa using hrange
    · cases h
  · cases h

theorem uuid?_toChars (u : Uuid) : (ofChars u.toChars).uuid? = some u := Uuid.read?_toChars u

theorem timestamp?_toChars {t : Timestamp} (h : t.Told) : (ofChars t.toChars).timestamp? = some t :=
  Timestamp.read?_toChars h

theorem told_of_timestamp? {j : Json} {t : Timestamp} (h : j.timestamp? = some t) : t.Told := by
  obtain ⟨cs, -, hread⟩ := Option.bind_eq_some_iff.mp h
  exact Timestamp.told_of_read? hread

theorem eq_array_of_elements? {j : Json} {items : List Json} (h : j.elements? = some items) :
    j = .array items := by
  unfold elements? at h
  split at h
  · cases h
    rfl
  · cases h

theorem legible_ofNat {n : Nat} (h : n ≤ maxWord) : (ofNat n).Legible :=
  .number (JsonNumber.restored_whole (by omega) (by omega))

theorem legible_ofInt {z : Int} (hlow : -(JsonLiteral.maxNegative : Int) ≤ z)
    (hhigh : z ≤ maxWord) : (ofInt z).Legible :=
  .number (JsonNumber.restored_whole hlow hhigh)

theorem legible_ofChars (cs : List Char) : (ofChars cs).Legible := .text rfl

/-! ## Doubles -/

def FiniteNumber (n : JsonNumber) : Prop := ∀ x, double? (.number n) = some x → x.isFinite = true

theorem isFinite_ofInt {z : Int} (hlow : -(JsonLiteral.maxNegative : Int) ≤ z)
    (hhigh : z ≤ maxWord) : (Binary64.ofInt z).isFinite = true := by
  have hword : maxWord + 1 = twoTo 64 := rfl
  have hnegative : JsonLiteral.maxNegative ≤ twoTo 64 := twoTo_le_twoTo (by decide)
  exact Binary64.isFinite_ofUnits_whole _ (by omega)

theorem finiteNumber_toNumber (l : JsonLiteral) : FiniteNumber l.toNumber := by
  intro x h
  rcases l.toNumber_cases with ⟨z, hz, hlow, hhigh⟩ | hinexact
  · rw [hz] at h
    rw [← Option.some.inj h]
    exact isFinite_ofInt hlow hhigh
  · cases hn : l.toNumber with
    | whole z =>
      rw [hn] at hinexact
      exact hinexact.elim
    | double y =>
      rw [hn] at h hinexact
      rw [← Option.some.inj h]
      exact hinexact
    | beyond =>
      rw [hn] at h
      cases h

theorem isFinite_of_double? {text : JsonText → Prop} {j : Json} {x : Binary64}
    (hj : j.Each FiniteNumber text) (h : j.double? = some x) : x.isFinite = true := by
  cases hj with
  | number hn => exact hn x h
  | null => cases h
  | bool => cases h
  | text => cases h
  | array => cases h
  | object => cases h

end PlaybackCues.Json
