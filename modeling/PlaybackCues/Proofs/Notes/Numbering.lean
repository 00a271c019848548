import PlaybackCues.Notes.Parser
import PlaybackCues.Proofs.Cue.Built

set_option autoImplicit false

/-!
# The numbering of cues

The cues of a text carry their position as their index, and stand in the order of their offsets.
-/
namespace PlaybackCues.Notes

theorem index_of_number {k i : Nat} {found : List (Nat × CueSpec)} {c : Cue}
    (h : (number k found)[i]? = some c) : c.index = k + i := by
  induction found generalizing k i with
  | nil => cases h
  | cons entry found ih =>
    obtain ⟨offset, spec⟩ := entry
    unfold number at h
    split at h
    · rename_i cue hbuild
      cases i with
      | zero =>
        cases h
        rw [← (CueSpec.build_eq_ok_iff.mp hbuild).2]
        rfl
      | succ i =>
        rw [ih h]
        omega
    · exact ih h

theorem parse_index {text : List Char} {i : Nat} {c : Cue} (h : (parse text)[i]? = some c) :
    c.index = i := by
  simpa using index_of_number h

/-! ## What is numbered -/

def builds (spec : CueSpec) : Bool := spec.rounded.check.isOk

theorem builds_iff {spec : CueSpec} : builds spec = true ↔ spec.rounded.check = .ok () := by
  unfold builds
  cases spec.rounded.check with
  | error e => simp [Except.isOk, Except.toBool]
  | ok u => simp [Except.isOk, Except.toBool]

theorem number_cons_of_builds {k offset : Nat} {spec : CueSpec} {found : List (Nat × CueSpec)}
    (h : builds spec = true) :
    number k ((offset, spec) :: found) = spec.rounded.place k offset :: number (k + 1) found := by
  have hbuild : spec.build k offset = .ok (spec.rounded.place k offset) :=
    CueSpec.build_eq_ok_iff.mpr ⟨builds_iff.mp h, rfl⟩
  simp only [number, hbuild]

theorem number_cons_of_not_builds {k offset : Nat} {spec : CueSpec} {found : List (Nat × CueSpec)}
    (h : ¬ builds spec = true) : number k ((offset, spec) :: found) = number k found := by
  cases hbuild : spec.build k offset with
  | ok c => exact absurd (builds_iff.mpr (CueSpec.build_eq_ok_iff.mp hbuild).1) h
  | error e => simp only [number, hbuild]

theorem build_of_mem_number {k : Nat} {found : List (Nat × CueSpec)} {c : Cue}
    (h : c ∈ number k found) :
    ∃ spec, (c.offset, spec) ∈ found ∧ spec.build c.index c.offset = .ok c := by
  induction found generalizing k with
  | nil => cases h
  | cons entry found ih =>
    obtain ⟨offset, spec⟩ := entry
    have hlater {i : Nat} (h : c ∈ number i found) :
        ∃ spec', (c.offset, spec') ∈ (offset, spec) :: found ∧
          spec'.build c.index c.offset = .ok c := by
      obtain ⟨spec', hmem, hbuild⟩ := ih h
      exact ⟨spec', List.mem_cons_of_mem _ hmem, hbuild⟩
    by_cases hb : builds spec = true
    · rw [number_cons_of_builds hb] at h
      rcases List.mem_cons.mp h with rfl | h
      · exact ⟨spec, List.mem_cons_self, CueSpec.build_eq_ok_iff.mpr ⟨builds_iff.mp hb, rfl⟩⟩
      · exact hlater h
    · rw [number_cons_of_not_builds hb] at h
      exact hlater h

theorem exists_mem_number {k offset : Nat} {spec : CueSpec} {found : List (Nat × CueSpec)}
    (hmem : (offset, spec) ∈ found) (hb : builds spec = true) :
    ∃ c ∈ number k found, c.offset = offset := by
  induction found generalizing k with
  | nil => cases hmem
  | cons entry found ih =>
    rcases List.mem_cons.mp hmem with heq | hmem
    · subst heq
      rw [number_cons_of_builds hb]
      exact ⟨_, List.mem_cons_self, rfl⟩
    · by_cases hentry : builds entry.2 = true
      · obtain ⟨c, hc, hoffset⟩ := ih (k := k + 1) hmem
        rw [number_cons_of_builds hentry]
        exact ⟨c, List.mem_cons_of_mem _ hc, hoffset⟩
      · rw [number_cons_of_not_builds hentry]
        exact ih hmem

/-! ## Order -/

theorem mem_candidates {offset k : Nat} {text : List Char} {spec : CueSpec} :
    (k, spec) ∈ candidates offset text ↔
      ∃ i, k = offset + i ∧ candidate? (text.drop i) = some spec := by
  induction text generalizing offset with
  | nil => simp [candidates, candidate?, expect?]
  | cons a text ih =>
    have hlater : (k, spec) ∈ candidates (offset + 1) text ↔
        ∃ i, k = offset + (i + 1) ∧ candidate? ((a :: text).drop (i + 1)) = some spec := by
      simp [ih, Nat.add_assoc, Nat.add_comm 1]
    unfold candidates
    constructor
    · intro h
      split at h
      · rename_i spec' hhere
        rcases List.mem_cons.mp h with heq | h
        · cases heq
          exact ⟨0, rfl, hhere⟩
        · obtain ⟨i, hi⟩ := hlater.mp h
          exact ⟨i + 1, hi⟩
      · obtain ⟨i, hi⟩ := hlater.mp h
        exact ⟨i + 1, hi⟩
    · rintro ⟨i, rfl, hi⟩
      cases i with
      | zero =>
        rw [List.drop_zero] at hi
        rw [hi]
        exact List.mem_cons_self
      | succ i =>
        have hmem := hlater.mpr ⟨i, rfl, hi⟩
        split
        · exact List.mem_cons_of_mem _ hmem
        · exact hmem

theorem candidates_sorted (offset : Nat) (text : List Char) :
    (candidates offset text).Pairwise fun d e => d.1 < e.1 := by
  induction text generalizing offset with
  | nil => exact List.Pairwise.nil
  | cons a text ih =>
    unfold candidates
    split
    · refine List.Pairwise.cons ?_ (ih (offset + 1))
      intro entry hentry
      obtain ⟨i, hi, _⟩ := mem_candidates.mp hentry
      omega
    · exact ih (offset + 1)

theorem number_sorted {k : Nat} {found : List (Nat × CueSpec)}
    (h : found.Pairwise fun d e => d.1 < e.1) :
    (number k found).Pairwise fun c d => c.offset < d.offset := by
  induction found generalizing k with
  | nil => exact List.Pairwise.nil
  | cons entry found ih =>
    obtain ⟨hfirst, hrest⟩ := List.pairwise_cons.mp h
    by_cases hb : builds entry.2 = true
    · rw [number_cons_of_builds hb]
      refine List.Pairwise.cons ?_ (ih hrest)
      intro c hc
      obtain ⟨spec, hmem, _⟩ := build_of_mem_number hc
      exact hfirst _ hmem
    · rw [number_cons_of_not_builds hb]
      exact ih hrest

theorem parse_offsets (text : List Char) :
    (parse text).Pairwise fun c d => c.offset < d.offset :=
  number_sorted (candidates_sorted 0 text)

theorem parse_increasing (text : List Char) :
    (parse text).Pairwise fun c d => c.index < d.index := by
  rw [List.pairwise_iff_getElem]
  intro i j hi hj hlt
  rw [parse_index (List.getElem?_eq_getElem hi), parse_index (List.getElem?_eq_getElem hj)]
  exact hlt

/-- The cues of a text are in the order of their indexes. -/
theorem parse_sorted (text : List Char) :
    (parse text).Pairwise fun c d => c.index ≤ d.index :=
  (parse_increasing text).imp Nat.le_of_lt

end PlaybackCues.Notes
