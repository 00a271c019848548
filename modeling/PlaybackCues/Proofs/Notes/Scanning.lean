import PlaybackCues.Proofs.Notes.Captures
import PlaybackCues.Proofs.Notes.Numbering
import PlaybackCues.Proofs.Notes.Values

set_option autoImplicit false

/-!
# Scanning a text

A pattern is searched from left to right: the leftmost match is taken, and the search goes on
behind it. `Scans` is that search for the shape of a cue. A match has no second opening bracket,
so none hides another one, and numbering what was read from the matches gives the cues of the text.
That these are exactly the cues of the grammar is `parse_eq_grammar`.
-/
namespace PlaybackCues.Notes

variable {D : DigitClass}

/-! ## The search -/

/-- The matches that a search from left to right finds, where the text starts at `offset`. -/
inductive Scans (D : DigitClass) : Nat → List Char → List (Nat × Fields) → Prop where
  | done (offset : Nat) : Scans D offset [] []
  | hit {offset : Nat} {f : Fields} {rest : List Char} {found : List (Nat × Fields)} :
      f.Shaped D → Scans D (offset + f.text.length) rest found →
      Scans D offset (f.text ++ rest) ((offset, f) :: found)
  | miss {offset : Nat} {c : Char} {rest : List Char} {found : List (Nat × Fields)} :
      (∀ f : Fields, f.Shaped D → ¬ f.text <+: c :: rest) → Scans D (offset + 1) rest found →
      Scans D offset (c :: rest) found

def readings (found : List (Nat × Fields)) : List (Nat × CueSpec) :=
  found.filterMap fun entry => entry.2.read?.map fun spec => (entry.1, spec)

theorem exists_scans (D : DigitClass) (offset : Nat) (text : List Char) :
    ∃ found, Scans D offset text found := by
  -- a match has at least one character, so that the text behind it is shorter
  induction hlen : text.length using Nat.strong_induction_on generalizing offset text with
  | _ n ih =>
    subst hlen
    cases text with
    | nil => exact ⟨[], .done offset⟩
    | cons c rest =>
      by_cases hmatch : ∃ f : Fields, f.Shaped D ∧ f.text <+: c :: rest
      · obtain ⟨f, hf, tail, htail⟩ := hmatch
        have hshort : tail.length < (c :: rest).length := by
          rw [← htail, List.length_append]
          simp [Fields.text]
        obtain ⟨found, hfound⟩ := ih _ hshort (offset + f.text.length) tail rfl
        rw [← htail]
        exact ⟨_, .hit hf hfound⟩
      · obtain ⟨found, hfound⟩ := ih _ (Nat.lt_succ_self _) (offset + 1) rest rfl
        exact ⟨found, .miss (fun f hf hpre => hmatch ⟨f, hf, hpre⟩) hfound⟩

/-! ## The characters of a match -/

namespace DigitClass

def inner : List Char := [':', '.', '-', ',', '%', 'x', '|', '>', ']']

theorem Run.notMem {ds : List Char} {c : Char} (h : D.Run ds) (hc : D.mem c = false) : c ∉ ds := by
  intro hmem
  rw [h c hmem] at hc
  cases hc

end DigitClass

open DigitClass

theorem Clock.Shaped.notMem {t : Clock} {c : Char} (h : t.Shaped D) (hc : D.mem c = false)
    (hinner : c ∉ DigitClass.inner) : c ∉ t.text := by
  simp only [DigitClass.inner, List.mem_cons, not_or] at hinner
  have hpointed : c ∉ pointed t.fraction := by
    have hrun := h.fraction.1.notMem hc
    cases heq : t.fraction with
    | nil => simp [pointed]
    | cons d ds =>
      rw [heq] at hrun
      simp [pointed, hrun, hinner]
  simp [text, h.hours.1.notMem hc, h.minutes.1.notMem hc, h.seconds.1.notMem hc, hpointed, hinner]

theorem Suffix.Shaped.notMem {s : Suffix} {c : Char} (h : s.Shaped D) (hc : D.mem c = false)
    (hinner : c ∉ DigitClass.inner) : c ∉ s.text := by
  simp only [DigitClass.inner, List.mem_cons, not_or] at hinner
  cases s with
  | natural => simp [text]
  | jump => simp [text, hinner]
  | pause ds => simp [text, h.2.notMem hc, hinner]

theorem Fields.Shaped.notMem_tail {f : Fields} {c : Char} (h : f.Shaped D) (hc : D.mem c = false)
    (hinner : c ∉ DigitClass.inner) : c ∉ f.text.tail := by
  have hparts := hinner
  simp only [DigitClass.inner, List.mem_cons, not_or] at hparts
  simp [text, h.start.notMem hc hinner, h.stop.notMem hc hinner, h.volume.2.notMem hc,
    h.whole.2.notMem hc, h.fraction.2.notMem hc, h.suffix.notMem hc hinner, hparts]

theorem Fields.Shaped.notMem {f : Fields} {c : Char} (h : f.Shaped D) (hc : D.mem c = false)
    (hinner : c ∉ DigitClass.inner) (hbracket : c ≠ '[') : c ∉ f.text := by
  have htext : f.text = '[' :: f.text.tail := rfl
  rw [htext]
  exact List.not_mem_cons_of_ne_of_not_mem hbracket (h.notMem_tail hc hinner)

/-- A match starts with the only opening bracket in it. -/
theorem Fields.Shaped.bracket_notMem_tail {f : Fields} (h : f.Shaped D) : '[' ∉ f.text.tail :=
  h.notMem_tail (mem_mark (by decide)) (by decide)

theorem candidates_cons (offset : Nat) (c : Char) (cs : List Char) :
    candidates offset (c :: cs) =
      ((candidate? (c :: cs)).map fun spec => (offset, spec)).toList ++
        candidates (offset + 1) cs := by
  rw [candidates]
  split
  · rename_i spec h
    simp [h]
  · rename_i h
    simp [h]

theorem readings_cons (offset : Nat) (f : Fields) (found : List (Nat × Fields)) :
    readings ((offset, f) :: found) =
      (f.read?.map fun spec => (offset, spec)).toList ++ readings found := by
  unfold readings
  rw [List.filterMap_cons]
  cases f.read? <;> rfl

theorem candidates_append {front : List Char} (h : '[' ∉ front) (offset : Nat)
    (rest : List Char) :
    candidates offset (front ++ rest) = candidates (offset + front.length) rest := by
  induction front generalizing offset with
  | nil => rfl
  | cons c front ih =>
    have hc : c ≠ '[' := fun heq => h (heq ▸ List.mem_cons_self)
    have hnone : candidate? (c :: (front ++ rest)) = none := by
      simp [candidate?, expect?, hc]
    rw [List.cons_append, candidates_cons, hnone, ih fun hmem => h (List.mem_cons_of_mem _ hmem),
      Nat.add_assoc, Nat.add_comm 1]
    rfl

/-- Behind the start of a match no candidate stands before its end. -/
theorem candidates_match {f : Fields} (hf : f.Shaped D) (offset : Nat) (rest : List Char) :
    candidates offset (f.text ++ rest) =
      ((candidate? (f.text ++ rest)).map fun spec => (offset, spec)).toList ++
        candidates (offset + f.text.length) rest := by
  have htext : f.text = '[' :: f.text.tail := rfl
  have hlen : offset + f.text.length = offset + 1 + f.text.tail.length := by
    rw [htext, List.length_cons, List.tail_cons, Nat.add_comm _ 1, Nat.add_assoc]
  rw [hlen, ← candidates_append hf.bracket_notMem_tail, htext]
  exact candidates_cons _ _ _

/-! ## Matches and candidates -/

theorem Fields.Shaped.candidate?_eq_some_iff {f : Fields} {rest : List Char} {s : CueSpec}
    (hf : f.Shaped D) : candidate? (f.text ++ rest) = some s ↔ f.Readable ∧ s = f.raw := by
  rw [Notes.candidate?_eq_some_iff]
  constructor
  · rintro ⟨g, hg, ⟨tail, htail⟩, hs⟩
    obtain ⟨rfl, _⟩ := hg.shaped.of_decimal.unique hf htail
    exact ⟨hg, hs⟩
  · rintro ⟨h, hs⟩
    exact ⟨f, h, List.prefix_append _ _, hs⟩

theorem builds_raw_iff {f : Fields} (h : f.Readable) : builds f.raw = true ↔ f.IsCue := by
  rw [builds_iff, h.shaped.rounded_raw, h.check_eq_ok_iff]

/-- What cannot be built takes no number. -/
theorem number_append_of_not_builds {k offset : Nat} {read : Option CueSpec}
    {found : List (Nat × CueSpec)} (h : ∀ spec, read = some spec → ¬ builds spec = true) :
    number k ((read.map fun spec => (offset, spec)).toList ++ found) = number k found := by
  cases read with
  | none => rfl
  | some spec => exact number_cons_of_not_builds (h spec rfl)

/-- No match, whether it can be built or not, keeps a cue from being found. -/
theorem Scans.number_readings {offset : Nat} {text : List Char} {found : List (Nat × Fields)}
    (h : Scans D offset text found) (k : Nat) :
    number k (readings found) = number k (candidates offset text) := by
  induction h generalizing k with
  | done offset => rfl
  | @miss offset c rest found hmiss _ ih =>
    have hnone : candidate? (c :: rest) = none := by
      rw [Option.eq_none_iff_forall_not_mem]
      intro spec hspec
      obtain ⟨f, hf, hfront, _⟩ := Notes.candidate?_eq_some_iff.mp hspec
      exact hmiss f hf.shaped.of_decimal hfront
    rw [candidates_cons, hnone]
    exact ih k
  | @hit offset f rest found hf _ ih =>
    rw [readings_cons, candidates_match hf]
    by_cases hcue : f.IsCue
    · have hbyte : Digits.value f.volume ≤ maxByte := Nat.le_trans hcue.volume (by decide)
      have hread : f.read? = some f.raw :=
        hf.read?_eq_some_iff.mpr ⟨hcue.toReadable, hbyte, rfl⟩
      have hbuilds := (builds_raw_iff hcue.toReadable).mpr hcue
      rw [hread, hcue.toReadable.candidate? rest]
      simp only [Option.map_some, Option.toList_some, List.singleton_append,
        number_cons_of_builds hbuilds, ih]
    · rw [number_append_of_not_builds, number_append_of_not_builds, ih]
      · intro spec hspec hbuilds
        obtain ⟨hreadable, rfl⟩ := hf.candidate?_eq_some_iff.mp hspec
        exact hcue ((builds_raw_iff hreadable).mp hbuilds)
      · intro spec hspec hbuilds
        obtain ⟨hreadable, _, rfl⟩ := hf.read?_eq_some_iff.mp hspec
        exact hcue ((builds_raw_iff hreadable).mp hbuilds)

/-! ## The cues of a text -/

def Fields.StandsAt (f : Fields) (text : List Char) (offset : Nat) : Prop :=
  f.IsCue ∧ f.text <+: text.drop offset

theorem Fields.StandsAt.unique {f g : Fields} {text : List Char} {offset : Nat}
    (hf : f.StandsAt text offset) (hg : g.StandsAt text offset) : f = g := by
  obtain ⟨hcue, rest, hrest⟩ := hf
  obtain ⟨hcue', tail, htail⟩ := hg
  exact (hcue.shaped.unique hcue'.shaped (hrest.trans htail.symm)).1

theorem exists_standsAt_of_mem {text : List Char} {c : Cue} (h : c ∈ parse text) :
    ∃ f : Fields, f.StandsAt text c.offset ∧ c = f.spec.place c.index c.offset := by
  obtain ⟨spec, hmem, hbuild⟩ := build_of_mem_number h
  obtain ⟨i, hi, hcandidate⟩ := mem_candidates.mp hmem
  rw [Nat.zero_add] at hi
  rw [← hi] at hcandidate
  obtain ⟨f, hf, hfront, rfl⟩ := candidate?_eq_some_iff.mp hcandidate
  obtain ⟨hcue, hc⟩ := hf.build_eq_ok_iff.mp hbuild
  exact ⟨f, ⟨hcue, hfront⟩, hc⟩

theorem exists_mem_of_standsAt {text : List Char} {offset : Nat} {f : Fields}
    (h : f.StandsAt text offset) : ∃ c ∈ parse text, c.offset = offset := by
  obtain ⟨hcue, hfront⟩ := h
  have hcandidate : candidate? (text.drop offset) = some f.raw :=
    candidate?_eq_some_iff.mpr ⟨f, hcue.toReadable, hfront, rfl⟩
  exact exists_mem_number (mem_candidates.mpr ⟨offset, (Nat.zero_add offset).symm, hcandidate⟩)
    ((builds_raw_iff hcue.toReadable).mpr hcue)

/-- A cue is found exactly where the text has one by the grammar, and there is at most one there;
it carries the values that are written, and its index is its position. The cues are in the order of
their offsets. A search for matches from left to right gives the same cues, whatever the pattern
takes for digits. -/
theorem parse_eq_grammar (text : List Char) :
    (∀ offset, (∃ c ∈ parse text, c.offset = offset) ↔ ∃ f : Fields, f.StandsAt text offset) ∧
      (∀ offset (f g : Fields), f.StandsAt text offset → g.StandsAt text offset → f = g) ∧
      (∀ c ∈ parse text, ∀ f : Fields, f.StandsAt text c.offset →
        c = f.spec.place c.index c.offset) ∧
      ((parse text).Pairwise fun c d => c.offset < d.offset) ∧
      (∀ (i : Nat) (c : Cue), (parse text)[i]? = some c → c.index = i) ∧
      ∀ D : DigitClass, (∃ found, Scans D 0 text found) ∧
        ∀ found, Scans D 0 text found → number 0 (readings found) = parse text := by
  refine ⟨fun offset => ⟨?_, ?_⟩, ?_, ?_, parse_offsets text, fun i c => parse_index, ?_⟩
  · rintro ⟨c, hc, rfl⟩
    obtain ⟨f, hf, _⟩ := exists_standsAt_of_mem hc
    exact ⟨f, hf⟩
  · rintro ⟨f, hf⟩
    exact exists_mem_of_standsAt hf
  · intro offset f g hf hg
    exact hf.unique hg
  · intro c hc f hf
    obtain ⟨g, hg, hplace⟩ := exists_standsAt_of_mem hc
    rw [hf.unique hg]
    exact hplace
  · intro D
    exact ⟨exists_scans D 0 text, fun found h => h.number_readings 0⟩

def crowded : List Char :=
  "[00:00:01-[٠٠:00:01-00:00:02,80%,1.0x][00:00:01-00:00:02,080%,1.004x,|5]".toList

theorem crowded_cue_found :
    ∃ f : Fields, f.StandsAt crowded 38 ∧
      ∃ c ∈ parse crowded, c = f.spec.place 0 38 ∧ c.volume = 80 ∧ c.mode = .pause 5 := by
  have hparse : ((parse crowded).map fun c => (c.index, c.offset, c.volume, c.mode)) =
      [(0, 38, 80, .pause 5)] := by
    decide +kernel
  obtain ⟨c, hc, hval⟩ := List.exists_of_mem_map (hparse ▸ List.mem_singleton_self _)
  simp only [Prod.mk.injEq] at hval
  obtain ⟨hindex, hoffset, hvolume, hmode⟩ := hval
  obtain ⟨hstands, _, hvalues, _⟩ := parse_eq_grammar crowded
  obtain ⟨f, hf⟩ := (hstands 38).mp ⟨c, hc, hoffset⟩
  rw [← hoffset] at hf
  have hplace := hvalues c hc f hf
  rw [hindex, hoffset] at hplace
  rw [hoffset] at hf
  exact ⟨f, hf, c, hc, hplace, hvolume, hmode⟩

end PlaybackCues.Notes
