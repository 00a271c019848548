import PlaybackCues.Proofs.Notes.Scanning

set_option autoImplicit false

/-!
# Notes in pieces

A character that occurs in no candidate cuts a text in two: what stands on one side of it is read
as if the other side were not there. So when two texts are put together with a separator between
them, the cues of the first stay as they are, and those of the second are moved, in the numbering
and in the text, by what stands before them. This is `parse_separated`.
-/
namespace PlaybackCues

def Cue.moved (index offset : Nat) (c : Cue) : Cue :=
  { c with
    id := Cue.idOf (c.index + index) c.text
    index := c.index + index
    offset := c.offset + offset }

namespace Notes

/-! ## Characters that occur in no candidate -/

/-- No text of the shape of a cue has the character in it. Only ASCII digits count here: where others
count too, fewer characters are foreign. -/
def Foreign (c : Char) : Prop := ∀ f : Fields, f.Shaped .decimal → c ∉ f.text

namespace Foreign

def plain : Fields :=
  ⟨⟨['0', '0'], ['0', '0'], ['0', '0'], []⟩, ⟨['0', '0'], ['0', '0'], ['0', '0'], []⟩, ['0'], ['1'],
    ['0'], .jump⟩

theorem run_of_all {ds : List Char} (h : ds.all Char.isDigit = true) : DigitClass.decimal.Run ds :=
  List.all_eq_true.mp h

theorem plain_shaped : plain.Shaped .decimal := by
  have hclock : Clock.Shaped .decimal ⟨['0', '0'], ['0', '0'], ['0', '0'], []⟩ := by
    constructor <;> exact ⟨run_of_all rfl, by decide⟩
  constructor
  · exact hclock
  · exact hclock
  · exact ⟨by decide, run_of_all rfl⟩
  · exact ⟨by decide, run_of_all rfl⟩
  · exact ⟨by decide, run_of_all rfl⟩
  · trivial

/-- All characters are foreign but the digits and the marks of the written form. -/
theorem iff_notMem {c : Char} :
    Foreign c ↔ c.isDigit = false ∧ c ∉ DigitClass.inner ∧ c ≠ '[' := by
  constructor
  · intro h
    have hplain := h plain plain_shaped
    have hdigit : c.isDigit = false := by
      rw [Bool.eq_false_iff]
      intro hc
      have hrun : [c] ≠ [] ∧ DigitClass.decimal.Run [c] := ⟨by simp, run_of_all (by simp [hc])⟩
      exact h { plain with volume := [c] } { plain_shaped with volume := hrun } (by simp [Fields.text])
    -- the bar of a pause is the one mark that a jump does not have
    have hbar : c ≠ '|' := by
      rintro rfl
      have hsuffix : (Suffix.pause ['1']).Shaped .decimal := ⟨by simp, run_of_all rfl⟩
      exact h { plain with suffix := .pause ['1'] } { plain_shaped with suffix := hsuffix } (by decide)
    refine ⟨hdigit, ?_, ?_⟩
    · intro hmem
      have hall : DigitClass.inner.all (fun d => d = '|' || d ∈ plain.text) = true := by decide
      have hc := List.all_eq_true.mp hall c hmem
      simp only [Bool.or_eq_true, decide_eq_true_eq] at hc
      exact hc.elim hbar hplain
    · rintro rfl
      exact hplain (by decide)
  · rintro ⟨hdigit, hinner, hbracket⟩ f hf
    exact hf.notMem hdigit hinner hbracket

instance (c : Char) : Decidable (Foreign c) := decidable_of_iff' _ iff_notMem

end Foreign

/-! ## Candidates on two sides -/

theorem prefix_of_notMem {front u v : List Char} {c : Char} (hc : c ∉ front)
    (h : front <+: u ++ c :: v) : front <+: u := by
  rcases List.prefix_or_prefix_of_prefix h (List.prefix_append u (c :: v)) with hu | ⟨tail, rfl⟩
  · exact hu
  · cases tail with
    | nil => simp
    | cons d tail =>
      obtain ⟨rest, hrest⟩ := h
      simp only [List.append_assoc, List.cons_append, List.append_cancel_left_eq,
        List.cons.injEq] at hrest
      exact absurd (by simp [hrest.1]) hc

theorem candidate?_before {c : Char} (h : Foreign c) (u v : List Char) :
    candidate? (u ++ c :: v) = candidate? u := by
  refine Option.ext fun spec => ?_
  rw [candidate?_eq_some_iff, candidate?_eq_some_iff]
  refine exists_congr fun f => and_congr_right fun hf => and_congr_left fun _ => ?_
  exact ⟨prefix_of_notMem (h f hf.shaped), fun hu => hu.trans (List.prefix_append u (c :: v))⟩

theorem candidates_before {c : Char} (h : Foreign c) (offset : Nat) (u v : List Char) :
    candidates offset (u ++ c :: v) =
      candidates offset u ++ candidates (offset + u.length) (c :: v) := by
  induction u generalizing offset with
  | nil => rfl
  | cons d u ih =>
    rw [List.cons_append, candidates_cons, ← List.cons_append, candidate?_before h, ih,
      candidates_cons offset d u, List.append_assoc, List.length_cons, Nat.add_assoc,
      Nat.add_comm 1]

theorem candidates_behind {c : Char} (h : Foreign c) (offset : Nat) (u v : List Char) :
    candidates offset (u ++ [c] ++ v) =
      candidates offset (u ++ [c]) ++ candidates (offset + (u ++ [c]).length) v := by
  have hnone (tail : List Char) : candidate? (c :: tail) = none := candidate?_before h [] tail
  rw [List.append_assoc, List.singleton_append, candidates_before h, candidates_before h,
    candidates_cons _ c v, candidates_cons _ c [], hnone, hnone, List.length_append]
  simp [candidates, Nat.add_assoc]

theorem candidates_moved (offset shift : Nat) (text : List Char) :
    candidates (offset + shift) text = (candidates offset text).map fun e => (e.1 + shift, e.2) := by
  induction text generalizing offset with
  | nil => rfl
  | cons c text ih =>
    have hstep : offset + shift + 1 = offset + 1 + shift := by omega
    rw [candidates_cons, candidates_cons, List.map_append, hstep, ih]
    cases candidate? (c :: text) <;> rfl

/-! ## Numbering in pieces -/

theorem number_append (k : Nat) (front found : List (Nat × CueSpec)) :
    number k (front ++ found) = number k front ++ number (k + (number k front).length) found := by
  induction front generalizing k with
  | nil => rfl
  | cons entry front ih =>
    obtain ⟨offset, spec⟩ := entry
    by_cases hb : builds spec = true
    · rw [List.cons_append, number_cons_of_builds hb, number_cons_of_builds hb, ih,
        List.cons_append, List.length_cons, Nat.add_assoc, Nat.add_comm 1]
    · rw [List.cons_append, number_cons_of_not_builds hb, number_cons_of_not_builds hb, ih]

theorem number_moved (k index offset : Nat) (found : List (Nat × CueSpec)) :
    number (k + index) (found.map fun e => (e.1 + offset, e.2)) =
      (number k found).map (Cue.moved index offset) := by
  induction found generalizing k with
  | nil => rfl
  | cons entry found ih =>
    have hstep : k + index + 1 = k + 1 + index := by omega
    obtain ⟨place, spec⟩ := entry
    by_cases hb : builds spec = true
    · rw [List.map_cons, number_cons_of_builds hb, number_cons_of_builds hb, hstep, ih]
      rfl
    · rw [List.map_cons, number_cons_of_not_builds hb, number_cons_of_not_builds hb, ih]

/-- Numbered from elsewhere, a text has the cues it has by itself, moved. -/
theorem number_candidates (k offset : Nat) (text : List Char) :
    number k (candidates offset text) = (parse text).map (Cue.moved k offset) := by
  have hfound := candidates_moved 0 offset text
  have hnumber := number_moved 0 k offset (candidates 0 text)
  rw [Nat.zero_add] at hfound hnumber
  rw [hfound, hnumber, parse]

/-! ## Separators -/

/-- A text without cues whose first and last character occur in no candidate. -/
structure Separator (s : List Char) : Prop where
  first : ∃ c ∈ s.head?, Foreign c
  last : ∃ c ∈ s.getLast?, Foreign c
  silent : parse s = []

theorem Separator.candidates_eq {s : List Char} (hs : Separator s) (a b : List Char) :
    candidates 0 (a ++ s ++ b) =
      candidates 0 a ++ (candidates a.length s ++ candidates (a ++ s).length b) := by
  obtain ⟨c, hc, hfirst⟩ := hs.first
  obtain ⟨d, hd, hlast⟩ := hs.last
  obtain ⟨tail, rfl⟩ : ∃ tail, s = c :: tail := ⟨s.tail, (List.cons_head?_tail hc).symm⟩
  obtain ⟨front, hfront⟩ := List.getLast?_eq_some_iff.mp hd
  calc candidates 0 (a ++ c :: tail ++ b)
    _ = candidates 0 (a ++ c :: (tail ++ b)) := by rw [List.append_assoc, List.cons_append]
    _ = candidates 0 a ++ candidates a.length (c :: tail ++ b) := by
      rw [candidates_before hfirst, Nat.zero_add, List.cons_append]
    _ = _ := by rw [hfront, candidates_behind hlast, ← List.length_append]

/-- Reading is local: a separator keeps apart what is read before it and behind it. -/
theorem parse_separated (a b : List Char) {s : List Char} (hs : Separator s) :
    parse (a ++ s ++ b) =
        parse a ++ (parse b).map (Cue.moved (parse a).length (a ++ s).length) ∧
      parse a <+: parse (a ++ s ++ b) := by
  have hfirst : number 0 (candidates 0 a) = parse a := rfl
  have hsilent : number (parse a).length (candidates a.length s) = [] := by
    rw [number_candidates, hs.silent, List.map_nil]
  have hparse : parse (a ++ s ++ b) =
      parse a ++ (parse b).map (Cue.moved (parse a).length (a ++ s).length) := by
    calc parse (a ++ s ++ b)
      _ = number 0 (candidates 0 a ++ (candidates a.length s ++
          candidates (a ++ s).length b)) := congrArg (number 0) (hs.candidates_eq a b)
      _ = parse a ++ number (parse a).length (candidates (a ++ s).length b) := by
        rw [number_append, hfirst, Nat.zero_add, number_append, hsilent, List.nil_append,
          List.length_nil, Nat.add_zero]
      _ = _ := by rw [number_candidates]
  exact ⟨hparse, hparse ▸ List.prefix_append _ _⟩

def opening : List Char := "Näher ✓[00:00:01-00:00:02,80%,1.0x]".toList

def aside : List Char := " [00:00:01-00:00 [00:00:09-00:00:08,80%,1.0x],\n".toList

def closing : List Char := "[00:00:05.5-00:00:06,40%,0.5x,->]".toList

theorem aside_separates :
    parse (opening ++ aside ++ closing) =
      parse opening ++ (parse closing).map (Cue.moved 1 82) ∧
    ((parse (opening ++ aside ++ closing)).map fun c => (c.index, c.offset)) = [(0, 7), (1, 82)] := by
  have hseparator : Separator aside :=
    ⟨⟨' ', rfl, by decide⟩, ⟨'\n', by decide +kernel, by decide⟩, by decide +kernel⟩
  have hlen : (parse opening).length = 1 := by decide +kernel
  have hwhole := (parse_separated opening closing hseparator).1
  rw [hlen, show (opening ++ aside).length = 82 from by decide +kernel] at hwhole
  exact ⟨hwhole, by decide +kernel⟩

end Notes

end PlaybackCues
