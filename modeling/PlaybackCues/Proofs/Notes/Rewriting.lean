import PlaybackCues.Proofs.Notes.Entries
import PlaybackCues.Proofs.Notes.Scanning

set_option autoImplicit false

/-!
# Rewriting notes

A text lists entries when it consists of their texts with no opening bracket between them. Then its
cues are these entries, in this order. So the cues of a text, written one to a line, are the cues of
that new text, which differ from the old ones in nothing but their offsets.
-/
namespace PlaybackCues

def Cue.atOrigin (c : Cue) : Cue := { c with offset := 0 }

namespace Notes

def numbered (index : Nat) : List Entry → List Cue
  | [] => []
  | e :: es => e.spec.place index 0 :: numbered (index + 1) es

theorem numbered_canonical (index : Nat) (es : List Entry) :
    ((numbered index es).map fun c => c.canonical) = es.map Entry.text := by
  induction es generalizing index with
  | nil => rfl
  | cons e es ih => simp only [numbered, List.map_cons, ih]; rfl

/-- Taking the offsets away changes no canonical text. -/
theorem canonical_atOrigin (cues : List Cue) :
    (((cues.map Cue.atOrigin).map fun c => c.canonical)) = cues.map fun c => c.canonical := by
  rw [List.map_map]
  rfl

/-! ## The entries of a text -/

theorem exists_entries_of_number {found : List (Nat × CueSpec)}
    (h : ∀ entry ∈ found, ∃ f : Fields, f.Readable ∧ entry.2 = f.raw) (k : Nat) :
    ∃ es, (number k found).map Cue.atOrigin = numbered k es := by
  induction found generalizing k with
  | nil => exact ⟨[], rfl⟩
  | cons entry found ih =>
    obtain ⟨offset, spec⟩ := entry
    have hlater := fun k => ih (fun entry hentry => h entry (List.mem_cons_of_mem _ hentry)) k
    obtain ⟨f, hf, hspec⟩ := h _ List.mem_cons_self
    subst hspec
    by_cases hcue : f.IsCue
    · obtain ⟨e, he⟩ := hcue.exists_entry
      obtain ⟨es, hes⟩ := hlater (k + 1)
      refine ⟨e :: es, ?_⟩
      rw [number_cons_of_builds ((builds_raw_iff hf).mpr hcue), hf.shaped.rounded_raw, he,
        List.map_cons, hes]
      rfl
    · rw [number_cons_of_not_builds fun hb => hcue ((builds_raw_iff hf).mp hb)]
      exact hlater k

theorem exists_entries (text : List Char) :
    ∃ es, (parse text).map Cue.atOrigin = numbered 0 es := by
  refine exists_entries_of_number (fun entry hentry => ?_) 0
  obtain ⟨i, _, hcandidate⟩ := mem_candidates.mp hentry
  obtain ⟨f, hf, _, hraw⟩ := candidate?_eq_some_iff.mp hcandidate
  exact ⟨f, hf, hraw⟩

/-! ## Texts that list entries -/

inductive Lists : List Entry → List Char → Prop where
  | rest {gap : List Char} : '[' ∉ gap → Lists [] gap
  | entry {e : Entry} {es : List Entry} {gap text : List Char} : '[' ∉ gap → Lists es text →
      Lists (e :: es) (gap ++ (e.text ++ text))

theorem Lists.cons {es : List Entry} {text : List Char} (e : Entry) (h : Lists es text) :
    Lists (e :: es) (e.text ++ text) := by
  have hnil : '[' ∉ ([] : List Char) := List.not_mem_nil
  exact .entry hnil h

theorem Lists.singleton (e : Entry) : Lists [e] e.text := by
  have h := Lists.cons e (.rest (List.not_mem_nil : '[' ∉ []))
  rwa [List.append_nil] at h

theorem Lists.append {es : List Entry} {front text : List Char} (hfront : '[' ∉ front)
    (h : Lists es text) : Lists es (front ++ text) := by
  have happend {gap : List Char} (hgap : '[' ∉ gap) : '[' ∉ front ++ gap := by
    simp [hfront, hgap]
  cases h with
  | rest hgap => exact .rest (happend hgap)
  | entry hgap htext =>
    rw [← List.append_assoc]
    exact .entry (happend hgap) htext

theorem number_entry (e : Entry) (k offset : Nat) (rest : List Char) :
    number k (candidates offset (e.text ++ rest)) =
      e.spec.place k offset :: number (k + 1) (candidates (offset + e.text.length) rest) := by
  have hcue := e.fields_isCue
  rw [← e.fields_text, candidates_match hcue.shaped, hcue.toReadable.candidate? rest]
  simp only [Option.map_some, Option.toList_some, List.singleton_append]
  rw [number_cons_of_builds ((builds_raw_iff hcue.toReadable).mpr hcue), hcue.shaped.rounded_raw,
    e.fields_spec]

theorem Lists.number_candidates {es : List Entry} {text : List Char} (h : Lists es text)
    (k offset : Nat) : (number k (candidates offset text)).map Cue.atOrigin = numbered k es := by
  induction h generalizing k offset with
  | @rest gap hgap =>
    have hnil := candidates_append hgap offset []
    rw [List.append_nil] at hnil
    rw [hnil]
    rfl
  | @entry e es gap text hgap _ ih =>
    rw [candidates_append hgap, number_entry, List.map_cons, ih]
    rfl

/-- The cues of a text that lists entries are these. -/
theorem Lists.parse {es : List Entry} {text : List Char} (h : Lists es text) :
    (parse text).map Cue.atOrigin = numbered 0 es :=
  h.number_candidates 0 0

theorem Lists.lines (es : List Entry) : Lists es (['\n'].intercalate (es.map Entry.text)) := by
  induction es with
  | nil => exact .rest (by simp)
  | cons e es ih =>
    cases es with
    | nil => simpa using Lists.singleton e
    | cons f es =>
      have hbreak : '[' ∉ ['\n'] := by decide
      have h := Lists.cons e (ih.append hbreak)
      simpa [List.intercalate_cons_cons] using h

/-! ## Rewriting -/

/-- The cues of a text in their canonical form, one to a line. -/
def rewrite (text : List Char) : List Char :=
  ['\n'].intercalate ((parse text).map fun c => c.canonical)

/-- Rewriting keeps every cue up to its offset, and a text that was rewritten stays as it is. -/
theorem rewrite_keeps_cues (text : List Char) :
    (parse (rewrite text)).map Cue.atOrigin = (parse text).map Cue.atOrigin ∧
      rewrite (rewrite text) = rewrite text := by
  obtain ⟨es, hes⟩ := exists_entries text
  have hlisted {cues : List Cue} (h : cues.map Cue.atOrigin = numbered 0 es) :
      (cues.map fun c => c.canonical) = es.map Entry.text := by
    rw [← canonical_atOrigin, h, numbered_canonical]
  have hrewrite : rewrite text = ['\n'].intercalate (es.map Entry.text) := by
    rw [rewrite, hlisted hes]
  have hparse : (parse (rewrite text)).map Cue.atOrigin = numbered 0 es := by
    rw [hrewrite]
    exact (Lists.lines es).parse
  refine ⟨hparse.trans hes.symm, ?_⟩
  rw [rewrite, hlisted hparse, hrewrite]

end Notes

end PlaybackCues
