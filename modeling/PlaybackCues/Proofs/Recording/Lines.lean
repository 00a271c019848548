import PlaybackCues.Proofs.Notes.Rewriting
import PlaybackCues.Recording.Transcript

set_option autoImplicit false

/-!
# The lines of a recording

As long as no time of a recording reaches the ninety-ninth hour, every line that is written is the
canonical text of a cue, and the notes that are written list just these cues. The empty lines
between the blocks carry nothing: without them the cues are the same, up to their offsets.
-/
namespace PlaybackCues

open Notes Binary64

def lastHour : Seconds := 356400

def Recording.Early (r : Recording) : Prop :=
  ∀ e ∈ r.events, ¬ lastHour ≤ e.time ∧ (e.kind = .seek → ¬ lastHour ≤ e.value)

namespace Transcript

/-! ## Lines before the last hour -/

structure Line.Early (l : Line) : Prop where
  anchor : ¬ lastHour ≤ l.anchor
  start : ¬ lastHour ≤ l.start
  pause : ∀ n, l.mode = .pause n → n ≤ maxPause

theorem toNatClamped_le (top : Nat) (a : Binary64) : a.toNatClamped top ≤ top := by
  cases a with
  | nan => exact Nat.zero_le _
  | infinite s =>
    simp only [toNatClamped]
    split <;> omega
  | finite s n hn =>
    simp only [toNatClamped]
    split
    · exact Nat.zero_le _
    · exact Nat.min_le_right _ _

theorem closing?_pause {e : RecordedEvent} {n : Nat} (h : closing? e = some (.pause n)) :
    n ≤ maxPause := by
  unfold closing? at h
  split at h
  · cases h
  · cases h
    exact toNatClamped_le _ _
  · cases h

variable {e : RecordedEvent} {d : Draft} {r : Recording}

theorem early_close {ls : List Line} (h : ∀ l ∈ ls, l.Early) : ∀ l ∈ close e ls, l.Early := by
  cases ls with
  | nil => exact h
  | cons line older =>
    intro l hl
    rcases List.mem_cons.mp hl with rfl | hl
    · obtain ⟨hanchor, hstart, hpause⟩ := h line List.mem_cons_self
      refine ⟨hanchor, hstart, fun n hn => ?_⟩
      change (closing? e).getD line.mode = .pause n at hn
      cases hc : closing? e with
      | none =>
        rw [hc] at hn
        exact hpause n hn
      | some mode =>
        rw [hc] at hn
        cases hn
        exact closing?_pause hc
    · exact h l (List.mem_cons_of_mem _ hl)

theorem Draft.early_add (h : ∀ l ∈ d.lines, l.Early) (htime : ¬ lastHour ≤ e.time)
    (hresumption : ¬ lastHour ≤ e.resumption) : ∀ l ∈ (d.add e).lines, l.Early := by
  have hclose := early_close (e := e) h
  have hopened (volume : Nat) (rate : Binary64) :
      Line.Early ⟨e.time, e.resumption, volume, rate, .natural⟩ :=
    ⟨htime, hresumption, nofun⟩
  simp only [Draft.add]
  split
  · simpa using hopened _ _
  · rename_i line older heq
    rw [heq] at hclose
    obtain ⟨⟨hanchor, hstart, hpause⟩, holder⟩ := List.forall_mem_cons.mp hclose
    split
    · exact List.forall_mem_cons.mpr ⟨⟨hanchor, hstart, hpause⟩, holder⟩
    · exact List.forall_mem_cons.mpr ⟨hopened _ _, hclose⟩

theorem early_foldl {events : List RecordedEvent}
    (he : ∀ e ∈ events, ¬ lastHour ≤ e.time ∧ ¬ lastHour ≤ e.resumption)
    (h : ∀ l ∈ d.lines, l.Early) : ∀ l ∈ (events.foldl Draft.add d).lines, l.Early := by
  induction events generalizing d with
  | nil => exact h
  | cons e events ih =>
    obtain ⟨hfirst, hrest⟩ := List.forall_mem_cons.mp he
    exact ih hrest (Draft.early_add h hfirst.1 hfirst.2)

theorem lines_early (h : r.Early) : ∀ l ∈ lines r, l.Early := by
  have he : ∀ e ∈ r.events, ¬ lastHour ≤ e.time ∧ ¬ lastHour ≤ e.resumption := by
    intro e hmem
    refine ⟨(h e hmem).1, ?_⟩
    unfold RecordedEvent.resumption
    split
    · exact (h e hmem).2 ‹_›
    · exact (h e hmem).1
  intro l hl
  exact early_foldl he (by simp) l (List.mem_reverse.mp hl)

/-! ## What is built -/

theorem not_latest_lt {t : Seconds} (h : ¬ lastHour ≤ t) : ¬ latest < t := by
  have hle : lastHour ≤ latest := by decide +kernel
  exact fun hlt => h (le_trans hle (le_of_lt hlt))

theorem units_lt_lastHour {t : Seconds} (hfin : t.isFinite = true) (h : ¬ lastHour ≤ t) :
    t.units < (356400 * unity : Nat) := by
  have hle : 356400 ≤ twoTo 30 := by decide
  have heq : lastHour = ofNat 356400 := rfl
  rwa [heq, not_le_of_isFinite (isFinite_ofNat hle) hfin, lt_iff_units hfin (isFinite_ofNat hle),
    units_ofNat hle] at h

theorem position_trailing {t : Seconds} (hfin : t.isFinite = true) :
    (t + trailingWindow).position = some (rounded (t.units + (3 * unity : Nat))) := by
  have hle : 3 ≤ twoTo 30 := by decide
  have heq : trailingWindow = ofNat 3 := rfl
  rw [heq, position_add hfin (isFinite_ofNat hle), units_ofNat hle]

/-- The window that trails the last line still ends before the hundredth hour. -/
theorem not_latest_lt_add {t : Seconds} (h : ¬ lastHour ≤ t) : ¬ latest < t + trailingWindow := by
  cases hfin : t.isFinite with
  | true =>
    have hle : 356403 ≤ twoTo 30 := by decide
    have heq : latest = ofNat 356403 := rfl
    have hunits := units_lt_lastHour hfin h
    have hlatest := position_of_isFinite (isFinite_ofNat hle)
    rw [heq]
    refine not_lt_of_le (le_of_position (position_trailing hfin) hlatest ?_)
    rw [← rounded_units (isFinite_ofNat hle), units_ofNat hle]
    exact rounded_mono (by omega)
  | false =>
    cases t with
    | nan => decide +kernel
    | infinite s =>
      cases s with
      | true => decide +kernel
      | false => exact absurd (by decide +kernel) h
    | finite s n hn => cases hfin

/-- What the lines say is written like entries, if it passes the checks. -/
theorem exists_entry_of_specs {ls : List Line} (h : ∀ l ∈ ls, l.Early) {p : Seconds × CueSpec}
    (hp : p ∈ specs ls) (hbuilds : builds p.2 = true) :
    ∃ e : Entry, e.text = p.2.rounded.canonical ∧ e.spec = p.2.readBack := by
  induction ls with
  | nil => cases hp
  | cons line rest ih =>
    obtain ⟨hline, hrest⟩ := List.forall_mem_cons.mp h
    rcases List.mem_cons.mp hp with rfl | hp
    · have hstop : ¬ latest < endOf line rest.head? := by
        cases rest with
        | nil => exact not_latest_lt_add hline.start
        | cons next rest =>
          simp only [List.head?_cons, endOf]
          split
          · exact not_latest_lt (hrest next List.mem_cons_self).anchor
          · exact not_latest_lt_add hline.start
      exact CueSpec.exists_entry (not_latest_lt hline.start) hstop hline.pause
        (builds_iff.mp hbuilds)
    · exact ih hrest hp

theorem filterMap_build (ss : List (Seconds × CueSpec)) (first : Nat) :
    ((ss.zipIdx first).filterMap fun ((anchor, spec), i) =>
      match spec.build i 0 with
      | .ok cue => some (anchor, cue.canonical)
      | .error _ => none) =
      (ss.filter fun p => builds p.2).map fun p => (p.1, p.2.rounded.canonical) := by
  induction ss generalizing first with
  | nil => rfl
  | cons p ss ih =>
    obtain ⟨anchor, spec⟩ := p
    simp only [List.zipIdx_cons, List.filterMap_cons, List.filter_cons, ih]
    cases hbuild : spec.build first 0 with
    | ok cue =>
      obtain ⟨hcheck, hplace⟩ := CueSpec.build_eq_ok_iff.mp hbuild
      have hcanonical : cue.canonical = spec.rounded.canonical := by
        rw [← hplace]
        rfl
      simp only [builds_iff.mpr hcheck, if_true, List.map_cons, hcanonical]
    | error reason =>
      have hnot : builds spec = false := by
        rw [Bool.eq_false_iff]
        intro hb
        rw [CueSpec.build_eq_ok_iff.mpr ⟨builds_iff.mp hb, rfl⟩] at hbuild
        cases hbuild
      simp only [hnot, Bool.false_eq_true, if_false]

/-- The lines that are written are those that can be built. -/
theorem written_eq (r : Recording) :
    written r = ((specs (lines r)).filter fun p => builds p.2).map fun p =>
      (p.1, p.2.rounded.canonical) :=
  filterMap_build (specs (lines r)) 0

theorem exists_entries {ss : List CueSpec}
    (h : ∀ s ∈ ss, ∃ e : Entry, e.text = s.rounded.canonical ∧ e.spec = s.readBack) :
    ∃ es : List Entry, es.map Entry.text = ss.map (fun s => s.rounded.canonical) ∧
      es.map Entry.spec = ss.map CueSpec.readBack := by
  induction ss with
  | nil => exact ⟨[], rfl, rfl⟩
  | cons s ss ih =>
    obtain ⟨⟨e, htext, hspec⟩, hrest⟩ := List.forall_mem_cons.mp h
    obtain ⟨es, htexts, hspecs⟩ := ih hrest
    refine ⟨e :: es, ?_, ?_⟩
    · rw [List.map_cons, htext, htexts, List.map_cons]
    · rw [List.map_cons, hspec, hspecs, List.map_cons]

/-- What is written are the texts of entries: those of the specs that can be built. -/
theorem exists_entries_written (h : r.Early) :
    ∃ es : List Entry, (written r).map Prod.snd = es.map Entry.text ∧
      es.map Entry.spec =
        ((specs (lines r)).filter fun p => builds p.2).map fun p => p.2.readBack := by
  have hentry : ∀ s ∈ ((specs (lines r)).filter fun p => builds p.2).map Prod.snd,
      ∃ e : Entry, e.text = s.rounded.canonical ∧ e.spec = s.readBack := by
    intro s hs
    obtain ⟨p, hp, rfl⟩ := List.mem_map.mp hs
    obtain ⟨hmem, hbuilds⟩ := List.mem_filter.mp hp
    exact exists_entry_of_specs (lines_early h) hmem hbuilds
  obtain ⟨es, htexts, hspecs⟩ := exists_entries hentry
  refine ⟨es, ?_, ?_⟩
  · rw [htexts, written_eq, List.map_map, List.map_map]
    rfl
  · rw [hspecs, List.map_map]
    rfl

/-! ## The layout -/

def spaced : List (Seconds × List Char) → List (List Char)
  | [] => []
  | [(_, text)] => [text]
  | (anchor, text) :: (next, more) :: rest =>
    if blockGap < (next - anchor).abs then text :: [] :: spaced ((next, more) :: rest)
    else text :: spaced ((next, more) :: rest)

theorem spaced_ne_nil (w : Seconds × List Char) (ws : List (Seconds × List Char)) :
    spaced (w :: ws) ≠ [] := by
  cases ws with
  | nil => exact List.cons_ne_nil _ _
  | cons w' ws =>
    unfold spaced
    split <;> exact List.cons_ne_nil _ _

theorem intercalate_cons_of_ne_nil {line : List Char} {rest : List (List Char)} (h : rest ≠ []) :
    ['\n'].intercalate (line :: rest) = line ++ '\n' :: ['\n'].intercalate rest := by
  obtain ⟨next, more, rfl⟩ := List.exists_cons_of_ne_nil h
  rw [List.intercalate_cons_cons]
  simp

theorem layout_eq (ws : List (Seconds × List Char)) :
    layout ws = ['\n'].intercalate (spaced ws) := by
  induction ws with
  | nil => rfl
  | cons w ws ih =>
    cases ws with
    | nil => simp [layout, spaced]
    | cons w' ws =>
      have hne := spaced_ne_nil w' ws
      simp only [layout, spaced]
      rw [ih]
      split
      · rw [intercalate_cons_of_ne_nil (List.cons_ne_nil _ _), intercalate_cons_of_ne_nil hne]
        simp
      · rw [intercalate_cons_of_ne_nil hne]
        simp

theorem mem_spaced {ws : List (Seconds × List Char)} {line : List Char} (h : line ∈ spaced ws) :
    line = [] ∨ line ∈ ws.map Prod.snd := by
  induction ws with
  | nil => cases h
  | cons w ws ih =>
    cases ws with
    | nil => exact .inr h
    | cons w' ws =>
      have hlater : line ∈ spaced (w' :: ws) → line = [] ∨ line ∈ (w :: w' :: ws).map Prod.snd :=
        fun h => (ih h).imp_right (List.mem_cons_of_mem _)
      simp only [spaced] at h
      split at h <;> simp only [List.mem_cons] at h
      · rcases h with rfl | rfl | h
        · exact .inr List.mem_cons_self
        · exact .inl rfl
        · exact hlater h
      · rcases h with rfl | h
        · exact .inr List.mem_cons_self
        · exact hlater h

theorem filter_spaced {ws : List (Seconds × List Char)} (h : ∀ line ∈ ws.map Prod.snd, line ≠ []) :
    (spaced ws).filter (· ≠ []) = ws.map Prod.snd := by
  induction ws with
  | nil => rfl
  | cons w ws ih =>
    obtain ⟨hne, hrest⟩ := List.forall_mem_cons.mp h
    cases ws with
    | nil => simpa [spaced] using hne
    | cons w' ws =>
      have hlater := ih hrest
      have hne : w.2 ≠ [] := hne
      simp only [spaced]
      split
      · simpa [hne] using hlater
      · simpa [hne] using hlater

def textLines (text : List Char) : List (List Char) := (text.splitOn '\n').filter (· ≠ [])

def withoutBlankLines (text : List Char) : List Char := ['\n'].intercalate (textLines text)

theorem textLines_layout {ws : List (Seconds × List Char)}
    (h : ∀ line ∈ ws.map Prod.snd, line ≠ [] ∧ '\n' ∉ line) :
    textLines (layout ws) = ws.map Prod.snd := by
  have hfilter := filter_spaced fun line hline => (h line hline).1
  have hlines : ∀ line ∈ spaced ws, '\n' ∉ line := by
    intro line hline
    rcases mem_spaced hline with rfl | hline
    · exact List.not_mem_nil
    · exact (h line hline).2
  cases ws with
  | nil => decide
  | cons w ws =>
    rw [textLines, layout_eq, List.splitOn_intercalate '\n' hlines (spaced_ne_nil w ws), hfilter]

/-! ## Reading the lines back -/

theorem Lists.layout {es : List Entry} {ws : List (Seconds × List Char)}
    (h : ws.map Prod.snd = es.map Entry.text) : Lists es (layout ws) := by
  induction ws generalizing es with
  | nil =>
    cases es with
    | nil => exact .rest (by simp [Transcript.layout])
    | cons e es => cases h
  | cons w ws ih =>
    obtain ⟨anchor, line⟩ := w
    cases es with
    | nil => cases h
    | cons e es =>
      obtain ⟨hline, hrest⟩ := List.cons.inj h
      have hline : line = e.text := hline
      subst hline
      cases ws with
      | nil =>
        obtain rfl : es = [] := by simpa using hrest.symm
        simpa [Transcript.layout] using Lists.singleton e
      | cons w' ws =>
        simp only [Transcript.layout]
        rw [List.append_assoc]
        refine Lists.cons e ((ih hrest).append ?_)
        split <;> decide

theorem newline_notMem (e : Entry) : '\n' ∉ e.text := by
  rw [← e.fields_text]
  exact e.fields_isCue.shaped.notMem rfl (by decide) (by decide)

/-- The lines of the notes that are written are the canonical texts of their cues, and the empty
lines only move these. -/
theorem written_lines_read_back (h : r.Early) :
    textLines (write r) = ((parse (write r)).map fun c => c.canonical) ∧
      (parse (withoutBlankLines (write r))).map Cue.atOrigin =
        (parse (write r)).map Cue.atOrigin := by
  obtain ⟨es, hes, _⟩ := exists_entries_written h
  have hparse : (parse (write r)).map Cue.atOrigin = numbered 0 es := (Lists.layout hes).parse
  have hlines : textLines (write r) = es.map Entry.text := by
    rw [write, textLines_layout, hes]
    rw [hes]
    intro line hline
    obtain ⟨e, _, rfl⟩ := List.mem_map.mp hline
    exact ⟨e.text_ne_nil, newline_notMem e⟩
  constructor
  · rw [hlines, ← canonical_atOrigin, hparse, numbered_canonical]
  · rw [withoutBlankLines, hlines, hparse]
    exact (Lists.lines es).parse

def leaping : Recording where
  id := ⟨0⟩
  document := 1
  title := none
  duration := 120
  volume := 80
  rate := 1
  created := .ofMillis 0
  updated := .ofMillis 0
  events := [⟨⟨0⟩, 0.5, .manual, 0, 0, .ofMillis 0⟩, ⟨⟨1⟩, 2, .seek, 60, 2, .ofMillis 0⟩,
    ⟨⟨2⟩, -1, .manual, 0, 0, .ofMillis 0⟩, ⟨⟨3⟩, 61.25, .pause, 2, 0, .ofMillis 0⟩]

theorem leaping_reads_back :
    leaping.Early ∧ write leaping =
      ("[00:00:00.500-00:00:02.000,80%,1.00x,->]\n[00:01:00.000-00:01:03.000,80%,1.00x]\n\n" ++
        "[00:01:01.250-00:01:04.250,80%,1.00x]").toList ∧
      textLines (write leaping) = ((parse (write leaping)).map fun c => c.canonical) ∧
      (parse (withoutBlankLines (write leaping))).map Cue.atOrigin =
        (parse (write leaping)).map Cue.atOrigin := by
  have hearly : leaping.Early := by
    unfold Recording.Early
    decide +kernel
  exact ⟨hearly, by decide +kernel, written_lines_read_back hearly⟩

end Transcript

end PlaybackCues
