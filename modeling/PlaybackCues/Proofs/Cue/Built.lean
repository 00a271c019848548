import PlaybackCues.Cue.Validation

set_option autoImplicit false

/-!
# Built cues

A list of cues is `Built` when each of them passed the checks, and ids tell apart whatever differs
in index or text. The window of a built cue is finite, and it starts before it ends.
-/
namespace PlaybackCues

structure Built (cues : List Cue) : Prop where
  built : ∀ c ∈ cues, ∃ spec : CueSpec, spec.build c.index c.offset = .ok c
  told : ∀ c ∈ cues, ∀ d ∈ cues, c.id = d.id → c.index = d.index ∧ c.text = d.text

namespace CueSpec

theorem build_eq_ok_iff {spec : CueSpec} {index offset : Nat} {c : Cue} :
    spec.build index offset = .ok c ↔
      spec.rounded.check = .ok () ∧ spec.rounded.place index offset = c := by
  unfold build
  cases spec.rounded.check with
  | error e => simp [bind, Except.bind]
  | ok u => simp [bind, Except.bind, pure, Except.pure]

theorem checkWindow_of_check {spec : CueSpec} (h : spec.check = .ok ()) :
    checkWindow spec.start spec.stop = .ok () := by
  unfold check at h
  cases hw : checkWindow spec.start spec.stop with
  | error e => simp [hw, bind, Except.bind] at h
  | ok u => rfl

end CueSpec

theorem checkWindow_eq_ok {start stop : Seconds} (h : checkWindow start stop = .ok ()) :
    start.isFinite = true ∧ stop.isFinite = true ∧ ¬ start < 0 ∧ ¬ stop ≤ start := by
  unfold checkWindow at h
  split at h
  · cases h
  · rename_i hfin
    split at h
    · cases h
    · rename_i hneg
      split at h
      · cases h
      · rename_i hle
        simp only [Bool.or_eq_true, Bool.not_eq_true', not_or, Bool.not_eq_false] at hfin
        exact ⟨hfin.1, hfin.2, hneg, hle⟩

theorem Built.window {cues : List Cue} (h : Built cues) {c : Cue} (hc : c ∈ cues) :
    c.start.isFinite = true ∧ c.stop.isFinite = true ∧ ¬ c.start < 0 ∧ ¬ c.stop ≤ c.start := by
  obtain ⟨spec, hspec⟩ := h.built c hc
  obtain ⟨hcheck, hplace⟩ := CueSpec.build_eq_ok_iff.mp hspec
  rw [← hplace]
  exact checkWindow_eq_ok (CueSpec.checkWindow_of_check hcheck)

theorem ok_of_toOption {e : Except Invalid Unit} (h : e.toOption = some ()) : e = .ok () := by
  cases e with
  | error e => cases h
  | ok u => rfl

theorem built_pair {c d : CueSpec} (hc : c.rounded.check.toOption = some ())
    (hd : d.rounded.check.toOption = some ())
    (hid : (c.rounded.place 0 0).id ≠ (d.rounded.place 1 0).id) :
    Built [c.rounded.place 0 0, d.rounded.place 1 0] where
  built := by
    intro e he
    simp only [List.mem_cons, List.not_mem_nil, or_false] at he
    rcases he with rfl | rfl
    · exact ⟨c, CueSpec.build_eq_ok_iff.mpr ⟨ok_of_toOption hc, rfl⟩⟩
    · exact ⟨d, CueSpec.build_eq_ok_iff.mpr ⟨ok_of_toOption hd, rfl⟩⟩
  told := by
    intro e he f hf h
    simp only [List.mem_cons, List.not_mem_nil, or_false] at he hf
    rcases he with rfl | rfl <;> rcases hf with rfl | rfl
    · exact ⟨rfl, rfl⟩
    · exact absurd h hid
    · exact absurd h.symm hid
    · exact ⟨rfl, rfl⟩

end PlaybackCues
