import PlaybackCues.Proofs.Resolver.Expiry
import PlaybackCues.Proofs.Resolver.Replay

set_option autoImplicit false

/-!
# Seeks that are announced and seeks that are noticed

A seek of the user is announced to the resolver, or a tick notices that the time has moved further
than playback can. Either way the active cue is left and the cues that are over count as executed,
before the tick looks for a cue that is due. What the two ways leave different are levels, and
these decide nothing about the course of the cues.
-/
namespace PlaybackCues

namespace Resolver

variable {r q : Resolver} {s : Snapshot} {now : Seconds}

/-! ## The cues that are over -/

theorem mem_passed {id : Uuid} :
    id ∈ r.passed now ↔ ∃ c ∈ r.cues, c.id = id ∧ c.start < now ∧ c.holds now = false := by
  simp only [passed, List.mem_map, List.mem_filter, Bool.and_eq_true, decide_eq_true_eq,
    Bool.not_eq_true']
  constructor
  · rintro ⟨c, ⟨hc, hpast⟩, hid⟩
    exact ⟨c, hc, hid, hpast⟩
  · rintro ⟨c, hc, hid, hpast⟩
    exact ⟨c, ⟨hc, hpast⟩, hid⟩

/-- What counts as executed after a seek are the cues that end before its target. -/
theorem mem_passed_iff (hb : Built r.cues) {id : Uuid} :
    id ∈ r.passed now ↔ ∃ c ∈ r.cues, c.id = id ∧ c.stop < now := by
  rw [mem_passed]
  refine exists_congr fun c => and_congr_right fun hc => and_congr_right fun _ => ?_
  obtain ⟨hstart, hstop, _, hwindow⟩ := hb.window hc
  constructor
  · rintro ⟨hlt, hover⟩
    have hnow := (Binary64.isNaN_of_le (Binary64.le_of_lt hlt)).2
    have hle : ¬ now ≤ c.stop := by
      simpa [CueSpec.holds, Binary64.within, Binary64.le_of_lt hlt] using hover
    exact (Binary64.not_le hnow (Binary64.isNaN_of_isFinite hstop)).mp hle
  · intro hover
    refine ⟨Binary64.lt_trans ((Binary64.not_le_of_isFinite hstop hstart).mp hwindow) hover, ?_⟩
    have hle : ¬ now ≤ c.stop := fun h => Binary64.not_lt_of_le h hover
    simp [CueSpec.holds, Binary64.within, hle]

theorem passed_congr {a b : Seconds} (h : a.position = b.position) : r.passed a = r.passed b := by
  unfold passed
  congr 1
  refine List.filter_congr fun c _ => ?_
  simp only [CueSpec.holds, Binary64.within, Binary64.lt_congr_right h, (Binary64.le_congr h).1,
    (Binary64.le_congr h).2]

/-! ## Before a cue can start -/

/-- The state in which a tick looks for a cue that is due, if it comes so far. -/
def poised? (r : Resolver) (s : Snapshot) : Option Resolver :=
  if s.state = .ended then none
  else
    match r.settle s.time with
    | .waiting _ => none
    | .done q =>
      match (q.detect s.time).resolver.continueActive s with
      | .stop _ => none
      | .idle rest =>
        some (if ((q.detect s.time).directives ++ rest.directives).isEmpty then
          rest.resolver.trackDefaults s else ⟨rest.resolver, []⟩ : Response).resolver

/-- Nothing starts during a pause. -/
theorem tick_of_poised {b : Resolver} (h : r.poised? s = some b) :
    (r.tick s).resolver =
      { (if b.awaiting then ⟨b, []⟩ else b.activate s.time : Response).resolver with
        last := s.time } := by
  unfold poised? at h
  split at h
  · cases h
  · rename_i hs
    split at h
    · cases h
    · rename_i q hq
      split at h
      · cases h
      · rename_i rest ho
        cases h
        rw [tick_done hs hq, evaluate_idle ho]
        rfl

/-- A tick with nothing active and no seek in flight comes so far. -/
theorem poised?_of_rest (hs : s.state ≠ .ended) {p : Resolver} (hq : r.settle s.time = .done p)
    (ha : (p.detect s.time).resolver.active = none) : ∃ defaults restore,
    r.poised? s = some { (p.detect s.time).resolver with
      defaults := defaults, restore := restore } := by
  have hon : (p.detect s.time).resolver.continueActive s = .idle ⟨(p.detect s.time).resolver, []⟩ := by
    simp [continueActive, ha]
  unfold poised?
  simp only [if_neg hs, hq, hon]
  generalize (p.detect s.time).resolver = d
  split
  · obtain ⟨defaults, restore, htrack⟩ := d.trackDefaults_resolver s
    exact ⟨defaults, restore, congrArg some htrack⟩
  · exact ⟨d.defaults, d.restore, rfl⟩

/-! ## States that differ in their levels -/

def Alike (r q : Resolver) : Prop :=
  q = { r with last := q.last, defaults := q.defaults, restore := q.restore }

theorem Alike.activate (h : Alike r q) (now : Seconds) :
    Alike (r.activate now).resolver (q.activate now).resolver := by
  have hdue : q.due? now = r.due? now := by
    rw [h]
    rfl
  unfold Resolver.activate
  rw [hdue]
  cases r.due? now with
  | none => exact h
  | some c =>
    unfold Alike
    rw [h]
    rfl

structure SameCourse (r q : Resolver) : Prop where
  active : r.active = q.active
  executed : r.executed = q.executed
  last : r.last = q.last
  flight : r.flight = q.flight
  phase : r.phase = q.phase

theorem Alike.sameCourse (h : Alike r q) (hlast : r.last = q.last) : SameCourse r q := by
  rw [h]
  exact ⟨rfl, rfl, hlast, rfl, rfl⟩

theorem sameCourse_of_poised {p b c : Resolver} (hb : q.poised? s = some b)
    (hc : p.poised? s = some c) (h : Alike b c) :
    SameCourse (q.tick s).resolver (p.tick s).resolver := by
  rw [tick_of_poised hb, tick_of_poised hc]
  have hwait : c.awaiting = b.awaiting := by rw [h]
  rw [hwait]
  refine Alike.sameCourse ?_ rfl
  split
  · unfold Alike
    rw [h]
  · have hnext := h.activate s.time
    unfold Alike at hnext ⊢
    rw [hnext]

/-! ## After a seek -/

theorem moveTo_resolver (r : Resolver) (now : Seconds) : ∃ restore, (r.moveTo now).resolver =
    { r with active := none, executed := r.passed now, last := now, restore := restore } := by
  cases ha : r.active with
  | none =>
    rw [moveTo_idle ha, ← ha]
    exact ⟨r.restore, rfl⟩
  | some id =>
    refine ⟨some r.defaults, ?_⟩
    simp [moveTo, leave, ha, restoreDefaults, passed]

/-- A tick that notices a seek. -/
theorem poised?_of_moved (hf : r.flight = none) (hs : s.state ≠ .ended)
    (hr : r.restarted s.time = false) (hm : r.moved s.time = true) : ∃ defaults restore,
    r.poised? s = some { r with
      active := none, executed := r.passed s.time, last := s.time
      defaults := defaults, restore := restore } := by
  have hq : r.settle s.time = .done r := by simp [settle, hf]
  obtain ⟨restore, hmove⟩ := r.moveTo_resolver s.time
  have hd : (r.detect s.time).resolver = (r.moveTo s.time).resolver := by simp [detect, hr, hm]
  rw [hmove] at hd
  obtain ⟨defaults, restore, hpoised⟩ := poised?_of_rest hs hq (by rw [hd])
  rw [hd] at hpoised
  exact ⟨defaults, restore, hpoised⟩

/-- A tick that finds the player where the user sent it. It may notice a move only if no distance
is tolerated. -/
theorem poised?_of_userSeek (hf : r.flight = none) (hs : s.state ≠ .ended) (hpos : 0 ≤ s.time)
    (haway : r.tolerances.restart < s.time) : ∃ last defaults restore,
    (r.userSeek s.time).resolver.poised? s = some { r with
      active := none, executed := r.passed s.time, last := last
      defaults := defaults, restore := restore } := by
  obtain ⟨restore, hmove⟩ := Resolver.moveTo_resolver { r with flight := none } (s.time.max 0)
  have hsought : (r.userSeek s.time).resolver = { r with
      active := none, executed := r.passed s.time, last := s.time.max 0, restore := restore } := by
    change (Resolver.moveTo _ { r with flight := none }).resolver = _
    rw [hmove, ← passed_congr (Binary64.position_max_zero hpos), ← hf]
  generalize hq : (r.userSeek s.time).resolver = q at hsought
  have hqf : q.flight = none := by rw [hsought]; exact hf
  have hqr : q.restarted s.time = false := by
    have hnot : ¬ s.time ≤ r.tolerances.restart := fun h => Binary64.not_lt_of_le h haway
    rw [hsought]
    simp [restarted, hnot]
  cases hqm : q.moved s.time with
  | true =>
    obtain ⟨defaults, restore, hpoised⟩ := poised?_of_moved hqf hs hqr hqm
    rw [hpoised, hsought]
    exact ⟨s.time, defaults, restore, rfl⟩
  | false =>
    have hstill := detect_still hqr hqm
    obtain ⟨defaults, restore, hpoised⟩ := poised?_of_rest (r := q) hs (by simp [settle, hqf])
      (p := q) (by rw [hstill, hsought])
    rw [hpoised, hstill, hsought]
    exact ⟨s.time.max 0, defaults, restore, rfl⟩

/-- A seek that is announced and then met by a tick ends in the same course as one that the tick
notices. Either way the cues that end before the target, and no others, are executed when the tick
looks for a cue that is due. -/
theorem userSeek_agrees {t : Tolerances} (h : Reachable t r) (hflight : r.flight = none)
    (hlive : s.state ≠ .ended) (hpos : 0 ≤ s.time) (haway : t.restart < s.time)
    (hfar : t.seek < (s.time - r.last).abs) :
    SameCourse ((r.userSeek s.time).resolver.tick s).resolver (r.tick s).resolver ∧
      ∀ q ∈ [(r.userSeek s.time).resolver, r], ∃ b, q.poised? s = some b ∧
        ∀ id, id ∈ b.executed ↔ ∃ c ∈ r.cues, c.id = id ∧ c.stop < s.time := by
  have hc := h.coherent
  have hpassed : ∀ id, id ∈ r.passed s.time ↔ ∃ c ∈ r.cues, c.id = id ∧ c.stop < s.time :=
    fun _ => mem_passed_iff hc.built
  have hrest : r.restarted s.time = false := by
    have hnot : ¬ s.time ≤ r.tolerances.restart := by
      rw [hc.tolerances_eq]
      exact fun hle => Binary64.not_lt_of_le hle haway
    simp [restarted, hnot]
  have hmoved : r.moved s.time = true := by
    unfold moved
    rw [hc.tolerances_eq]
    exact decide_eq_true hfar
  rw [← hc.tolerances_eq] at haway
  obtain ⟨last, defaults, restore, hasked⟩ := poised?_of_userSeek hflight hlive hpos haway
  obtain ⟨defaults', restore', hnoticed⟩ := poised?_of_moved hflight hlive hrest hmoved
  refine ⟨sameCourse_of_poised hasked hnoticed rfl, fun q hq => ?_⟩
  simp only [List.mem_cons, List.not_mem_nil, or_false] at hq
  rcases hq with rfl | rfl
  · exact ⟨_, hasked, hpassed⟩
  · exact ⟨_, hnoticed, hpassed⟩

/-- Out of a cue into another one: the first counts as executed, though it was not over. -/
theorem justStarted_seek_agrees :
    let s : Snapshot := ⟨40.25, 50, 1, .playing⟩
    let noticed := (justStarted.tick s).resolver
    SameCourse ((justStarted.userSeek s.time).resolver.tick s).resolver noticed ∧
      noticed.active = some (fortyToFifty.rounded.place 1 0).id ∧
      ∀ q ∈ [(justStarted.userSeek s.time).resolver, justStarted], ∃ b, q.poised? s = some b ∧
        ∀ id, id ∈ b.executed ↔ ∃ c ∈ justStarted.cues, c.id = id ∧ c.stop < s.time := by
  intro s noticed
  obtain ⟨hsame, hpoised⟩ := userSeek_agrees justStarted_reachable (s := s) (by decide +kernel)
    (by decide) (by decide +kernel) (by decide +kernel) (by decide +kernel)
  exact ⟨hsame, by decide +kernel, hpoised⟩

end Resolver

end PlaybackCues
