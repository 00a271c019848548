import PlaybackCues.Proofs.Number.Order
import PlaybackCues.Proofs.Resolver.Forward
import PlaybackCues.Proofs.Resolver.Waiting

set_option autoImplicit false

/-!
# Straight playback

A pass is straight when playback only goes on, by at most `d` units from tick to tick, and stands
still while a pause lasts. Take cues without jumps whose windows are longer than `2 * d` units and
meet at their ends at most. Then in a straight pass no cue is missed: what has been executed is
over, and what is neither executed nor active started at most `d` units ago. Times are compared
exactly, in units.
-/
namespace PlaybackCues

structure Spaced (d : Nat) (cues : List Cue) : Prop where
  told : ∀ c ∈ cues, ∀ e ∈ cues, c.id = e.id → c = e
  no_jump : ∀ c ∈ cues, c.mode ≠ .jump
  window : ∀ c ∈ cues, checkWindow c.start c.stop = .ok ()
  long : ∀ c ∈ cues, c.start.units + 2 * d < c.stop.units
  apart : ∀ c ∈ cues, ∀ e ∈ cues, c ≠ e →
    c.stop.units ≤ e.start.units ∨ e.stop.units ≤ c.start.units

namespace Spaced

variable {d : Nat} {cues : List Cue} {c e : Cue}

theorem finite (h : Spaced d cues) (hc : c ∈ cues) :
    c.start.isFinite = true ∧ c.stop.isFinite = true :=
  ⟨(checkWindow_eq_ok (h.window c hc)).1, (checkWindow_eq_ok (h.window c hc)).2.1⟩

theorem nonneg (h : Spaced d cues) (hc : c ∈ cues) : 0 ≤ c.start.units := by
  have hneg := (checkWindow_eq_ok (h.window c hc)).2.2.1
  rw [Binary64.lt_iff_units (h.finite hc).1 Binary64.isFinite_zero, Binary64.units_zero] at hneg
  omega

/-- A cue that is not over `d` units after its start comes after a cue that has begun. -/
theorem follows (h : Spaced d cues) (hc : c ∈ cues) (he : e ∈ cues) (hne : c ≠ e) {now : Int}
    (hstart : c.start.units ≤ now) (hahead : now ≤ e.start.units + 2 * d) :
    c.stop.units ≤ e.start.units := by
  have hlong := h.long e he
  rcases h.apart c hc e he hne with hafter | hbefore
  · exact hafter
  · omega

theorem holds_iff (h : Spaced d cues) (hc : c ∈ cues) {now : Seconds} (hnow : now.isFinite = true) :
    c.holds now = true ↔ c.start.units ≤ now.units ∧ now.units ≤ c.stop.units := by
  unfold CueSpec.holds Binary64.within
  rw [Bool.and_eq_true, decide_eq_true_iff, decide_eq_true_iff,
    Binary64.le_iff_units (h.finite hc).1 hnow, Binary64.le_iff_units hnow (h.finite hc).2]

end Spaced

namespace Resolver

/-- From the time given on, playback goes on by at most `d` units from tick to tick and does not
end. It stands still from a tick that pauses until the pause is over. -/
def Straight (d : Nat) : Resolver → Seconds → Bool → List Action → Prop
  | _, _, _, [] => True
  | r, now, still, .tick s :: as =>
    s.state ≠ .ended ∧ s.time.isFinite = true ∧ now.units ≤ s.time.units ∧
      s.time.units ≤ now.units + (if still then 0 else d) ∧
      Straight d (r.tick s).resolver s.time (still || decide (.pause ∈ (r.tick s).directives)) as
  | r, now, _, .resumeDue :: as => Straight d r.resumeDue.resolver now false as
  | _, _, _, _ :: _ => False

instance decidableStraight (d : Nat) : (r : Resolver) → (now : Seconds) → (still : Bool) →
    (as : List Action) → Decidable (Straight d r now still as)
  | _, _, _, [] => inferInstanceAs (Decidable True)
  | r, _, still, .tick s :: as =>
    have := decidableStraight d (r.tick s).resolver s.time
      (still || decide (Directive.pause ∈ (r.tick s).directives)) as
    inferInstanceAs (Decidable (_ ∧ _ ∧ _ ∧ _ ∧ _))
  | r, now, _, .resumeDue :: as => decidableStraight d r.resumeDue.resolver now false as
  | _, _, _, .load _ :: _ | _, _, _, .userSeek _ :: _ | _, _, _, .reset :: _
  | _, _, _, .endOfMedia :: _ => inferInstanceAs (Decidable False)

structure OnCourse (d : Nat) (t : Tolerances) (cues : List Cue) (r : Resolver) (now : Seconds) :
    Prop where
  tolerances_eq : r.tolerances = t
  cues_eq : r.cues = byIndex cues
  flight : r.flight = none
  last : r.last = now
  finite : now.isFinite = true
  behind : ∀ c ∈ cues, c.id ∈ r.executed → c.stop.units < now.units
  playing : ∀ id, r.active = some id →
    ∃ c ∈ cues, c.id = id ∧ c.start.units ≤ now.units ∧ now.units ≤ c.stop.units
  ahead : ∀ c ∈ cues, c.id ∉ r.executed → r.active ≠ some c.id →
    now.units ≤ c.start.units + d

structure Idling (d : Nat) (t : Tolerances) (cues : List Cue) (r : Resolver) (now : Seconds) :
    Prop where
  tolerances_eq : r.tolerances = t
  cues_eq : r.cues = byIndex cues
  flight : r.flight = none
  active : r.active = none
  finite : now.isFinite = true
  behind : ∀ c ∈ cues, c.id ∈ r.executed → c.stop.units < now.units
  ahead : ∀ c ∈ cues, c.id ∉ r.executed →
    now.units ≤ c.start.units + (if r.awaiting then d else 2 * d)

section Step

variable {d : Nat} {t : Tolerances} {cues : List Cue} {r : Resolver} {now : Seconds} {s : Snapshot}

/-! ## Going on without a cue -/

namespace Idling

theorem wait (h : Idling d t cues r now) (hw : r.awaiting = true) :
    OnCourse d t cues { r with last := now } now where
  tolerances_eq := h.tolerances_eq
  cues_eq := h.cues_eq
  flight := h.flight
  last := rfl
  finite := h.finite
  behind := h.behind
  playing := by simp [h.active]
  ahead := by
    intro c hc hex _
    have hle := h.ahead c hc hex
    rwa [if_pos hw] at hle

theorem overtaken_executed (h : Idling d t cues r now) (hw : r.awaiting = false)
    (hs : Spaced d cues) {c : Cue} (hc : c ∈ cues) (hholds : c.holds now = true) {id : Uuid}
    (hid : id ∈ r.overtaken c now) : id ∈ r.executed := by
  obtain ⟨e, he, rfl, hindex, hpast⟩ := mem_overtaken.mp hid
  have hmem : e ∈ cues := mem_byIndex.mp (h.cues_eq ▸ he)
  have hne : c ≠ e := by
    rintro rfl
    omega
  rw [Binary64.lt_iff_units (hs.finite hmem).1 h.finite] at hpast
  obtain ⟨hstart, hstop⟩ := (hs.holds_iff hc h.finite).mp hholds
  refine Decidable.byContradiction fun hex => ?_
  have hle := h.ahead e hmem hex
  rw [if_neg (by simp [hw])] at hle
  have := hs.follows hc hmem hne hstart hle
  omega

theorem activate (h : Idling d t cues r now) (hw : r.awaiting = false) (hs : Spaced d cues)
    (hact : t.activation.AtLeast (2 * d)) :
    OnCourse d t cues { (r.activate now).resolver with last := now } now := by
  have hahead : ∀ c ∈ cues, c.id ∉ r.executed → now.units ≤ c.start.units + 2 * d := by
    intro c hc hex
    have hle := h.ahead c hc hex
    rwa [if_neg (by simp [hw])] at hle
  have hstarted := r.started now
  generalize r.activate now = a at hstarted ⊢
  cases hstarted with
  | begun c hdue =>
    obtain ⟨hmem, hholds, _⟩ := due?_some hdue
    have hc : c ∈ cues := mem_byIndex.mp (h.cues_eq ▸ hmem)
    obtain ⟨hstart, hstop⟩ := (hs.holds_iff hc h.finite).mp hholds
    have hexec : ∀ {id : Uuid}, id ∈ (r.retire (r.overtaken c now)).executed → id ∈ r.executed := by
      intro id hid
      rcases mem_retire.mp hid with hid | hid
      · exact h.overtaken_executed hw hs hc hholds hid
      · exact hid
    refine ⟨h.tolerances_eq, h.cues_eq, h.flight, rfl, h.finite,
      fun e he hid => h.behind e he (hexec hid), ?_, ?_⟩
    · intro id hid
      cases hid
      exact ⟨c, hc, rfl, hstart, hstop⟩
    · intro e he hex hne
      have hex : e.id ∉ r.executed := fun hid => hex (mem_retire.mpr (.inr hid))
      have hce : c ≠ e := by
        rintro rfl
        exact hne rfl
      have := hs.follows hc he hce hstart (hahead e he hex)
      omega
  | still hdue =>
    refine ⟨h.tolerances_eq, h.cues_eq, h.flight, rfl, h.finite, h.behind, by simp [h.active], ?_⟩
    intro c hc hex _
    have hle := hahead c hc hex
    have hlong := hs.long c hc
    have hnot := List.find?_eq_none.mp hdue c (h.cues_eq ▸ mem_byIndex.mpr hc)
    -- a cue that has begun would be due
    refine Decidable.byContradiction fun hlate => hnot ?_
    have hholds := (hs.holds_iff hc h.finite).mpr ⟨by omega, by omega⟩
    have hrecent : now - c.start ≤ r.tolerances.activation := by
      rw [h.tolerances_eq]
      exact hact.sub_le h.finite (hs.finite hc).1 (by omega)
    simp [hholds, hex, hrecent]

theorem idle (h : Idling d t cues r s.time) (hs : Spaced d cues)
    (hact : t.activation.AtLeast (2 * d)) (quiet : Bool) :
    OnCourse d t cues (r.idle quiet s).resolver s.time := by
  obtain ⟨defaults, restore, hidle⟩ := idle_resolver quiet s r
  have hq : Idling d t cues { r with defaults := defaults, restore := restore } s.time := { h with }
  rw [hidle]
  split
  · rename_i hw
    exact hq.wait hw
  · rename_i hw
    exact hq.activate (by simpa using hw) hs hact

end Idling

/-! ## Ticks -/

namespace OnCourse

theorem start (hs : Spaced d cues) : OnCourse d t cues (fresh t cues) 0 := by
  rw [fresh_eq]
  refine ⟨rfl, rfl, rfl, rfl, by decide +kernel, by simp, by simp, ?_⟩
  intro c hc _ _
  have hzero : (0 : Seconds).units = 0 := Binary64.units_zero
  have := hs.nonneg hc
  omega

theorem activeCue? (h : OnCourse d t cues r now) (hs : Spaced d cues) {id : Uuid}
    (ha : r.active = some id) : ∃ c ∈ cues, c.id = id ∧ r.activeCue? = some c ∧
      c.start.units ≤ now.units ∧ now.units ≤ c.stop.units := by
  obtain ⟨c, hc, hid, hstart, hstop⟩ := h.playing id ha
  refine ⟨c, hc, hid, ?_, hstart, hstop⟩
  cases hf : r.find? id with
  | none =>
    have hmem : c ∈ r.cues := h.cues_eq ▸ mem_byIndex.mpr hc
    exact absurd hid (by simpa using List.find?_eq_none.mp hf c hmem)
  | some e =>
    obtain ⟨he, hei⟩ := find?_some hf
    have hec : e = c := hs.told e (mem_byIndex.mp (h.cues_eq ▸ he)) c hc (hei.trans hid.symm)
    rw [Resolver.activeCue?, ha, ← hec]
    exact hf

theorem window (h : OnCourse d t cues r now) (hs : Spaced d cues) {c : Cue}
    (hc : r.activeCue? = some c) : c ∈ cues ∧ r.active = some c.id ∧
      c.start.units ≤ now.units ∧ now.units ≤ c.stop.units := by
  have ha := (activeCue?_some hc).2
  obtain ⟨e, he, _, hfound, hstart, hstop⟩ := h.activeCue? hs ha
  cases hc.symm.trans hfound
  exact ⟨he, ha, hstart, hstop⟩

theorem resumeDue (h : OnCourse d t cues r now) : OnCourse d t cues r.resumeDue.resolver now := by
  rw [resumeDue_resolver]
  exact { h with }

theorem undisplaced (h : OnCourse d t cues r now) (hseek : t.seek.AtLeast d)
    (hfin : s.time.isFinite = true) (hle : now.units ≤ s.time.units)
    (hnear : s.time.units ≤ now.units + d) :
    r.restarted s.time = false ∧ r.moved s.time = false := by
  constructor
  · have hback : ¬ r.tolerances.seek < r.last - s.time := by
      rw [h.tolerances_eq, h.last]
      exact Binary64.not_lt_of_le (hseek.sub_le h.finite hfin (by omega))
    simp [restarted, hback]
  · have hfar : ¬ r.tolerances.seek < (s.time - r.last).abs := by
      rw [h.tolerances_eq, h.last]
      exact Binary64.not_lt_of_le (hseek.distance_le hfin h.finite (by omega))
    simp [moved, hfar]

theorem covers_iff (h : OnCourse d t cues r now) (hs : Spaced d cues)
    (hact : t.activation.AtLeast (2 * d)) {c : Cue} (hc : c ∈ cues)
    (hfin : s.time.isFinite = true) (hstart : c.start.units ≤ s.time.units) :
    r.covers c s.time = true ↔ s.time.units ≤ c.stop.units := by
  have hearly : c.start - r.tolerances.activation ≤ s.time := by
    rw [h.tolerances_eq]
    exact (hact.mono (by omega)).sub_le_of_le (hs.finite hc).1 hfin
      ((Binary64.le_iff_units (hs.finite hc).1 hfin).mpr hstart)
  unfold covers
  rw [decide_eq_true hearly, Bool.and_true, decide_eq_true_iff,
    Binary64.le_iff_units hfin (hs.finite hc).2]

/-- While a cue is active, whatever else is not executed comes after it. -/
theorem follows (h : OnCourse d t cues r now) (hs : Spaced d cues) {c e : Cue} (hc : c ∈ cues)
    (ha : r.active = some c.id) (hstart : c.start.units ≤ now.units) (he : e ∈ cues)
    (hex : e.id ∉ r.executed) (hne : e.id ≠ c.id) : c.stop.units ≤ e.start.units := by
  have hahead := h.ahead e he hex fun hea => hne (Option.some.inj (hea.symm.trans ha))
  exact hs.follows hc he (fun hce => hne (hce ▸ rfl)) hstart (by omega)

theorem hold (h : OnCourse d t cues r now) (hs : Spaced d cues) {c : Cue} (hc : c ∈ cues)
    (ha : r.active = some c.id) (hstart : c.start.units ≤ now.units)
    (hfin : s.time.isFinite = true) (hle : now.units ≤ s.time.units)
    (hstop : s.time.units ≤ c.stop.units) :
    OnCourse d t cues { r with last := s.time } s.time := by
  refine { h with last := rfl, finite := hfin, behind := ?_, playing := ?_, ahead := ?_ }
  · intro e he hid
    have := h.behind e he hid
    omega
  · intro id hid
    cases ha.symm.trans hid
    exact ⟨c, hc, rfl, by omega, hstop⟩
  · intro e he hex hne
    have := h.follows hs hc ha hstart he hex fun heq => hne (heq ▸ ha)
    omega

theorem finish (h : OnCourse d t cues r now) (hs : Spaced d cues) {c : Cue} (hc : c ∈ cues)
    (ha : r.active = some c.id) (hstart : c.start.units ≤ now.units)
    (hstop : now.units ≤ c.stop.units) (hnear : s.time.units ≤ now.units + d)
    (hover : c.stop.units < s.time.units) :
    (∀ e ∈ cues, e.id ∈ (r.finish c).executed → e.stop.units < s.time.units) ∧
      ∀ e ∈ cues, e.id ∉ (r.finish c).executed → s.time.units ≤ e.start.units + d := by
  constructor
  · intro e he hid
    rcases mem_retire.mp hid with hid | hid
    · rwa [hs.told e he c hc (List.mem_singleton.mp hid)]
    · have := h.behind e he hid
      omega
  · intro e he hid
    have hex : e.id ∉ r.executed := fun hmem => hid (mem_retire.mpr (.inr hmem))
    have hne : e.id ≠ c.id := fun heq => hid (mem_retire.mpr (.inl (List.mem_singleton.mpr heq)))
    have := h.follows hs hc ha hstart he hex hne
    omega

theorem idling (h : OnCourse d t cues r now) (ha : r.active = none)
    (hfin : s.time.isFinite = true) (hle : now.units ≤ s.time.units)
    (hnear : s.time.units ≤ now.units + d)
    (hstill : r.awaiting = true → s.time.units = now.units) : Idling d t cues r s.time := by
  refine ⟨h.tolerances_eq, h.cues_eq, h.flight, ha, hfin, ?_, ?_⟩
  · intro c hc hid
    have := h.behind c hc hid
    omega
  · intro c hc hex
    have := h.ahead c hc hex (by simp [ha])
    split
    · rename_i hw
      have := hstill hw
      omega
    · omega

theorem tick (h : OnCourse d t cues r now) (hs : Spaced d cues)
    (hact : t.activation.AtLeast (2 * d)) (hseek : t.seek.AtLeast d) (hlive : s.state ≠ .ended)
    (hfin : s.time.isFinite = true) (hle : now.units ≤ s.time.units)
    (hnear : s.time.units ≤ now.units + d)
    (hstill : r.awaiting = true → s.time.units = now.units) :
    OnCourse d t cues (r.tick s).resolver s.time := by
  obtain ⟨hrest, hmoved⟩ := h.undisplaced hseek hfin hle hnear
  have hdetect := detect_still hrest hmoved
  have hsettle : r.settle s.time = .done r := by simp [Resolver.settle, h.flight]
  have hover : ∀ {c : Cue}, r.activeCue? = some c → r.covers c s.time = false →
      c.stop.units < s.time.units := by
    intro c hc hcov
    obtain ⟨hmem, _, hstart, _⟩ := h.window hs hc
    have hnot := (not_congr (h.covers_iff hs hact hmem hfin (by omega))).mp (by simp [hcov])
    omega
  have hp := r.passage s
  rw [tick_done hlive hsettle]
  generalize ho : r.continueActive s = o at hp
  rw [← show (r.detect s.time).resolver.continueActive s = r.continueActive s by rw [hdetect]] at ho
  cases hp with
  | hold c hc hcov =>
    obtain ⟨hmem, ha, hstart, _⟩ := h.window hs hc
    rw [evaluate_stop ho]
    exact h.hold hs hmem ha hstart hfin hle
      ((h.covers_iff hs hact hmem hfin (by omega)).mp hcov)
  | jump c next hc hcov hm hn => exact absurd hm (hs.no_jump c (h.window hs hc).1)
  | pause c seconds hc hcov hm =>
    obtain ⟨hmem, ha, hstart, hstop⟩ := h.window hs hc
    rw [evaluate_stop ho]
    obtain ⟨hdone, hahead⟩ := h.finish hs hmem ha hstart hstop hnear (hover hc hcov)
    exact ⟨h.tolerances_eq, h.cues_eq, h.flight, rfl, hfin, hdone, by simp [Resolver.finish],
      fun e he hex _ => hahead e he hex⟩
  | finish c hc hcov hm =>
    obtain ⟨hmem, ha, hstart, hstop⟩ := h.window hs hc
    rw [evaluate_idle ho]
    obtain ⟨hdone, hahead⟩ := h.finish hs hmem ha hstart hstop hnear (hover hc hcov)
    have hidling : Idling d t cues (r.finish c).restoreDefaults.resolver s.time := by
      refine ⟨h.tolerances_eq, h.cues_eq, h.flight, rfl, hfin, hdone, fun e he hex => ?_⟩
      have := hahead e he hex
      split <;> omega
    exact hidling.idle hs hact _
  | lost id ha hc =>
    obtain ⟨c, _, _, hfound, _⟩ := h.activeCue? hs ha
    rw [hfound] at hc
    cases hc
  | rest ha =>
    rw [evaluate_idle ho]
    exact (h.idling ha hfin hle hnear hstill).idle hs hact _

theorem advances (h : OnCourse d t cues r now) (hs : Spaced d cues) (hseek : t.seek.AtLeast d)
    (hlive : s.state ≠ .ended) (hfin : s.time.isFinite = true) (hle : now.units ≤ s.time.units)
    (hnear : s.time.units ≤ now.units + d) (id : Uuid) : Advances id r (r.tick s).resolver := by
  obtain ⟨hrest, hmoved⟩ := h.undisplaced hseek hfin hle hnear
  have hsettle : r.settle s.time = .done r := by simp [Resolver.settle, h.flight]
  refine advances_tick (fun id ha => ?_) ?_ id
  · obtain ⟨c, _, _, hfound, _⟩ := h.activeCue? hs ha
    exact ⟨c, hfound⟩
  · simp [keepsPass, hlive, displaced, hsettle, hrest, hmoved]

end OnCourse

end Step

/-! ## The turn of a cue -/

theorem stage_eq_zero_iff {id : Uuid} {r : Resolver} :
    stage id r = 0 ↔ id ∉ r.executed ∧ r.active ≠ some id := by
  unfold stage
  split
  · simp [*]
  · split <;> simp [*]

structure Steady (d : Nat) (c : Cue) (m : Moment) : Prop where
  onward : stage c.id m.before ≤ stage c.id m.after.resolver
  begins : m.starts c.id = true ↔ stage c.id m.before = 0 ∧ stage c.id m.after.resolver ≠ 0
  in_time : m.starts c.id = true → ∃ s, m.action = .tick s ∧ c.holds s.time = true ∧
    s.time.units ≤ c.start.units + 2 * d

section Turn

variable {d : Nat} {t : Tolerances} {cues : List Cue} {r : Resolver} {now : Seconds} {s : Snapshot}
  {c : Cue}

theorem steady_tick (h : OnCourse d t cues r now) (h' : OnCourse d t cues (r.tick s).resolver s.time)
    (hs : Spaced d cues) (hc : c ∈ cues) (hadv : Advances c.id r (r.tick s).resolver)
    (hle : now.units ≤ s.time.units) (hnear : s.time.units ≤ now.units + d) :
    Steady d c ⟨r, .tick s⟩ := by
  have hafter : (Moment.after ⟨r, .tick s⟩).resolver = (r.tick s).resolver := rfl
  have hlong := hs.long c hc
  -- a cue that is active after the tick has not been over before it
  have hactive : (r.tick s).resolver.active = some c.id → c.holds s.time = true ∧
      c.id ∉ r.executed := by
    intro ha
    obtain ⟨e, he, hid, hstart, hstop⟩ := h'.playing c.id ha
    cases hs.told e he c hc hid
    refine ⟨(hs.holds_iff hc h'.finite).mpr ⟨hstart, hstop⟩, fun hex => ?_⟩
    have := h.behind c hc hex
    omega
  have hsoon : c.id ∉ r.executed → r.active ≠ some c.id →
      s.time.units ≤ c.start.units + 2 * d := by
    intro hex hne
    have := h.ahead c hc hex hne
    omega
  refine ⟨hadv.stage_le, ?_, fun hst => ?_⟩
  · simp only [Moment.starts, hafter, Bool.and_eq_true, decide_eq_true_eq, ne_eq, stage_eq_zero_iff]
    constructor
    · rintro ⟨hne, ha⟩
      exact ⟨⟨(hactive ha).2, hne⟩, fun hnot => hnot.2 ha⟩
    · rintro ⟨⟨hex, hne⟩, hbegun⟩
      refine ⟨hne, Decidable.byContradiction fun ha => hbegun ⟨fun hex' => ?_, ha⟩⟩
      have := h'.behind c hc hex'
      have := hsoon hex hne
      omega
  · simp only [Moment.starts, hafter, Bool.and_eq_true, decide_eq_true_eq] at hst
    obtain ⟨hholds, hex⟩ := hactive hst.2
    exact ⟨s, rfl, hholds, hsoon hex hst.1⟩

theorem steady_resumeDue (d : Nat) (r : Resolver) (c : Cue) : Steady d c ⟨r, .resumeDue⟩ := by
  have hsame : (Moment.after ⟨r, .resumeDue⟩).resolver.active = r.active ∧
      (Moment.after ⟨r, .resumeDue⟩).resolver.executed = r.executed := by
    change r.resumeDue.resolver.active = _ ∧ r.resumeDue.resolver.executed = _
    rw [resumeDue_resolver]
    exact ⟨rfl, rfl⟩
  have hstage : stage c.id (Moment.after ⟨r, .resumeDue⟩).resolver = stage c.id r := by
    unfold stage
    rw [hsame.1, hsame.2]
  have hstarts : Moment.starts ⟨r, .resumeDue⟩ c.id = false := by
    simp [Moment.starts, hsame.1]
  refine ⟨Nat.le_of_eq hstage.symm, ?_, by simp [hstarts]⟩
  rw [hstage, hstarts]
  simp

/-- What an action of a straight pass leads to: the time that playback has reached behind it, and a
straight rest. -/
structure StraightStep (d : Nat) (t : Tolerances) (cues : List Cue) (r : Resolver) (now : Seconds)
    (a : Action) (as : List Action) (next : Seconds) (still : Bool) : Prop where
  onCourse : OnCourse d t cues (r.act a).resolver next
  later : now.units ≤ next.units
  waiting : (r.act a).resolver.awaiting = true → still = true
  straight : Straight d (r.act a).resolver next still as
  seen : ∀ s, a = .tick s → s.time.isFinite = true ∧ s.time.units ≤ next.units
  steady : ∀ c ∈ cues, Steady d c ⟨r, a⟩

theorem straightStep_tick (hs : Spaced d cues) (hact : t.activation.AtLeast (2 * d))
    (hseek : t.seek.AtLeast d) {still : Bool} {as : List Action} (h : OnCourse d t cues r now)
    (hstill : r.awaiting = true → still = true) (has : Straight d r now still (.tick s :: as)) :
    StraightStep d t cues r now (.tick s) as s.time
      (still || decide (.pause ∈ (r.tick s).directives)) := by
  obtain ⟨hlive, hfin, hle, hpace, hrest⟩ := has
  have hnear : s.time.units ≤ now.units + d := by
    revert hpace
    split <;> omega
  have hwait : r.awaiting = true → s.time.units = now.units := by
    intro hw
    rw [if_pos (hstill hw)] at hpace
    omega
  have h' := h.tick hs hact hseek hlive hfin hle hnear hwait
  refine ⟨h', hle, fun hw => ?_, hrest, fun q hq => ?_, fun c hc => ?_⟩
  · rcases ((r.tick_awaiting s).mp hw).2 with hpause | hw
    · simp [hpause]
    · simp [hstill hw]
  · cases hq
    exact ⟨hfin, Int.le_refl _⟩
  · exact steady_tick h h' hs hc (h.advances hs hseek hlive hfin hle hnear c.id) hle hnear

theorem straightStep_resumeDue {still : Bool} {as : List Action} (h : OnCourse d t cues r now)
    (has : Straight d r now still (.resumeDue :: as)) :
    StraightStep d t cues r now .resumeDue as now false := by
  refine ⟨h.resumeDue, Int.le_refl _, ?_, has, fun q hq => ?_, fun c _ => steady_resumeDue d r c⟩
  · change r.resumeDue.resolver.awaiting = true → _
    rw [resumeDue_resolver]
    exact id
  · cases hq

theorem exists_straightStep (hs : Spaced d cues) (hact : t.activation.AtLeast (2 * d))
    (hseek : t.seek.AtLeast d) {still : Bool} {a : Action} {as : List Action}
    (h : OnCourse d t cues r now) (hstill : r.awaiting = true → still = true)
    (has : Straight d r now still (a :: as)) :
    ∃ next still', StraightStep d t cues r now a as next still' := by
  cases a with
  | tick s => exact ⟨_, _, straightStep_tick hs hact hseek h hstill has⟩
  | resumeDue => exact ⟨_, _, straightStep_resumeDue h has⟩
  | load cues => cases has
  | userSeek target => cases has
  | reset => cases has
  | endOfMedia => cases has

theorem onCourse_run (hs : Spaced d cues) (hact : t.activation.AtLeast (2 * d))
    (hseek : t.seek.AtLeast d) {still : Bool} {as : List Action} (h : OnCourse d t cues r now)
    (hstill : r.awaiting = true → still = true) (has : Straight d r now still as) :
    ∃ final, OnCourse d t cues (r.run as) final ∧ now.units ≤ final.units ∧
      (∀ s, .tick s ∈ as → s.time.isFinite = true ∧ s.time.units ≤ final.units) ∧
      ∀ m ∈ r.history as, ∀ c ∈ cues, Steady d c m := by
  induction as generalizing r now still with
  | nil => exact ⟨now, h, Int.le_refl _, by simp, by simp [history]⟩
  | cons a as ih =>
    obtain ⟨next, still', hstep⟩ := exists_straightStep hs hact hseek h hstill has
    obtain ⟨final, hfinal, hlater, htimes, hsteady⟩ := ih hstep.onCourse hstep.waiting hstep.straight
    refine ⟨final, hfinal, Int.le_trans hstep.later hlater, fun s hmem => ?_, fun m hm => ?_⟩
    · rcases List.mem_cons.mp hmem with rfl | hmem
      · obtain ⟨hfin, hle⟩ := hstep.seen s rfl
        exact ⟨hfin, Int.le_trans hle hlater⟩
      · exact htimes s hmem
    · rcases List.mem_cons.mp hm with rfl | hm
      · exact hstep.steady
      · exact hsteady m hm

theorem exists_leaving {f : Resolver → Nat} {as : List Action} (h0 : f r = 0)
    (h1 : f (r.run as) ≠ 0) : ∃ m ∈ r.history as, f m.before = 0 ∧ f m.after.resolver ≠ 0 := by
  induction as generalizing r with
  | nil => exact absurd h0 h1
  | cons a as ih =>
    by_cases ha : f (r.act a).resolver = 0
    · obtain ⟨m, hm, hleave⟩ := ih ha h1
      exact ⟨m, List.mem_cons_of_mem _ hm, hleave⟩
    · exact ⟨⟨r, a⟩, List.mem_cons_self, h0, ha⟩

/-- In a straight pass that gets past the end of every cue, each cue becomes active once, within its
window and at most `2 * d` units after its start, and in the end all are executed. -/
theorem straight_plays_each {as : List Action} (hact : t.activation.AtLeast (2 * d))
    (hseek : t.seek.AtLeast d) (hs : Spaced d cues) (has : Straight d (fresh t cues) 0 false as)
    (hpast : ∀ c ∈ cues, ∃ s, .tick s ∈ as ∧ c.stop < s.time) :
    (∀ c ∈ cues, ((fresh t cues).history as).countP (fun m => m.starts c.id) = 1 ∧
      (∀ m ∈ (fresh t cues).history as, m.starts c.id = true → ∃ s, m.action = .tick s ∧
        c.holds s.time = true ∧ s.time.units ≤ c.start.units + 2 * d) ∧
      c.id ∈ ((fresh t cues).run as).executed) ∧
    ((fresh t cues).run as).active = none := by
  have hwait : (fresh t cues).awaiting = true → false = true := by
    rw [fresh_eq]
    exact id
  obtain ⟨final, hfinal, _, htimes, hsteady⟩ := onCourse_run hs hact hseek (.start hs) hwait has
  have hover : ∀ c ∈ cues, c.stop.units < final.units := by
    intro c hc
    obtain ⟨s, hmem, hlt⟩ := hpast c hc
    obtain ⟨hfin, hle⟩ := htimes s hmem
    rw [Binary64.lt_iff_units (hs.finite hc).2 hfin] at hlt
    omega
  have hnone : ((fresh t cues).run as).active = none := by
    cases ha : ((fresh t cues).run as).active with
    | none => rfl
    | some id =>
      obtain ⟨c, hc, _, _, hstop⟩ := hfinal.playing id ha
      have := hover c hc
      omega
  have hdone : ∀ c ∈ cues, c.id ∈ ((fresh t cues).run as).executed := by
    intro c hc
    refine Decidable.byContradiction fun hex => ?_
    have := hfinal.ahead c hc hex (by simp [hnone])
    have := hs.long c hc
    have := hover c hc
    omega
  refine ⟨fun c hc => ⟨?_, fun m hm => (hsteady m hm c hc).in_time, hdone c hc⟩, hnone⟩
  have hzero : stage c.id (fresh t cues) = 0 := by
    rw [fresh_eq]
    simp [stage]
  have hlast : stage c.id ((fresh t cues).run as) ≠ 0 := fun hstage =>
    (stage_eq_zero_iff.mp hstage).1 (hdone c hc)
  refine Nat.le_antisymm ?_ ?_
  · have hle := countP_passing_le (k := 0) (fun m hm => (hsteady m hm c hc).onward)
      (p := fun m => m.starts c.id) fun m hm hst => by
        have := (hsteady m hm c hc).begins.mp hst
        omega
    exact Nat.le_trans hle (by split <;> omega)
  · obtain ⟨m, hm, hleave⟩ := exists_leaving hzero hlast
    exact List.countP_pos_iff.mpr ⟨m, hm, (hsteady m hm c hc).begins.mpr hleave⟩

end Turn

def quarter : Nat := (0.25 : Seconds).units.toNat

def crossed : List Cue :=
  [(⟨2, 3, 30, 1, .natural⟩ : CueSpec).rounded.place 0 0,
    (⟨1, 2, 70, 1, .pause 3⟩ : CueSpec).rounded.place 1 40]

def throughCrossed : List Action :=
  let seen (now : Seconds) : Action := .tick ⟨now, 100, 1, .playing⟩
  [0, 0.25, 0.5, 0.75, 1, 1.25, 1.5, 1.75, 2, 2.25, 2.25].map seen ++
    .resumeDue :: [2.25, 2.5, 2.75, 3, 3.25].map seen

theorem spaced_crossed : Spaced quarter crossed where
  told := by decide +kernel
  no_jump := by decide +kernel
  window := by
    have h : ∀ c ∈ crossed, (checkWindow c.start c.stop).toOption = some () := by decide +kernel
    exact fun c hc => ok_of_toOption (h c hc)
  long := by decide +kernel
  apart := by decide +kernel

theorem crossed_plays_each :
    Spaced quarter crossed ∧ Straight quarter (fresh {} crossed) 0 false throughCrossed ∧
      (∀ c ∈ crossed, ((fresh {} crossed).history throughCrossed).countP
        (fun m => m.starts c.id) = 1 ∧ c.id ∈ ((fresh {} crossed).run throughCrossed).executed) ∧
      ((fresh {} crossed).run throughCrossed).active = none := by
  have has : Straight quarter (fresh {} crossed) 0 false throughCrossed := by
    rw [fresh, load_new {} (by decide)]
    decide +kernel
  have hpast : ∀ c ∈ crossed, ∃ s, .tick s ∈ throughCrossed ∧ c.stop < s.time := by
    have hlast : ∀ c ∈ crossed, c.stop < 3.25 := by decide +kernel
    exact fun c hc => ⟨⟨3.25, 100, 1, .playing⟩, by simp [throughCrossed], hlast c hc⟩
  obtain ⟨heach, hnone⟩ := straight_plays_each (.inr (by decide +kernel)) (.inr (by decide +kernel))
    spaced_crossed has hpast
  exact ⟨spaced_crossed, has, fun c hc => ⟨(heach c hc).1, (heach c hc).2.2⟩, hnone⟩

end Resolver

end PlaybackCues
