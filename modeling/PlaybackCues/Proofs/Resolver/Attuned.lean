import PlaybackCues.Proofs.Cue.Texts
import PlaybackCues.Proofs.Resolver.Coherence
import PlaybackCues.Proofs.Resolver.Replay

set_option autoImplicit false

/-!
# Levels after a tick

Once a player has carried out what a tick sends, it shows the levels of the active cue, or the
defaults if no cue is active, up to what is tolerated. What is sent last for a level decides: the
defaults when a cue is left, a correction of what is seen, and at the end the levels of a cue that
starts. The defaults are only taken over, or corrected, by a tick that has sent nothing before.
-/
namespace PlaybackCues

structure Levels.Near (t : Tolerances) (a b : Levels) : Prop where
  volume : Resolver.volumeDistance a.volume b.volume ≤ t.volume
  rate : (a.rate - b.rate).abs ≤ t.rate

def Action.Measured : Action → Prop
  | .tick s => s.rate.isFinite = true
  | _ => True

variable {t : Tolerances} {s : Snapshot}

theorem Levels.Near.self (h : 0 ≤ t.rate) {l : Levels} (hl : l.rate.isFinite = true) :
    l.Near t l where
  volume := by simp [Resolver.volumeDistance]
  rate := (Binary64.atLeast_zero h).distance_le hl hl (by simp)

namespace Resolver

variable {r : Resolver} {ds : List Directive}

/-! ## What is sent last -/

theorem obeyAll_last (p : Snapshot) (ds : List Directive) (l : Levels) :
    (p.obeyAll (ds ++ l.directives)).levels = l := by
  rw [obeyAll_append]
  rfl

theorem obeyAll_correction (r : Resolver) (s : Snapshot) (wanted : Levels) :
    (s.obeyAll (r.correction s.levels wanted)).levels =
      ⟨if r.volumeOff s.volume wanted.volume then wanted.volume else s.volume,
        if r.rateOff s.rate wanted.rate then wanted.rate else s.rate⟩ := by
  unfold correction
  change (s.obeyAll ((if r.volumeOff s.volume wanted.volume then _ else _) ++
    if r.rateOff s.rate wanted.rate then _ else _)).levels = _
  split <;> split <;> rfl

/-- Corrected levels are near to the wanted ones. -/
theorem near_correction (ht : r.tolerances = t) (h : 0 ≤ t.rate) (hs : s.rate.isFinite = true)
    {wanted : Levels} (hw : wanted.rate.isFinite = true) :
    (s.obeyAll (r.correction s.levels wanted)).levels.Near t wanted := by
  have hself := Levels.Near.self h hw
  rw [obeyAll_correction]
  constructor
  · by_cases hoff : r.volumeOff s.volume wanted.volume = true
    · simp only [if_pos hoff]
      exact hself.volume
    · simp only [if_neg hoff]
      simpa [volumeOff, ht] using hoff
  · by_cases hoff : r.rateOff s.rate wanted.rate = true
    · simp only [if_pos hoff]
      exact hself.rate
    · simp only [if_neg hoff]
      have hnot : ¬ t.rate < (s.rate - wanted.rate).abs := by simpa [rateOff, ht] using hoff
      exact Binary64.le_of_not_lt (Binary64.isNaN_of_le h).2
        (Binary64.isNaN_of_position (Binary64.position_distance hs hw)) hnot

/-! ## The defaults -/

theorem detect_defaults (r : Resolver) (now : Seconds) :
    (r.detect now).resolver.defaults = r.defaults := by
  have hd := r.detected now
  generalize r.detect now = a at hd ⊢
  cases hd with
  | restarted => exact r.leave_defaults
  | moved => exact r.leave_defaults
  | still => rfl

theorem idle_defaults (quiet : Bool) (s : Snapshot) (r : Resolver) :
    (r.idle quiet s).resolver.defaults = r.defaults ∨
      (r.idle quiet s).resolver.defaults = s.levels := by
  have hstart : ∀ q : Resolver,
      (if q.awaiting then ⟨q, []⟩ else q.activate s.time : Response).resolver.defaults =
        q.defaults := by
    intro q
    split
    · rfl
    · exact activate_defaults q s.time
  unfold idle
  simp only [Response.andThen_resolver, hstart]
  split
  · unfold trackDefaults
    split
    · split
      · exact .inr rfl
      · exact .inl rfl
    · exact .inr rfl
  · exact .inl rfl

theorem continueActive_defaults (r : Resolver) (s : Snapshot) :
    (r.continueActive s).resolver.defaults = r.defaults := by
  have hp := r.passage s
  generalize r.continueActive s = o at hp
  cases hp with
  | jump c next hc hcov hm hn => exact chain_defaults (r.finish c) c next s.time
  | _ => rfl

/-- A tick leaves the defaults as they are, or takes over the levels it sees. -/
theorem tick_defaults (r : Resolver) (s : Snapshot) :
    (r.tick s).resolver.defaults = r.defaults ∨ (r.tick s).resolver.defaults = s.levels := by
  refine tick_keeps (P := fun q => q.defaults = r.defaults ∨ q.defaults = s.levels)
    (fun _ _ _ h => h) (fun q h => ?_) (fun q h => ?_) (fun quiet q h => ?_)
    (fun _ => .inl r.leave_defaults) (.inl rfl)
  · rwa [q.detect_defaults]
  · rwa [q.continueActive_defaults]
  · rcases idle_defaults quiet s q with hidle | hidle
    · rwa [hidle]
    · exact .inr hidle

theorem act_defaults (r : Resolver) (a : Action) : (r.act a).resolver.defaults = r.defaults ∨
    ∃ s, a = .tick s ∧ (r.act a).resolver.defaults = s.levels := by
  cases a with
  | load cues =>
    refine .inl ?_
    by_cases h : r.active.all (knows cues) = true
    · exact congrArg (fun a => a.resolver.defaults) (load_kept h)
    · exact congrArg (fun a => a.resolver.defaults) (load_lost h)
  | tick s => exact (r.tick_defaults s).imp_right fun h => ⟨s, rfl, h⟩
  | userSeek target => exact .inl (leave_defaults _)
  | resumeDue =>
    refine .inl ?_
    change r.resumeDue.resolver.defaults = r.defaults
    rw [resumeDue_resolver]
  | reset => exact .inl r.leave_defaults
  | endOfMedia => exact .inl r.leave_defaults

theorem run_defaults_finite {as : List Action} (h : r.defaults.rate.isFinite = true)
    (has : ∀ a ∈ as, a.Measured) : (r.run as).defaults.rate.isFinite = true := by
  induction as generalizing r with
  | nil => exact h
  | cons a as ih =>
    refine ih ?_ fun b hb => has b (List.mem_cons_of_mem a hb)
    rcases r.act_defaults a with hd | ⟨s, rfl, hd⟩
    · rwa [hd]
    · rw [hd]
      exact has _ List.mem_cons_self

/-! ## While a tick goes on -/

/-- What holds while a tick goes on: the response is what there is so far. Without an active cue
the defaults are what has been sent, if anything. -/
structure Attuning (t : Tolerances) (s : Snapshot) (a : Response) : Prop where
  coherent : Coherent t a.resolver
  finite : a.resolver.defaults.rate.isFinite = true
  idle : a.resolver.active = none →
    a.directives = [] ∨ (s.obeyAll a.directives).levels = a.resolver.defaults

/-- What holds at the end of a tick, of what the player then shows. Cues with the same id have the
same levels. -/
structure Attuned (t : Tolerances) (s : Snapshot) (a : Response) : Prop where
  idle : a.resolver.active = none → (s.obeyAll a.directives).levels.Near t a.resolver.defaults
  active : ∀ id, a.resolver.active = some id → ∀ c ∈ a.resolver.cues, c.id = id →
    (s.obeyAll a.directives).levels.Near t c.levels
  /-- Unless the tick has sent a jump, it has come in the window of the cue, or a little early. -/
  window : ∀ id, a.resolver.active = some id → (∀ d ∈ a.directives, d.isJump = false) →
    ∃ c ∈ a.resolver.cues, c.id = id ∧ c.start - t.activation ≤ s.time ∧ s.time ≤ c.stop

theorem Attuned.of_idle {a : Response} (ha : a.resolver.active = none)
    (h : (s.obeyAll a.directives).levels.Near t a.resolver.defaults) : Attuned t s a where
  idle _ := h
  active id hid := by
    rw [ha] at hid
    cases hid
  window id hid := by
    rw [ha] at hid
    cases hid

theorem Attuned.of_active {a : Response} {c : Cue} (hb : Built a.resolver.cues)
    (hc : c ∈ a.resolver.cues) (ha : a.resolver.active = some c.id)
    (h : (s.obeyAll a.directives).levels.Near t c.levels)
    (hwindow : (∀ d ∈ a.directives, d.isJump = false) →
      c.start - t.activation ≤ s.time ∧ s.time ≤ c.stop) : Attuned t s a where
  idle hnone := by
    rw [ha] at hnone
    cases hnone
  active id hid d hd hdid := by
    rw [ha] at hid
    cases hid
    obtain ⟨hvolume, hrate⟩ := hb.levels_eq hd hc hdid
    have hsame : d.levels = c.levels := by simp [CueSpec.levels, hvolume, hrate]
    rw [hsame]
    exact h
  window id hid hjump := by
    rw [ha] at hid
    cases hid
    exact ⟨c, hc, rfl, hwindow hjump⟩

namespace Attuning

/-- Nothing, or the defaults, are sent when the active cue is left. -/
theorem leave_sends (r : Resolver) (s : Snapshot) :
    r.leave.directives = [] ∨ (s.obeyAll r.leave.directives).levels = r.leave.resolver.defaults := by
  have hl := r.left
  generalize r.leave = a at hl ⊢
  cases hl with
  | restored => exact .inr rfl
  | still => exact .inl rfl

theorem detect (h : Coherent t r) (hf : r.flight = none) (hfin : r.defaults.rate.isFinite = true)
    (s : Snapshot) : Attuning t s (r.detect s.time) := by
  have hsent := leave_sends r s
  refine ⟨h.detect hf s.time, by rwa [detect_defaults], fun _ => ?_⟩
  have hd := r.detected s.time
  generalize r.detect s.time = a at hd ⊢
  cases hd with
  | restarted => simpa [clear] using hsent
  | moved => simpa [moveTo] using hsent
  | still => exact .inl rfl

/-- The defaults are sent last. -/
theorem exit {q : Resolver} (hq : Coherent t q) (hfin : q.defaults.rate.isFinite = true) :
    Attuning t s ⟨q, ds ++ q.defaults.directives⟩ := by
  exact ⟨hq, hfin, fun _ => .inr (obeyAll_last s ds q.defaults)⟩

/-! ## Outside the cues -/

theorem trackDefaults (h : Coherent t r) (ht : 0 ≤ t.rate) (hs : s.rate.isFinite = true)
    (hfin : r.defaults.rate.isFinite = true) :
    (s.obeyAll (r.trackDefaults s).directives).levels.Near t (r.trackDefaults s).resolver.defaults := by
  have htrack := r.defaultsTracked s
  generalize r.trackDefaults s = a at htrack ⊢
  cases htrack with
  | restored => exact .self ht hs
  | corrected wanted hw =>
    obtain ⟨_, rfl⟩ := h.restore_idle wanted hw
    exact near_correction h.tolerances_eq ht hs hfin
  | taken => exact .self ht hs

theorem activate {q : Resolver} (h : Coherent t q) (ht : 0 ≤ t.rate) (hact : 0 ≤ t.activation)
    (ha : q.active = none) (hnear : (s.obeyAll ds).levels.Near t q.defaults) :
    Attuned t s ⟨(q.activate s.time).resolver, ds ++ (q.activate s.time).directives⟩ := by
  have hstart := q.started s.time
  generalize q.activate s.time = a at hstart ⊢
  cases hstart with
  | begun c hc =>
    obtain ⟨hmem, hholds, _⟩ := due?_some hc
    obtain ⟨hbegun, hstop⟩ : c.start ≤ s.time ∧ s.time ≤ c.stop := by
      simpa [CueSpec.holds, Binary64.within] using hholds
    obtain ⟨hstart, _⟩ := h.built.window hmem
    refine .of_active h.built hmem rfl ?_ fun _ => ⟨?_, hstop⟩
    · rw [obeyAll_last]
      exact .self ht (h.built.rate_finite hmem)
    · exact Binary64.le_trans ((Binary64.atLeast_zero hact).sub_le_of_le hstart hstart
        (Binary64.le_refl hstart)) hbegun
  | still =>
    rw [List.append_nil]
    exact .of_idle ha hnear

theorem idle_tick (h : Attuning t s ⟨r, ds⟩) (ha : r.active = none) (ht : 0 ≤ t.rate)
    (hact : 0 ≤ t.activation) (hs : s.rate.isFinite = true) :
    Attuned t s (Response.andThen ⟨r, ds⟩ (Resolver.idle ds.isEmpty s)) := by
  obtain ⟨hcoh, hfin, hsent⟩ := h
  refine idle_keeps (P := fun a => Coherent t a.resolver ∧ a.resolver.active = none ∧
      (s.obeyAll a.directives).levels.Near t a.resolver.defaults) (Q := Attuned t s)
    (fun _ => ?quiet) (fun hne => ?sent) (fun _ _ hq _ => .of_idle hq.2.1 hq.2.2)
    fun _ _ hq _ => ?start
  case quiet =>
    obtain ⟨defaults, restore, htrack⟩ := r.trackDefaults_resolver s
    refine ⟨hcoh.trackDefaults s, ?_, trackDefaults hcoh ht hs hfin⟩
    rw [htrack]
    exact ha
  case sent =>
    -- what has been sent are the defaults
    have hlast : (s.obeyAll ds).levels = r.defaults := (hsent ha).resolve_left hne
    refine ⟨hcoh, ha, ?_⟩
    rw [hlast]
    exact .self ht hfin
  case start =>
    obtain ⟨hidle, hactive, hwindow⟩ := activate hq.1 ht hact hq.2.1 hq.2.2
    exact ⟨hidle, hactive, hwindow⟩

/-! ## The whole tick -/

theorem evaluate (h : Coherent t r) (hf : r.flight = none) (hfin : r.defaults.rate.isFinite = true)
    (ht : 0 ≤ t.rate) (hact : 0 ≤ t.activation) (hs : s.rate.isFinite = true) :
    Attuned t s (r.evaluate s) := by
  have hd := detect h hf hfin s
  have hq := hd.coherent.continueActive (Coherent.detect_flight hf s.time) s
  have hp := (r.detect s.time).resolver.passage s
  generalize ho : (r.detect s.time).resolver.continueActive s = o at hp hq
  cases hp with
  | hold c hc hcov =>
    obtain ⟨hmem, ha⟩ := activeCue?_some hc
    obtain ⟨hr, hm⟩ := detect_active (by rw [ha]; rfl)
    have hstill := detect_still hr hm
    rw [evaluate_stop ho]
    rw [hstill] at hmem ha hcov ⊢
    obtain ⟨hstop, hstart⟩ : s.time ≤ c.stop ∧ c.start - t.activation ≤ s.time := by
      simpa [covers, h.tolerances_eq] using hcov
    exact .of_active h.built hmem ha
      (near_correction h.tolerances_eq ht hs (h.built.rate_finite hmem)) fun _ => ⟨hstart, hstop⟩
  | jump c next hc hcov hm hn =>
    have hmem : next ∈ (r.detect s.time).resolver.cues := List.mem_of_find?_eq_some hn
    rw [evaluate_stop ho]
    refine .of_active hq.built (by rw [chain_cues]; exact hmem) rfl ?_ fun hjump => ?_
    · have hseek : ∀ d ∈ [Directive.seek next.start .engine], d.isLevel = false := by
        simp [Directive.isLevel]
      have hlast := obeyAll_end s (r.detect s.time).directives next.levels hseek
      change (s.obeyAll ((r.detect s.time).directives ++ (next.levels.directives ++ _))).levels.Near _ _
      rw [hlast]
      exact .self ht (hd.coherent.built.rate_finite hmem)
    · have hnot := hjump (.seek next.start .engine) (by simp [Resolver.chain])
      cases hnot
  | pause c seconds hc hcov hm =>
    rw [evaluate_stop ho]
    refine .of_idle rfl ?_
    have hpause : ∀ d ∈ [Directive.pause, .resumeAfter seconds], d.isLevel = false := by
      simp [Directive.isLevel]
    rw [obeyAll_end s (r.detect s.time).directives (r.detect s.time).resolver.defaults hpause]
    exact .self ht hd.finite
  | finish c hc hcov hm =>
    rw [evaluate_idle ho]
    exact idle_tick (exit hq hd.finite) rfl ht hact hs
  | lost id ha hc =>
    rw [evaluate_idle ho]
    exact idle_tick (exit hq hd.finite) rfl ht hact hs
  | rest ha =>
    rw [evaluate_idle ho, List.append_nil]
    exact idle_tick hd ha ht hact hs

end Attuning

/-- After every tick that does not wait for a seek, the player shows what it should. -/
theorem levels_after_tick {as : List Action} (has : ∀ a ∈ as, a.Sound ∧ a.Measured)
    (hact : 0 ≤ t.activation) (hrate : 0 ≤ t.rate) (hs : s.rate.isFinite = true)
    (hlive : s.state ≠ .ended) {q : Resolver}
    (hq : (run { tolerances := t } as).settle s.time = .done q) :
    Attuned t s ((run { tolerances := t } as).tick s) := by
  have hcoh := ((Reachable.new (t := t)).run fun a ha => (has a ha).1).coherent
  have hone : (1 : Binary64).isFinite = true := by decide +kernel
  have hfin : (run { tolerances := t } as).defaults.rate.isFinite = true :=
    run_defaults_finite hone fun a ha => (has a ha).2
  generalize run { tolerances := t } as = r at hcoh hfin hq ⊢
  have hset := hcoh.settle s.time
  rw [hq] at hset
  obtain ⟨last, rfl⟩ := settle_done hq
  rw [tick_done hlive hq]
  exact Attuning.evaluate hset.1 hset.2 hfin hrate hact hs

/-- The user goes from one cue into another: the defaults are sent, and then the levels of the
second cue. -/
theorem intoSecond_attuned :
    let cues := [oneToTwo.rounded.place 0 0, eightToNine.rounded.place 1 0]
    let r := run { tolerances := {} } [.load cues, .tick ⟨1, 100, 1, .playing⟩]
    let s : Snapshot := ⟨8.25, 30, 1, .playing⟩
    (r.tick s).directives = [.setVolume 100, .setRate 1, .setVolume 70, .setRate 1] ∧
      Attuned {} s (r.tick s) := by
  intro cues r s
  have hbuilt : Built cues := built_pair (by decide +kernel) (by decide +kernel) (by decide +kernel)
  have hone : (1 : Binary64).isFinite = true := by decide +kernel
  have hsorted : cues.Pairwise fun c d => c.index ≤ d.index := by decide
  have hr : r = run { tolerances := {}, cues := cues } [.tick ⟨1, 100, 1, .playing⟩] := by
    simp only [r, run, act, load_new {} hsorted]
  have hflight : r.flight = none := (congrArg flight hr).trans (by decide +kernel)
  have hq : r.settle s.time = .done r := by simp only [settle, hflight]
  refine ⟨?_, levels_after_tick (fun a ha => ?_) (by decide +kernel) (by decide +kernel) hone
    (by decide) hq⟩
  · rw [hr]
    decide +kernel
  · simp only [List.mem_cons, List.not_mem_nil, or_false] at ha
    rcases ha with rfl | rfl
    · exact ⟨hbuilt, trivial⟩
    · exact ⟨trivial, hone⟩

end Resolver

end PlaybackCues
