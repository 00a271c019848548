import PlaybackCues.Proofs.Resolver.Passage
import PlaybackCues.Proofs.Resolver.Runs

set_option autoImplicit false

/-!
# The defaults are never the levels of a cue

Take a player whose levels only the directives change, each of them carried out or lost. When the
levels of every cue are those at the start or further from them than is tolerated, the defaults
are the levels at the start from the first tick on. The reason is `Held`: while no cue is active
and no restore is awaited, the player shows the levels at the start.
-/
namespace PlaybackCues

open Resolver

def VolumeApart (t : Tolerances) (start : Levels) (volume : Nat) : Prop :=
  volume = start.volume ∨ t.volume < volumeDistance volume start.volume

def RateApart (t : Tolerances) (start : Levels) (rate : Binary64) : Prop :=
  rate = start.rate ∨ t.rate < (rate - start.rate).abs

def Levels.Apart (l : Levels) (t : Tolerances) (start : Levels) : Prop :=
  VolumeApart t start l.volume ∧ RateApart t start l.rate

def Directive.Apart (t : Tolerances) (start : Levels) : Directive → Prop
  | .setVolume volume => VolumeApart t start volume
  | .setRate rate => RateApart t start rate
  | _ => True

def Action.Apart (t : Tolerances) (start : Levels) : Action → Prop
  | .load cues => ∀ c ∈ cues, c.levels.Apart t start
  | _ => True

def Action.isLive : Action → Bool
  | .tick s => s.state ≠ .ended
  | _ => false

/-- Runs against a player that carries out some of what it is told, and whose time and state change
as they like. The flag says whether a tick has seen media that is not over. -/
inductive Driven (t : Tolerances) (start : Levels) : Bool → Resolver → Snapshot → Prop where
  | new (p : Snapshot) : p.levels = start → Driven t start false { tolerances := t } p
  | elapse {seen : Bool} {r : Resolver} {p : Snapshot} (q : Snapshot) :
      Driven t start seen r p → q.levels = p.levels → Driven t start seen r q
  | act {seen : Bool} {r : Resolver} {p : Snapshot} (a : Action) (heard : List Directive) :
      Driven t start seen r p → (∀ s, a = .tick s → s = p) → a.Apart t start →
      heard.Sublist (r.act a).directives →
      Driven t start (seen || a.isLive) (r.act a).resolver (p.obeyAll heard)

theorem levels_apart (t : Tolerances) {start l : Levels} (h : l.Apart t start) :
    ∀ d ∈ l.directives, d.Apart t start := by
  intro d hd
  simp only [Levels.directives, List.mem_cons, List.not_mem_nil, or_false] at hd
  rcases hd with rfl | rfl
  · exact h.1
  · exact h.2

theorem start_apart (t : Tolerances) (start : Levels) : start.Apart t start := ⟨.inl rfl, .inl rfl⟩

theorem obeyAll_apart {t : Tolerances} {start : Levels} {ds : List Directive} {p : Snapshot}
    (hp : p.levels.Apart t start) (hd : ∀ d ∈ ds, d.Apart t start) :
    (p.obeyAll ds).levels.Apart t start := by
  induction ds generalizing p with
  | nil => exact hp
  | cons d ds ih =>
    have hrest := fun e he => hd e (List.mem_cons_of_mem d he)
    have hhead := hd d List.mem_cons_self
    refine ih (p := p.obey d) ?_ hrest
    cases d with
    | setVolume volume => exact ⟨hhead, hp.2⟩
    | setRate rate => exact ⟨hp.1, hhead⟩
    | seek target origin => exact hp
    | pause => exact hp
    | play => exact hp
    | resumeAfter seconds => exact hp

theorem obeyAll_levels {ds : List Directive} {p : Snapshot}
    (h : ∀ d ∈ ds, d.isLevel = false) : (p.obeyAll ds).levels = p.levels := by
  induction ds generalizing p with
  | nil => rfl
  | cons d ds ih =>
    have hhead := h d List.mem_cons_self
    have hone : (p.obey d).levels = p.levels := by
      cases d <;> first | rfl | cases hhead
    exact (ih (p := p.obey d) fun e he => h e (List.mem_cons_of_mem d he)).trans hone

/-- What holds while an action goes on: `shown` are the levels of the player as it began, and the
response is what there is so far. -/
structure Held (t : Tolerances) (start : Levels) (seen : Bool) (shown : Levels) (a : Response) :
    Prop where
  tolerances_eq : a.resolver.tolerances = t
  cues_apart : ∀ c ∈ a.resolver.cues, c.levels.Apart t start
  shown_apart : shown.Apart t start
  sent_apart : ∀ d ∈ a.directives, d.Apart t start
  defaults_start : seen = true → a.resolver.defaults = start
  unseen : seen = false → a.resolver.active = none ∧ a.resolver.restore = none ∧
    a.resolver.flight = none ∧ ∀ d ∈ a.directives, d.isLevel = false
  restore_eq : ∀ l, a.resolver.restore = some l → l = start
  settled : a.resolver.active = none → a.resolver.restore = none →
    (∀ d ∈ a.directives, d.isLevel = false) ∧ shown = start

namespace Held

variable {t : Tolerances} {start shown : Levels} {seen : Bool} {r q : Resolver}
  {ds es : List Directive}

theorem seen_of_active (h : Held t start seen shown ⟨r, ds⟩) (ha : r.active ≠ none) :
    seen = true := by
  cases hs : seen with
  | true => rfl
  | false => exact absurd (h.unseen hs).1 ha

/-- Leaving the active cue: the defaults are sent and have to be seen. -/
theorem exit_sending (h : Held t start seen shown ⟨r, ds⟩) (hr : r.active ≠ none)
    (ht : q.tolerances = r.tolerances) (hc : ∀ c ∈ q.cues, c.levels.Apart t start)
    (hd : q.defaults = r.defaults) (hres : q.restore = some r.defaults)
    (hes : ∀ d ∈ es, d.Apart t start) :
    Held t start seen shown ⟨q, ds ++ (r.defaults.directives ++ es)⟩ := by
  have hseen := h.seen_of_active hr
  have hstart : r.defaults = start := h.defaults_start hseen
  exact
    { tolerances_eq := ht.trans h.tolerances_eq
      cues_apart := hc
      shown_apart := h.shown_apart
      sent_apart := by
        intro d hmem
        rcases List.mem_append.mp hmem with hmem | hmem
        · exact h.sent_apart d hmem
        · rcases List.mem_append.mp hmem with hmem | hmem
          · rw [hstart] at hmem
            exact levels_apart t (start_apart t start) d hmem
          · exact hes d hmem
      defaults_start := fun _ => hd.trans hstart
      unseen := by simp [hseen]
      restore_eq := by
        intro l hl
        rw [hres] at hl
        cases hl
        exact hstart
      settled := by simp [hres] }

theorem exit (h : Held t start seen shown ⟨r, ds⟩) (hr : r.active ≠ none)
    (ht : q.tolerances = r.tolerances) (hc : ∀ c ∈ q.cues, c.levels.Apart t start)
    (hd : q.defaults = r.defaults) (hres : q.restore = some r.defaults) :
    Held t start seen shown ⟨q, ds ++ r.defaults.directives⟩ := by
  have hq := h.exit_sending hr ht hc hd hres
    (by simp : ∀ d ∈ ([] : List Directive), d.Apart t start)
  rwa [List.append_nil] at hq

/-- A cue becomes active: its levels are sent. -/
theorem enter (h : Held t start true shown ⟨r, ds⟩) (ht : q.tolerances = r.tolerances)
    (hcues : q.cues = r.cues) (ha : q.active ≠ none) (hd : q.defaults = r.defaults)
    (hres : q.restore = none) {c : Cue} (hc : c ∈ r.cues) (hes : ∀ d ∈ es, d.Apart t start) :
    Held t start true shown ⟨q, ds ++ (c.levels.directives ++ es)⟩ where
  tolerances_eq := ht.trans h.tolerances_eq
  cues_apart := by
    intro d hmem
    rw [hcues] at hmem
    exact h.cues_apart d hmem
  shown_apart := h.shown_apart
  sent_apart := by
    intro d hmem
    rcases List.mem_append.mp hmem with hmem | hmem
    · exact h.sent_apart d hmem
    · rcases List.mem_append.mp hmem with hmem | hmem
      · exact levels_apart t (h.cues_apart c hc) d hmem
      · exact hes d hmem
  defaults_start := fun hs => hd.trans (h.defaults_start hs)
  unseen := by simp
  restore_eq := by simp [hres]
  settled := fun hq => absurd hq ha

/-- Neither the active cue nor the restore has changed, and no more than levels was sent. -/
theorem stay (h : Held t start seen shown ⟨r, ds⟩) (ht : q.tolerances = r.tolerances)
    (hcues : q.cues = r.cues) (ha : q.active = r.active) (hd : q.defaults = r.defaults)
    (hres : q.restore = r.restore) (hf : r.flight = none → q.flight = none) :
    Held t start seen shown ⟨q, ds⟩ where
  tolerances_eq := ht.trans h.tolerances_eq
  cues_apart := by
    intro c hc
    rw [hcues] at hc
    exact h.cues_apart c hc
  shown_apart := h.shown_apart
  sent_apart := h.sent_apart
  defaults_start := fun hs => hd.trans (h.defaults_start hs)
  unseen := by
    intro hs
    obtain ⟨h1, h2, h3, h4⟩ := h.unseen hs
    exact ⟨ha.trans h1, hres.trans h2, hf h3, h4⟩
  restore_eq := by
    intro l hl
    rw [hres] at hl
    exact h.restore_eq l hl
  settled := by
    intro hqa hqr
    rw [ha] at hqa
    rw [hres] at hqr
    exact h.settled hqa hqr

theorem send (h : Held t start seen shown ⟨r, ds⟩) (he : ∀ d ∈ es, d.isLevel = false) :
    Held t start seen shown ⟨r, ds ++ es⟩ := by
  have hall : (∀ d ∈ ds, d.isLevel = false) → ∀ d ∈ ds ++ es, d.isLevel = false := by
    intro hds d hd
    rcases List.mem_append.mp hd with hd | hd
    · exact hds d hd
    · exact he d hd
  refine { h with sent_apart := ?_, unseen := ?_, settled := ?_ }
  · intro d hd
    rcases List.mem_append.mp hd with hd | hd
    · exact h.sent_apart d hd
    · have hnot := he d hd
      cases d <;> trivial
  · intro hseen
    obtain ⟨hact, hres, hf, hds⟩ := h.unseen hseen
    exact ⟨hact, hres, hf, hall hds⟩
  · intro hact hres
    obtain ⟨hds, hshown⟩ := h.settled hact hres
    exact ⟨hall hds, hshown⟩

theorem leave (h : Held t start seen shown ⟨r, ds⟩) :
    Held t start seen shown ⟨r.leave.resolver, ds ++ r.leave.directives⟩ := by
  have hl := r.left
  generalize r.leave = a at hl ⊢
  cases hl with
  | restored ha =>
    exact h.exit (q := { r with active := none, restore := some r.defaults }) ha rfl
      h.cues_apart rfl rfl
  | still =>
    rw [List.append_nil]
    exact h

theorem clear (h : Held t start seen shown ⟨r, ds⟩) :
    Held t start seen shown ⟨r.clear.resolver, ds ++ r.clear.directives⟩ := by
  have hq := h.leave.stay (q := r.clear.resolver) rfl rfl rfl rfl rfl (fun _ => rfl)
  simpa [Resolver.clear] using hq

theorem moveTo (h : Held t start seen shown ⟨r, ds⟩) (now : Seconds) :
    Held t start seen shown ⟨(r.moveTo now).resolver, ds ++ (r.moveTo now).directives⟩ := by
  have hq := h.leave.stay (q := (r.moveTo now).resolver) rfl rfl rfl rfl rfl (fun hf => hf)
  simpa [Resolver.moveTo] using hq

theorem detect (h : Held t start seen shown ⟨r, ds⟩) (now : Seconds) :
    Held t start seen shown ⟨(r.detect now).resolver, ds ++ (r.detect now).directives⟩ := by
  have hd := r.detected now
  generalize r.detect now = a at hd ⊢
  cases hd with
  | restarted => exact h.clear
  | moved => exact h.moveTo now
  | still => simpa using h

/-! ## Examining the active cue -/

theorem continueActive (h : Held t start seen shown ⟨r, ds⟩) (s : Snapshot) :
    match r.continueActive s with
    | .stop rest => Held t start true shown ⟨rest.resolver, ds ++ rest.directives⟩
    | .idle rest => Held t start seen shown ⟨rest.resolver, ds ++ rest.directives⟩ := by
  have hp := r.passage s
  generalize r.continueActive s = o at hp
  -- once a cue is active, a tick has been seen
  cases hp with
  | hold c hc hcov =>
    have hne := active_of_activeCue? hc
    obtain rfl := h.seen_of_active hne
    have hq := h.stay (q := { r with last := s.time }) rfl rfl rfl rfl rfl (fun hf => hf)
    have hc' := h.cues_apart c (activeCue?_some hc).1
    refine { hq with sent_apart := ?_, unseen := by simp, settled := fun ha => absurd ha hne }
    intro d hd
    rcases List.mem_append.mp hd with hd | hd
    · exact h.sent_apart d hd
    · exact levels_apart t hc' d (correction_subset r _ _ hd)
  | jump c next hc hcov hm hn =>
    obtain rfl := h.seen_of_active (active_of_activeCue? hc)
    have hmem : next ∈ r.cues := List.mem_of_find?_eq_some hn
    exact h.enter (chain_tolerances (r.finish c) c next s.time) (chain_cues _ _ _ _)
      (by simp [Resolver.chain]) (chain_defaults _ _ _ _) rfl hmem (by simp [Directive.Apart])
  | pause c seconds hc hcov hm =>
    have hne := active_of_activeCue? hc
    rw [← h.seen_of_active hne]
    exact h.exit_sending hne rfl h.cues_apart rfl rfl (by simp [Directive.Apart])
  | finish c hc hcov hm =>
    exact h.exit (q := (r.finish c).restoreDefaults.resolver) (active_of_activeCue? hc) rfl
      h.cues_apart rfl rfl
  | lost id ha hc =>
    exact h.exit (q := { r with active := none, restore := some r.defaults }) (by simp [ha]) rfl
      h.cues_apart rfl rfl
  | rest ha => simpa using h

/-! ## Outside the cues -/

/-- Levels that need no correction are those at the start, for nothing else is so near to them. -/
theorem eq_start_of_correction_nil {l : Levels} (ht : r.tolerances = t) (hl : l.Apart t start)
    (hc : r.correction l start = []) : l = start := by
  obtain ⟨hv, hr⟩ := List.append_eq_nil_iff.mp hc
  have hvolume : l.volume = start.volume := by
    rcases hl.1 with h | h
    · exact h
    · rw [← ht] at h
      simp [volumeOff, h] at hv
  have hrate : l.rate = start.rate := by
    rcases hl.2 with h | h
    · exact h
    · rw [← ht] at h
      simp [rateOff, h] at hr
  cases l
  cases start
  simp_all

theorem trackDefaults {s : Snapshot} (h : Held t start seen s.levels ⟨r, []⟩)
    (ha : r.active = none) : Held t start true s.levels (r.trackDefaults s) := by
  have ht := r.defaultsTracked s
  generalize r.trackDefaults s = a at ht ⊢
  cases ht with
  | restored wanted hw hcorr =>
    obtain rfl : wanted = start := h.restore_eq wanted hw
    have hshown := eq_start_of_correction_nil h.tolerances_eq h.shown_apart hcorr
    exact { h with
      defaults_start := fun _ => hshown
      unseen := by simp
      restore_eq := by simp
      settled := fun _ _ => ⟨by simp, hshown⟩ }
  | corrected wanted hw =>
    obtain rfl : wanted = start := h.restore_eq wanted hw
    have hseen : seen = true := by
      cases hs : seen with
      | true => rfl
      | false =>
        have hnone : r.restore = none := (h.unseen hs).2.1
        rw [hw] at hnone
        cases hnone
    exact { h with
      sent_apart := fun d hd =>
        levels_apart t (start_apart t wanted) d (correction_subset r _ _ hd)
      defaults_start := fun _ => h.defaults_start hseen
      unseen := by simp
      settled := by simp [hw] }
  | taken hnone =>
    have hshown := (h.settled ha hnone).2
    exact { h with
      defaults_start := fun _ => hshown
      unseen := by simp
      settled := fun _ _ => ⟨by simp, hshown⟩ }

theorem activate (h : Held t start true shown ⟨r, ds⟩) (now : Seconds) :
    Held t start true shown ⟨(r.activate now).resolver, ds ++ (r.activate now).directives⟩ := by
  have hs := r.started now
  generalize r.activate now = a at hs ⊢
  cases hs with
  | begun c hc =>
    have hmem : c ∈ r.cues := List.mem_of_find?_eq_some hc
    have hq := h.enter (q := { r.retire (r.overtaken c now) with
      active := some c.id, restore := none }) rfl rfl (by simp) rfl rfl hmem
      (by simp : ∀ d ∈ ([] : List Directive), d.Apart t start)
    rwa [List.append_nil] at hq
  | still =>
    rw [List.append_nil]
    exact h

theorem idle {s : Snapshot} (h : Held t start seen s.levels ⟨r, ds⟩) (ha : r.active = none)
    (hds : LevelsOnly ds) :
    Held t start true s.levels
      (Response.andThen ⟨r, ds⟩ (Resolver.idle ds.isEmpty s)) := by
  -- levels are only sent once the start has been seen
  have hseen : ds ≠ [] → seen = true := by
    intro hsent
    obtain ⟨d, hd⟩ := List.exists_mem_of_ne_nil ds hsent
    cases hs : seen with
    | true => rfl
    | false => exact Bool.noConfusion ((hds d hd).symm.trans ((h.unseen hs).2.2.2 d hd))
  refine idle_keeps (P := Held t start true s.levels) (fun hq => ?quiet) (fun hq => ?sent)
    (fun q es hq _ => hq.stay rfl rfl rfl rfl rfl (fun hf => hf))
    fun q es hq _ => (hq.activate s.time).stay rfl rfl rfl rfl rfl (fun hf => hf)
  case quiet =>
    subst hq
    exact h.trackDefaults ha
  case sent => rwa [hseen hq] at h

/-! ## Actions -/

theorem settle {s : Snapshot} (h : Held t start seen shown ⟨r, []⟩) :
    match r.settle s.time with
    | .waiting q => Held t start true shown ⟨q, []⟩
    | .done q => Held t start seen shown ⟨q, []⟩ := by
  have hs := r.settled s.time
  cases hq : r.settle s.time with
  | done q =>
    obtain ⟨last, rfl⟩ := settle_done hq
    exact h.stay rfl rfl rfl rfl rfl (fun _ => rfl)
  | waiting q =>
    rw [hq] at hs
    cases hs with
    | waiting f hf hl hn hw =>
      have hseen : seen = true := by
        cases hseen : seen with
        | true => rfl
        | false =>
          have hnone : r.flight = none := (h.unseen hseen).2.2.1
          rw [hf] at hnone
          cases hnone
      subst hseen
      exact h.stay rfl rfl rfl rfl rfl (fun hnone => by rw [hf] at hnone; cases hnone)

theorem evaluate {s : Snapshot} (h : Held t start seen s.levels ⟨r, []⟩) :
    Held t start true s.levels (r.evaluate s) :=
  evaluate_keeps (Q := Held t start true s.levels) ((h.detect s.time).continueActive s)
    fun _ _ hq ha hds => hq.idle ha hds

theorem reset (h : Held t start seen shown ⟨r, []⟩) : Held t start seen shown r.reset := by
  have hq := h.clear.stay (q := r.reset.resolver) rfl rfl rfl rfl rfl (fun hf => hf)
  simpa [Resolver.reset, Response.andThen] using hq

theorem tick {s : Snapshot} (h : Held t start seen s.levels ⟨r, []⟩) :
    Held t start (seen || (Action.tick s).isLive) s.levels (r.tick s) := by
  have hended : s.state = .ended → (seen || (Action.tick s).isLive) = seen := by
    intro hs
    simp [Action.isLive, hs]
  have hlive : s.state ≠ .ended → (seen || (Action.tick s).isLive) = true := by
    intro hs
    simp [Action.isLive, hs]
  have hset := h.settle (s := s)
  have ht := r.ticked s
  generalize r.tick s = a at ht ⊢
  cases ht with
  | renewed hs =>
    rw [hended hs]
    exact h.reset
  | finished hs =>
    rw [hended hs]
    exact h.stay rfl rfl rfl rfl rfl (fun hf => hf)
  | waiting f hs hq =>
    rw [hq] at hset
    rw [hlive hs]
    exact hset
  | evaluated q hs hq =>
    rw [hq] at hset
    rw [hlive hs]
    exact hset.evaluate

theorem load {cues : List Cue} (h : Held t start seen shown ⟨r, []⟩)
    (hc : ∀ c ∈ cues, c.levels.Apart t start) : Held t start seen shown (r.load cues) := by
  have hcues : ∀ c ∈ byIndex cues, c.levels.Apart t start := fun c hmem => hc c (mem_byIndex.mp hmem)
  by_cases ha : r.active.all (knows cues) = true
  · rw [load_kept ha]
    exact { h with cues_apart := hcues }
  · rw [load_lost ha]
    have hne : r.active ≠ none := by
      intro hnone
      simp [hnone] at ha
    exact h.exit (q := { r with
      executed := r.executed.filter (knows cues), cues := byIndex cues
      active := none, flight := none, restore := some r.defaults }) hne rfl hcues rfl rfl

theorem act {a : Action} (h : Held t start seen shown ⟨r, []⟩) (ha : a.Apart t start)
    (hs : ∀ s, a = .tick s → s.levels = shown) :
    Held t start (seen || a.isLive) shown (r.act a) := by
  cases a with
  | load cues =>
    change Held t start (seen || false) shown _
    rw [Bool.or_false]
    exact h.load ha
  | tick s =>
    obtain rfl := hs s rfl
    exact h.tick
  | userSeek target =>
    change Held t start (seen || false) shown _
    rw [Bool.or_false]
    have hsent : ∀ d ∈ [Directive.seek (target.max 0) .user], d.isLevel = false := by
      simp [Directive.isLevel]
    have hseek := (h.stay (q := { r with flight := none }) rfl rfl rfl rfl rfl fun _ => rfl).send hsent
    exact hseek.moveTo _
  | resumeDue =>
    change Held t start (seen || false) shown r.resumeDue
    rw [Bool.or_false]
    unfold resumeDue
    split
    · have hsent : ∀ d ∈ [Directive.play], d.isLevel = false := by simp [Directive.isLevel]
      exact (h.stay (q := { r with awaiting := false }) rfl rfl rfl rfl rfl fun hf => hf).send hsent
    · exact h
  | reset =>
    change Held t start (seen || false) shown _
    rw [Bool.or_false]
    exact h.reset
  | endOfMedia =>
    change Held t start (seen || false) shown _
    rw [Bool.or_false]
    exact h.reset

theorem hear {a : Response} {p : Snapshot} {heard : List Directive}
    (h : Held t start seen p.levels a) (hh : heard.Sublist a.directives) :
    Held t start seen (p.obeyAll heard).levels ⟨a.resolver, []⟩ where
  tolerances_eq := h.tolerances_eq
  cues_apart := h.cues_apart
  shown_apart := obeyAll_apart h.shown_apart fun d hd => h.sent_apart d (hh.subset hd)
  sent_apart := by simp
  defaults_start := h.defaults_start
  unseen := fun hs => ⟨(h.unseen hs).1, (h.unseen hs).2.1, (h.unseen hs).2.2.1, by simp⟩
  restore_eq := h.restore_eq
  settled := by
    intro hact hres
    obtain ⟨hlevel, hshown⟩ := h.settled hact hres
    refine ⟨by simp, ?_⟩
    rw [obeyAll_levels fun d hd => hlevel d (hh.subset hd)]
    exact hshown

end Held

theorem Driven.held {t : Tolerances} {start : Levels} {seen : Bool} {r : Resolver} {p : Snapshot}
    (h : Driven t start seen r p) : Held t start seen p.levels ⟨r, []⟩ := by
  induction h with
  | new p hp =>
    subst hp
    constructor <;> simp [start_apart]
  | elapse q _ hq ih =>
    rw [hq]
    exact ih
  | @act seen r p a heard _ hs ha hh ih =>
    refine (ih.act ha ?_).hear hh
    intro s hts
    rw [hs s hts]

/-- Whatever is lost, the defaults are the levels at the start once a tick has seen them. -/
theorem Driven.defaults_eq {t : Tolerances} {start : Levels} {r : Resolver} {p : Snapshot}
    (h : Driven t start true r p) : r.defaults = start :=
  h.held.defaults_start rfl

def fiveToTen : CueSpec := ⟨5, 10, 40, 0.75, .natural⟩

/-- The cue has started and the player has heard of its volume only; of the restore after its end
nothing arrives. -/
theorem driven_restore_lost :
    ∃ r p, Driven {} ⟨80, 1.25⟩ true r p ∧ p.levels = ⟨40, 1.25⟩ ∧ r.defaults = ⟨80, 1.25⟩ := by
  let cues : List Cue := [fiveToTen.rounded.place 0 0]
  let look (time : Seconds) (volume : Nat) : Snapshot := ⟨time, volume, 1.25, .playing⟩
  have hapart : ∀ c ∈ cues, c.levels.Apart {} ⟨80, 1.25⟩ := by
    intro c hc
    rw [List.mem_singleton.mp hc]
    exact ⟨.inr (by decide), .inr (by decide +kernel)⟩
  have hload : Driven {} ⟨80, 1.25⟩ false { tolerances := {}, cues := cues } (look 4 80) := by
    have h := Driven.act (.load cues) [] (.new (look 4 80) rfl) (by simp) hapart (by simp)
    rwa [act, load_new {} (by decide)] at h
  have hfirst := hload.act (.tick (look 4 80)) [] (by simp) trivial (List.nil_sublist _)
  have hstart := (hfirst.elapse (look 5 80) (by decide +kernel)).act (.tick (look 5 80))
    [.setVolume 40] (by simp) trivial (by decide +kernel)
  have hend := (hstart.elapse (look 10.125 40) (by decide +kernel)).act
    (.tick (look 10.125 40)) [] (by simp) trivial (List.nil_sublist _)
  exact ⟨_, _, hend, by decide +kernel, hend.defaults_eq⟩

end PlaybackCues
