import PlaybackCues.Proofs.Number.Order
import PlaybackCues.Proofs.Resolver.Defaults

set_option autoImplicit false

/-!
# A replay is like the first pass

Take a player that carries out everything at once and whose levels nobody else changes. While a cue
is active the defaults are the levels at the start, and otherwise the player shows them. So a reset
leaves a resolver that differs from a new one at most in its defaults and in a restore that has not
been seen; neither is used before the next tick, and that tick sees the levels at the start and
makes the two equal.
-/
namespace PlaybackCues

open Resolver

/-! ## Playback -/

structure Playback where
  resolver : Resolver
  player : Snapshot

namespace Playback

/-- The player as an action finds it: a tick brings its time and state, the levels are its own. -/
def shown (p : Playback) : Action → Snapshot
  | .tick s => { p.player with time := s.time, state := s.state }
  | _ => p.player

def made (p : Playback) : Action → Action
  | .tick s => .tick (p.shown (.tick s))
  | a => a

def respond (p : Playback) (a : Action) : Response := p.resolver.act (p.made a)

def next (p : Playback) (a : Action) : Playback :=
  ⟨(p.respond a).resolver, (p.shown a).obeyAll (p.respond a).directives⟩

def after (p : Playback) (as : List Action) : Playback := as.foldl next p

def sent (p : Playback) : List Action → List (List Directive)
  | [] => []
  | a :: as => (p.respond a).directives :: (p.next a).sent as

theorem shown_levels (p : Playback) (a : Action) : (p.shown a).levels = p.player.levels := by
  cases a <;> rfl

end Playback

theorem obeyAll_append (p : Snapshot) (ds es : List Directive) :
    p.obeyAll (ds ++ es) = (p.obeyAll ds).obeyAll es := List.foldl_append

theorem obeyAll_end (p : Snapshot) (ds : List Directive) (l : Levels) {es : List Directive}
    (he : ∀ e ∈ es, e.isLevel = false) : (p.obeyAll (ds ++ (l.directives ++ es))).levels = l := by
  rw [obeyAll_append, obeyAll_append, obeyAll_levels he]
  rfl

theorem obeyAll_subset {l : Levels} {ds : List Directive} {p : Snapshot} (hp : p.levels = l)
    (h : ds ⊆ l.directives) : (p.obeyAll ds).levels = l := by
  induction ds generalizing p with
  | nil => exact hp
  | cons d ds ih =>
    refine ih (p := p.obey d) ?_ fun e he => h (List.mem_cons_of_mem d he)
    have hd := h List.mem_cons_self
    simp only [Levels.directives, List.mem_cons, List.not_mem_nil, or_false] at hd
    subst hp
    rcases hd with rfl | rfl <;> rfl

def Action.loads : Action → Bool
  | .load _ => true
  | _ => false

/-! ## The first pass -/

/-- What holds while an action goes on: `shown` is the player as it began, and the response is what
there is so far. -/
structure Kept (t : Tolerances) (cues : List Cue) (start : Levels) (shown : Snapshot)
    (a : Response) : Prop where
  tolerances_eq : a.resolver.tolerances = t
  cues_eq : a.resolver.cues = cues
  idle : a.resolver.active = none → (shown.obeyAll a.directives).levels = start
  active : a.resolver.active ≠ none → a.resolver.defaults = start
  restore : ∀ l, a.resolver.restore = some l → l = start ∧ a.resolver.defaults = start
  sent : ∀ d ∈ a.directives, d.isLevel = true → a.resolver.defaults = start

namespace Kept

variable {t : Tolerances} {cues : List Cue} {start : Levels} {shown : Snapshot} {r q : Resolver}
  {ds es : List Directive}

/-- Neither the active cue nor the levels kept have changed. -/
theorem stay (h : Kept t cues start shown ⟨r, ds⟩) (ht : q.tolerances = r.tolerances)
    (hc : q.cues = r.cues) (ha : q.active = r.active) (hd : q.defaults = r.defaults)
    (hres : q.restore = r.restore) : Kept t cues start shown ⟨q, ds⟩ where
  tolerances_eq := ht.trans h.tolerances_eq
  cues_eq := hc.trans h.cues_eq
  idle := fun hq => h.idle (ha.symm.trans hq)
  active := fun hq => hd.trans (h.active fun hr => hq (ha.trans hr))
  restore := fun l hl => ⟨(h.restore l (hres.symm.trans hl)).1, hd.trans (h.restore l (hres.symm.trans hl)).2⟩
  sent := fun d hmem hl => hd.trans (h.sent d hmem hl)

/-- The defaults are sent as a cue is left. -/
theorem exit_sending (h : Kept t cues start shown ⟨r, ds⟩) (hr : r.active ≠ none)
    (ht : q.tolerances = r.tolerances) (hc : q.cues = r.cues) (hd : q.defaults = r.defaults)
    (hres : q.restore = some r.defaults) (he : ∀ e ∈ es, e.isLevel = false) :
    Kept t cues start shown ⟨q, ds ++ (r.defaults.directives ++ es)⟩ := by
  have hstart : r.defaults = start := h.active hr
  have hq : q.defaults = start := hd.trans hstart
  refine ⟨ht.trans h.tolerances_eq, hc.trans h.cues_eq, fun _ => ?_, fun _ => hq, ?_, fun _ _ _ => hq⟩
  · rw [← hstart]
    exact obeyAll_end shown ds r.defaults he
  · intro l hl
    rw [hres] at hl
    cases hl
    exact ⟨hstart, hq⟩

theorem exit (h : Kept t cues start shown ⟨r, ds⟩) (hr : r.active ≠ none)
    (ht : q.tolerances = r.tolerances) (hc : q.cues = r.cues) (hd : q.defaults = r.defaults)
    (hres : q.restore = some r.defaults) :
    Kept t cues start shown ⟨q, ds ++ r.defaults.directives⟩ := by
  have hq := h.exit_sending hr ht hc hd hres
    (by simp : ∀ e ∈ ([] : List Directive), e.isLevel = false)
  rwa [List.append_nil] at hq

theorem enter (h : Kept t cues start shown ⟨r, ds⟩) (hstart : r.defaults = start)
    (ht : q.tolerances = r.tolerances) (hc : q.cues = r.cues) (ha : q.active ≠ none)
    (hd : q.defaults = r.defaults) (hres : q.restore = none) :
    Kept t cues start shown ⟨q, es⟩ := by
  have hq : q.defaults = start := hd.trans hstart
  exact ⟨ht.trans h.tolerances_eq, hc.trans h.cues_eq, fun hnone => absurd hnone ha, fun _ => hq,
    by simp [hres], fun _ _ _ => hq⟩

theorem leave (h : Kept t cues start shown ⟨r, ds⟩) :
    Kept t cues start shown ⟨r.leave.resolver, ds ++ r.leave.directives⟩ := by
  have hl := r.left
  generalize r.leave = a at hl ⊢
  cases hl with
  | restored hne =>
    exact h.exit (q := { r with active := none, restore := some r.defaults }) hne rfl rfl rfl rfl
  | still =>
    rw [List.append_nil]
    exact h

theorem clear (h : Kept t cues start shown ⟨r, ds⟩) :
    Kept t cues start shown ⟨r.clear.resolver, ds ++ r.clear.directives⟩ := by
  have hq := h.leave.stay (q := r.clear.resolver) rfl rfl rfl rfl rfl
  simpa [Resolver.clear] using hq

theorem moveTo (h : Kept t cues start shown ⟨r, ds⟩) (now : Seconds) :
    Kept t cues start shown ⟨(r.moveTo now).resolver, ds ++ (r.moveTo now).directives⟩ := by
  have hq := h.leave.stay (q := (r.moveTo now).resolver) rfl rfl rfl rfl rfl
  simpa [Resolver.moveTo] using hq

theorem detect (h : Kept t cues start shown ⟨r, ds⟩) (now : Seconds) :
    Kept t cues start shown ⟨(r.detect now).resolver, ds ++ (r.detect now).directives⟩ := by
  have hd := r.detected now
  generalize r.detect now = a at hd ⊢
  cases hd with
  | restarted => exact h.clear
  | moved => exact h.moveTo now
  | still => simpa using h

theorem continueActive (h : Kept t cues start shown ⟨r, ds⟩) (s : Snapshot) :
    match r.continueActive s with
    | .stop rest => Kept t cues start shown ⟨rest.resolver, ds ++ rest.directives⟩
    | .idle rest => Kept t cues start shown ⟨rest.resolver, ds ++ rest.directives⟩ := by
  have hp := r.passage s
  generalize r.continueActive s = o at hp
  cases hp with
  | hold c hc hcov =>
    have hne := active_of_activeCue? hc
    exact ⟨h.tolerances_eq, h.cues_eq, fun hnone => absurd hnone hne, h.active, h.restore,
      fun _ _ _ => h.active hne⟩
  | jump c next hc hcov hm hn =>
    exact h.enter (h.active (active_of_activeCue? hc)) (chain_tolerances (r.finish c) c next s.time)
      (chain_cues _ _ _ _) (by simp [Resolver.chain]) (chain_defaults _ _ _ _) rfl
  | pause c seconds hc hcov hm =>
    exact h.exit_sending (active_of_activeCue? hc) rfl rfl rfl rfl (by simp [Directive.isLevel])
  | finish c hc hcov hm =>
    exact h.exit (q := (r.finish c).restoreDefaults.resolver) (active_of_activeCue? hc) rfl rfl rfl
      rfl
  | lost id ha hc =>
    exact h.exit (q := { r with active := none, restore := some r.defaults }) (by simp [ha]) rfl rfl
      rfl rfl
  | rest ha => simpa using h

theorem trackDefaults {s : Snapshot} (h : Kept t cues start s ⟨r, []⟩) (ha : r.active = none) :
    Kept t cues start s (r.trackDefaults s) ∧ (r.trackDefaults s).resolver.defaults = start := by
  have hshown : s.levels = start := h.idle ha
  have ht := r.defaultsTracked s
  generalize r.trackDefaults s = a at ht ⊢
  cases ht with
  | restored =>
    exact ⟨{ h with
      active := fun _ => hshown
      restore := by simp
      sent := by simp }, hshown⟩
  | corrected wanted hw =>
    obtain ⟨rfl, hdef⟩ := h.restore wanted hw
    exact ⟨{ h with
      idle := fun _ => obeyAll_subset hshown (correction_subset r _ _)
      sent := fun _ _ _ => hdef }, hdef⟩
  | taken hnone =>
    exact ⟨{ h with
      active := fun _ => hshown
      restore := by simp [hnone]
      sent := by simp }, hshown⟩

theorem activate (h : Kept t cues start shown ⟨r, ds⟩) (hdef : r.defaults = start) (now : Seconds) :
    Kept t cues start shown ⟨(r.activate now).resolver, ds ++ (r.activate now).directives⟩ := by
  have hs := r.started now
  generalize r.activate now = a at hs ⊢
  cases hs with
  | begun c hc =>
    exact h.enter (q := { r.retire (r.overtaken c now) with active := some c.id, restore := none })
      hdef rfl rfl (by simp) rfl rfl
  | still =>
    rw [List.append_nil]
    exact h

theorem idle_tick {s : Snapshot} (h : Kept t cues start s ⟨r, ds⟩) (ha : r.active = none)
    (hds : LevelsOnly ds) :
    Kept t cues start s (Response.andThen ⟨r, ds⟩ (Resolver.idle ds.isEmpty s)) := by
  refine idle_keeps (P := fun a => Kept t cues start s a ∧ a.resolver.defaults = start)
    (fun hq => ?quiet) (fun hq => ?sent) (fun q es hq _ => hq.1.stay rfl rfl rfl rfl rfl)
    fun q es hq _ => (hq.1.activate hq.2 s.time).stay rfl rfl rfl rfl rfl
  case quiet =>
    subst hq
    exact h.trackDefaults ha
  case sent =>
    -- what has been sent are the defaults
    obtain ⟨d, hd⟩ := List.exists_mem_of_ne_nil ds hq
    exact ⟨h, h.sent d hd (hds d hd)⟩

theorem evaluate {s : Snapshot} (h : Kept t cues start s ⟨r, []⟩) :
    Kept t cues start s (r.evaluate s) :=
  evaluate_keeps (Q := Kept t cues start s) ((h.detect s.time).continueActive s)
    fun _ _ hq ha hds => hq.idle_tick ha hds

theorem reset (h : Kept t cues start shown ⟨r, []⟩) : Kept t cues start shown r.reset := by
  have hq := h.clear.stay (q := r.reset.resolver) rfl rfl rfl rfl rfl
  simpa [Resolver.reset, Response.andThen] using hq

theorem tick {s : Snapshot} (h : Kept t cues start s ⟨r, []⟩) : Kept t cues start s (r.tick s) := by
  have ht := r.ticked s
  generalize r.tick s = a at ht ⊢
  cases ht with
  | renewed => exact h.reset
  | finished => exact h.stay rfl rfl rfl rfl rfl
  | waiting => exact h.stay rfl rfl rfl rfl rfl
  | evaluated q hs hq =>
    obtain ⟨last, rfl⟩ := settle_done hq
    exact (h.stay (q := { r with flight := none, last := last }) rfl rfl rfl rfl rfl).evaluate

theorem send (h : Kept t cues start shown ⟨r, []⟩) (he : ∀ e ∈ es, e.isLevel = false) :
    Kept t cues start shown ⟨r, es⟩ where
  tolerances_eq := h.tolerances_eq
  cues_eq := h.cues_eq
  idle := fun ha => (obeyAll_levels he).trans (h.idle ha)
  active := h.active
  restore := h.restore
  sent := fun d hd hl => Bool.noConfusion ((he d hd).symm.trans hl)

theorem act {a : Action} (h : Kept t cues start shown ⟨r, []⟩) (ha : a.loads = false)
    (hs : ∀ s, a = .tick s → s = shown) : Kept t cues start shown (r.act a) := by
  cases a with
  | load cues => cases ha
  | tick s =>
    obtain rfl := hs s rfl
    exact h.tick
  | userSeek target =>
    have hsent : ∀ e ∈ [Directive.seek (target.max 0) .user], e.isLevel = false := by
      simp [Directive.isLevel]
    exact ((h.stay (q := { r with flight := none }) rfl rfl rfl rfl rfl).send hsent).moveTo _
  | resumeDue =>
    change Kept t cues start shown r.resumeDue
    unfold resumeDue
    split
    · have hsent : ∀ e ∈ [Directive.play], e.isLevel = false := by simp [Directive.isLevel]
      exact (h.stay (q := { r with awaiting := false }) rfl rfl rfl rfl rfl).send hsent
    · exact h
  | reset => exact h.reset
  | endOfMedia => exact h.reset

theorem hear {a : Response} (h : Kept t cues start shown a) :
    Kept t cues start (shown.obeyAll a.directives) ⟨a.resolver, []⟩ :=
  ⟨h.tolerances_eq, h.cues_eq, h.idle, h.active, h.restore, by simp⟩

theorem look {p : Snapshot} (h : Kept t cues start shown ⟨r, []⟩) (hp : p.levels = shown.levels) :
    Kept t cues start p ⟨r, []⟩ :=
  { h with idle := fun ha => hp.trans (h.idle ha) }

end Kept

namespace Playback

variable {t : Tolerances} {cues : List Cue} {start : Levels} {p q : Playback} {a : Action}

theorem kept_next (h : Kept t cues start p.player ⟨p.resolver, []⟩) (ha : a.loads = false) :
    Kept t cues start (p.next a).player ⟨(p.next a).resolver, []⟩ := by
  have hact := (h.look (p.shown_levels a)).act (a := p.made a) (by cases a <;> first | rfl | cases ha)
    (by
      intro s hs
      cases a <;> cases hs
      rfl)
  exact hact.hear

theorem kept_after {as : List Action} (h : Kept t cues start p.player ⟨p.resolver, []⟩)
    (has : ∀ a ∈ as, a.loads = false) :
    Kept t cues start (p.after as).player ⟨(p.after as).resolver, []⟩ := by
  induction as generalizing p with
  | nil => exact h
  | cons a as ih =>
    exact ih (kept_next h (has a List.mem_cons_self)) fun b hb => has b (List.mem_cons_of_mem a hb)

end Playback

/-! ## The second pass -/

namespace Resolver

/-- The other resolver differs at most in its defaults and in a restore, neither of which has been
used since the pass was forgotten. -/
structure Unseen (t : Tolerances) (start : Levels) (r q : Resolver) : Prop where
  tolerances_eq : r.tolerances = t
  active : r.active = none
  flight : r.flight = none
  restore : r.restore = none ∨ r.restore = some start
  same : q = { r with defaults := q.defaults, restore := none }

theorem correction_self {r : Resolver} (h : ¬ r.tolerances.rate < 0) (l : Levels) :
    r.correction l l = [] := by
  have hv : r.volumeOff l.volume l.volume = false := by simp [volumeOff, volumeDistance]
  have hr : r.rateOff l.rate l.rate = false := decide_eq_false (Binary64.not_lt_distance_self h)
  simp [correction, hv, hr]

theorem trackDefaults_seen {r : Resolver} {s : Snapshot} (h : ¬ r.tolerances.rate < 0)
    (hr : r.restore = none ∨ r.restore = some s.levels) :
    r.trackDefaults s = ⟨{ r with restore := none, defaults := s.levels }, []⟩ := by
  unfold trackDefaults
  rcases hr with hr | hr
  · simp [hr]
  · simp [hr, correction_self h]

theorem leave_idle {r : Resolver} (h : r.active = none) : r.leave = ⟨r, []⟩ := by
  simp [leave, h]

theorem clear_idle {r : Resolver} (h : r.active = none) :
    r.clear = ⟨{ r with executed := [], flight := none, awaiting := false }, []⟩ := by
  simp [clear, leave_idle h, Response.andThen]

theorem moveTo_idle {r : Resolver} (h : r.active = none) (now : Seconds) :
    r.moveTo now = ⟨{ r with executed := r.passed now, last := now }, []⟩ := by
  simp [moveTo, leave_idle h, Response.andThen]

theorem reset_idle {r : Resolver} (h : r.active = none) :
    r.reset = ⟨{ r with executed := [], flight := none, awaiting := false, last := 0 }, []⟩ := by
  simp [reset, clear_idle h, Response.andThen]

theorem userSeek_idle {r : Resolver} (h : r.active = none) (target : Seconds) :
    r.userSeek target =
      ⟨{ r with flight := none, executed := r.passed (target.max 0), last := target.max 0 },
        [.seek (target.max 0) .user]⟩ := by
  simp [userSeek, Response.andThen, moveTo_idle (r := { r with flight := none }) h, passed]

theorem evaluate_rest {r : Resolver} {s : Snapshot} (hd : (r.detect s.time).directives = [])
    (ha : (r.detect s.time).resolver.active = none) :
    r.evaluate s = (r.detect s.time).resolver.idle true s := by
  have hon : (r.detect s.time).resolver.continueActive s = .idle ⟨(r.detect s.time).resolver, []⟩ := by
    simp [continueActive, ha]
  rw [evaluate_idle hon, hd]
  simp [Response.andThen]

namespace Unseen

variable {t : Tolerances} {start : Levels} {r q : Resolver}

theorem detect (h : Unseen t start r q) (now : Seconds) :
    Unseen t start (r.detect now).resolver (q.detect now).resolver ∧
      (r.detect now).directives = [] ∧ (q.detect now).directives = [] := by
  obtain ⟨ht, ha, hf, hr, hsame⟩ := h
  generalize q.defaults = d at hsame
  have hqa : q.active = none := by rw [hsame]; exact ha
  have hrest : q.restarted now = r.restarted now := by rw [hsame]; rfl
  have hmoved : q.moved now = r.moved now := by rw [hsame]; rfl
  unfold Resolver.detect
  rw [hrest, hmoved]
  split
  · rw [clear_idle ha, clear_idle hqa, hsame]
    exact ⟨⟨ht, ha, rfl, hr, rfl⟩, rfl, rfl⟩
  · split
    · rw [moveTo_idle ha, moveTo_idle hqa, hsame]
      exact ⟨⟨ht, ha, hf, hr, rfl⟩, rfl, rfl⟩
    · rw [hsame]
      exact ⟨⟨ht, ha, hf, hr, rfl⟩, rfl, rfl⟩

theorem idle_eq (h : Unseen t start r q) (ht : ¬ t.rate < 0) {s : Snapshot} (hs : s.levels = start) :
    r.idle true s = q.idle true s := by
  obtain ⟨htol, ha, hf, hr, hsame⟩ := h
  subst hs
  have hrt : ¬ r.tolerances.rate < 0 := by rwa [htol]
  have hqt : ¬ q.tolerances.rate < 0 := by rwa [hsame]
  have hq : q.restore = none := by rw [hsame]
  have htrack : r.trackDefaults s = q.trackDefaults s := by
    rw [trackDefaults_seen hrt hr, trackDefaults_seen hqt (.inl hq), hsame]
  unfold Resolver.idle
  rw [if_pos rfl, if_pos rfl, htrack]

/-- A tick that sees the levels at the start makes the resolvers equal. -/
theorem tick_eq (h : Unseen t start r q) (ht : ¬ t.rate < 0) {s : Snapshot} (hs : s.levels = start)
    (hlive : s.state ≠ .ended) : r.tick s = q.tick s := by
  have hqf : q.flight = none := by rw [h.same]; exact h.flight
  obtain ⟨hd, hrd, hqd⟩ := h.detect s.time
  have hqa : (q.detect s.time).resolver.active = none := by rw [hd.same]; exact hd.active
  rw [tick_done hlive (q := r) (by simp [Resolver.settle, h.flight]),
    tick_done hlive (q := q) (by simp [Resolver.settle, hqf]),
    evaluate_rest hrd hd.active, evaluate_rest hqd hqa]
  exact hd.idle_eq ht hs

end Unseen

structure SentAlike (t : Tolerances) (start : Levels) (a b : Response) : Prop where
  unseen : Unseen t start a.resolver b.resolver
  directives_eq : a.directives = b.directives
  no_levels : ∀ d ∈ a.directives, d.isLevel = false

namespace Unseen

variable {t : Tolerances} {start : Levels} {r q : Resolver}

theorem respond {a b : Response} {es : List Directive} (ha : a = ⟨r, es⟩) (hb : b = ⟨q, es⟩)
    (h : Unseen t start r q) (he : ∀ d ∈ es, d.isLevel = false) : SentAlike t start a b := by
  subst ha hb
  exact ⟨h, rfl, he⟩

theorem idle_active (h : Unseen t start r q) : q.active = none := by
  rw [h.same]
  exact h.active

theorem load (h : Unseen t start r q) (cues : List Cue) :
    SentAlike t start (r.load cues) (q.load cues) := by
  have hknown : ∀ {p : Resolver}, p.active = none → p.active.all (knows cues) = true := by
    intro p hp
    rw [hp]
    rfl
  have hload := load_kept (hknown h.active)
  have hload' := load_kept (hknown h.idle_active)
  obtain ⟨ht, ha, hf, hr, hsame⟩ := h
  generalize q.defaults = d at hsame
  refine respond hload hload' ?_ (by simp)
  rw [hsame]
  exact ⟨ht, ha, hf, hr, rfl⟩

theorem reset (h : Unseen t start r q) : SentAlike t start r.reset q.reset := by
  have hreset := reset_idle h.active
  have hreset' := reset_idle h.idle_active
  obtain ⟨ht, ha, hf, hr, hsame⟩ := h
  generalize q.defaults = d at hsame
  refine respond hreset hreset' ?_ (by simp)
  rw [hsame]
  exact ⟨ht, ha, rfl, hr, rfl⟩

theorem tickEnded (h : Unseen t start r q) (now : Seconds) :
    SentAlike t start (r.tickEnded now) (q.tickEnded now) := by
  have hreset := h.reset
  have hactive : q.active = r.active := h.idle_active.trans h.active.symm
  obtain ⟨ht, ha, hf, hr, hsame⟩ := h
  generalize q.defaults = d at hsame
  unfold Resolver.tickEnded
  rw [show q.executed = r.executed by rw [hsame], hactive]
  split
  · exact hreset
  · refine respond rfl rfl ?_ (by simp)
    rw [hsame]
    exact ⟨ht, ha, hf, hr, rfl⟩

theorem userSeek (h : Unseen t start r q) (target : Seconds) :
    SentAlike t start (r.userSeek target) (q.userSeek target) := by
  have hseek := userSeek_idle h.active target
  have hseek' := userSeek_idle h.idle_active target
  obtain ⟨ht, ha, hf, hr, hsame⟩ := h
  generalize q.defaults = d at hsame
  refine respond hseek hseek' ?_ (by simp [Directive.isLevel])
  rw [hsame]
  exact ⟨ht, ha, rfl, hr, rfl⟩

theorem resumeDue (h : Unseen t start r q) : SentAlike t start r.resumeDue q.resumeDue := by
  obtain ⟨ht, ha, hf, hr, hsame⟩ := h
  generalize q.defaults = d at hsame
  unfold Resolver.resumeDue
  rw [show q.awaiting = r.awaiting by rw [hsame]]
  split
  · refine respond rfl rfl ?_ (by simp [Directive.isLevel])
    rw [hsame]
    exact ⟨ht, ha, hf, hr, rfl⟩
  · refine respond rfl rfl ?_ (by simp)
    rw [hsame]
    exact ⟨ht, ha, hf, hr, rfl⟩

theorem act (h : Unseen t start r q) {a : Action} (hlive : a.isLive = false) :
    SentAlike t start (r.act a) (q.act a) := by
  cases a with
  | load cues => exact h.load cues
  | tick s =>
    have hs : s.state = .ended := by simpa [Action.isLive] using hlive
    change SentAlike t start (r.tick s) (q.tick s)
    rw [tick_ended hs, tick_ended hs]
    exact h.tickEnded s.time
  | userSeek target => exact h.userSeek target
  | resumeDue => exact h.resumeDue
  | reset => exact h.reset
  | endOfMedia => exact h.reset

end Unseen

end Resolver

namespace Playback

inductive Twins (t : Tolerances) (start : Levels) (p q : Playback) : Prop where
  | same : p.resolver = q.resolver → p.player.levels = q.player.levels → Twins t start p q
  | unseen : Unseen t start p.resolver q.resolver → p.player.levels = start →
      q.player.levels = start → Twins t start p q

theorem made_eq {p q : Playback} (h : p.player.levels = q.player.levels) (a : Action) :
    p.made a = q.made a := by
  cases a with
  | tick s =>
    have hv : p.player.volume = q.player.volume := congrArg Levels.volume h
    have hr : p.player.rate = q.player.rate := congrArg Levels.rate h
    simp [made, shown, hv, hr]
  | load cues => rfl
  | userSeek target => rfl
  | resumeDue => rfl
  | reset => rfl
  | endOfMedia => rfl

theorem obeyAll_levels_congr {p q : Snapshot} (h : p.levels = q.levels) (ds : List Directive) :
    (p.obeyAll ds).levels = (q.obeyAll ds).levels := by
  induction ds generalizing p q with
  | nil => exact h
  | cons d ds ih =>
    refine ih (p := p.obey d) (q := q.obey d) ?_
    have hv : p.volume = q.volume := congrArg Levels.volume h
    have hr : p.rate = q.rate := congrArg Levels.rate h
    cases d <;> simp [Snapshot.obey, Snapshot.levels, hv, hr]

theorem twins_of_respond {t : Tolerances} {start : Levels} {p q : Playback} {a : Action}
    (h : p.respond a = q.respond a) (hl : p.player.levels = q.player.levels) :
    Twins t start (p.next a) (q.next a) := by
  refine .same (congrArg Response.resolver h) ?_
  have hshown : (p.shown a).levels = (q.shown a).levels := by rw [shown_levels, shown_levels, hl]
  change ((p.shown a).obeyAll _).levels = ((q.shown a).obeyAll _).levels
  rw [h]
  exact obeyAll_levels_congr hshown _

theorem Twins.step {t : Tolerances} {start : Levels} {p q : Playback} (ht : ¬ t.rate < 0)
    (h : Twins t start p q) (a : Action) :
    (p.respond a).directives = (q.respond a).directives ∧ Twins t start (p.next a) (q.next a) := by
  cases h with
  | same hr hl =>
    have hresp : p.respond a = q.respond a := by
      unfold respond
      rw [made_eq hl, hr]
    exact ⟨congrArg Response.directives hresp, twins_of_respond hresp hl⟩
  | unseen hu hp hq =>
    have hl := hp.trans hq.symm
    cases hlive : a.isLive with
    | true =>
      cases a with
      | tick s =>
        have hs : s.state ≠ .ended := by simpa [Action.isLive] using hlive
        have hresp : p.respond (.tick s) = q.respond (.tick s) := by
          unfold respond
          rw [← made_eq hl]
          exact hu.tick_eq ht ((p.shown_levels (.tick s)).trans hp) hs
        exact ⟨congrArg Response.directives hresp, twins_of_respond hresp hl⟩
      | _ => cases hlive
    | false =>
      have hmade : (p.made a).isLive = false := by cases a <;> exact hlive
      obtain ⟨hnext, hsent, hlevel⟩ := hu.act hmade
      have hq' : q.respond a = q.resolver.act (p.made a) := by rw [respond, made_eq hl]
      rw [← hq'] at hnext hsent
      refine ⟨hsent, .unseen hnext ?_ ?_⟩
      · exact ((obeyAll_levels hlevel).trans (p.shown_levels a)).trans hp
      · refine ((obeyAll_levels ?_).trans (q.shown_levels a)).trans hq
        rw [← hsent]
        exact hlevel

theorem Twins.sent_eq {t : Tolerances} {start : Levels} {p q : Playback} (ht : ¬ t.rate < 0)
    (h : Twins t start p q) (as : List Action) : p.sent as = q.sent as := by
  induction as generalizing p q with
  | nil => rfl
  | cons a as ih =>
    obtain ⟨hd, hnext⟩ := h.step ht a
    exact List.cons_eq_cons.mpr ⟨hd, ih hnext⟩

theorem unseen_of_reset {t : Tolerances} {cues : List Cue} {start : Levels} {shown : Snapshot}
    {r : Resolver} (h : Kept t (byIndex cues) start shown r.reset) :
    Unseen t start r.reset.resolver (fresh t cues) := by
  have ha : r.reset.resolver.active = none := leave_active r
  have ht := h.tolerances_eq
  have hc := h.cues_eq
  refine ⟨ht, ha, rfl, ?_, ?_⟩
  · cases hr : r.reset.resolver.restore with
    | none => exact .inl rfl
    | some l => exact .inr (congrArg some (h.restore l hr).1)
  · rw [fresh_eq, ← ht, ← hc]
    change _ = ({ r.reset.resolver with
      active := r.leave.resolver.active, executed := [], last := 0, flight := none, awaiting := false
      restore := none, defaults := _ } : Resolver)
    rw [leave_active]

/-- After any pass that ends with a reset or with the end of the media, the same actions send the
same as with a new resolver. -/
theorem sent_after_reset {t : Tolerances} (ht : ¬ t.rate < 0) (cues : List Cue) {p q : Snapshot}
    (hl : p.levels = q.levels) {first : List Action} (hfirst : ∀ a ∈ first, a.loads = false)
    {last : Action} (hlast : last = .reset ∨ last = .endOfMedia) (second : List Action) :
    ((Playback.mk (fresh t cues) p).after (first ++ [last])).sent second =
      (Playback.mk (fresh t cues) q).sent second := by
  have hnew : Kept t (byIndex cues) p.levels p ⟨fresh t cues, []⟩ := by
    rw [fresh_eq]
    exact ⟨rfl, rfl, fun _ => rfl, by simp, by simp, by simp⟩
  have hpass := kept_after (p := ⟨fresh t cues, p⟩) hnew hfirst
  rw [after, List.foldl_append]
  change (((Playback.mk (fresh t cues) p).after first).next last).sent second = _
  generalize (Playback.mk (fresh t cues) p).after first = r at hpass
  have hreset : r.next last = ⟨r.resolver.reset.resolver,
      r.player.obeyAll r.resolver.reset.directives⟩ := by
    rcases hlast with rfl | rfl <;> rfl
  rw [hreset]
  have hkept := hpass.reset
  refine Twins.sent_eq ht (.unseen (unseen_of_reset hkept) ?_ hl.symm) second
  exact hkept.idle (leave_active r.resolver)

def throughFive : List Action := [4, 5, 10.125].map fun now => .tick ⟨now, 100, 1, .playing⟩

/-- The first pass ends before a tick has seen the restore. -/
theorem sent_after_throughFive :
    let cues := [fiveToTen.rounded.place 0 0]
    let started := Playback.mk (fresh {} cues) ⟨0, 80, 1.25, .playing⟩
    (∀ a ∈ throughFive, a.loads = false) ∧
      (started.after (throughFive ++ [.endOfMedia])).resolver.restore = some ⟨80, 1.25⟩ ∧
      (started.after (throughFive ++ [.endOfMedia])).sent throughFive = started.sent throughFive ∧
      started.sent throughFive =
        [[], [.setVolume 40, .setRate 0.75], [.setVolume 80, .setRate 1.25]] := by
  have hload : ∀ a ∈ throughFive, a.loads = false := by
    intro a ha
    obtain ⟨now, _, rfl⟩ := List.mem_map.mp ha
    rfl
  have hfresh : fresh {} [fiveToTen.rounded.place 0 0] =
      { tolerances := {}, cues := [fiveToTen.rounded.place 0 0] } := load_new {} (by decide)
  refine ⟨hload, ?_, sent_after_reset (by decide +kernel) _ rfl hload (.inr rfl) throughFive, ?_⟩
  · rw [hfresh]
    decide +kernel
  · rw [hfresh]
    decide +kernel

end Playback

end PlaybackCues
