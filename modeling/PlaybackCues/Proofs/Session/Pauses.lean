import PlaybackCues.Proofs.Session.Rounds

set_option autoImplicit false

/-!
# Pauses and resumes

A session pauses the player when a poll finds a cue over whose mode is to pause, and lets it play
when the time of the pause is over, unless the pass has been forgotten in the meantime. The timer of
a pause outlives a tick that forgets the pass, so it must be shown never to meet the pause of a
later cue: during a pause no cue is active, and at one instant the ticker only comes before the end
of a pause if it has not posted since the pause began.
-/
namespace PlaybackCues

/-! ## The resolver during a pause -/

namespace Resolver

/-- A tick does not activate anything during a pause that it does not end. -/
theorem tick_active_of_awaiting {r : Resolver} {s : Snapshot} (hw : r.awaiting = true)
    (ha : r.active = none) (he : r.endsWait (.tick s) = false) :
    (r.tick s).resolver.active = none := by
  have ht := r.ticked s
  generalize r.tick s = a at ht ⊢
  cases ht with
  | renewed hs hbegun => simp [endsWait, hs, hbegun] at he
  | finished => exact ha
  | waiting => exact ha
  | evaluated q hs hq =>
    have he : q.restarted s.time = false := by simpa [endsWait, hs, hq] using he
    obtain ⟨hqa, hqw⟩ : q.active = none ∧ q.awaiting = true := by
      obtain ⟨last, rfl⟩ := settle_done hq
      exact ⟨ha, hw⟩
    have hactive : (q.detect s.time).resolver.active = none := by
      have hd := q.detected s.time
      generalize q.detect s.time = a at hd ⊢
      cases hd with
      | restarted => exact q.leave_active
      | moved => exact q.leave_active
      | still => exact hqa
    have hawaiting : (q.detect s.time).resolver.awaiting = true := by
      rw [detect_awaiting, he, hqw]
      rfl
    have hnone : (q.detect s.time).resolver.continueActive s =
        .idle ⟨(q.detect s.time).resolver, []⟩ := by
      simp [continueActive, hactive]
    rw [evaluate_idle hnone, Response.andThen_resolver]
    obtain ⟨defaults, restore, hidle⟩ :=
      idle_resolver ((q.detect s.time).directives ++ []).isEmpty s (q.detect s.time).resolver
    rw [hidle, if_pos hawaiting]
    exact hactive

theorem load_awaiting (r : Resolver) (cues : List Cue) :
    (r.load cues).resolver.awaiting = r.awaiting := by
  by_cases h : r.active.all (knows cues) = true
  · rw [load_kept h]
  · rw [load_lost h]

theorem load_active {r : Resolver} (h : r.active = none) (cues : List Cue) :
    (r.load cues).resolver.active = none := by
  rw [load_kept (by simp [h])]
  exact h

end Resolver

/-! ## Turns that pause, resume and abandon -/

namespace SessionTurn

def resumes (m : SessionTurn) : Bool := m.event = .resumeDue && m.before.resolver.awaiting

/-- The turn forgets the pass, and with it a pause: the video is changed, the player tells that the
media is over, or a tick finds it over or started anew. -/
def abandons (m : SessionTurn) : Bool :=
  match m.event with
  | .videoChanged => true
  | .player n => n = .stateChanged .ended
  | .poll => m.look?.any fun s => m.before.resolver.endsWait (.tick s)
  | .textChanged _ | .quiet _ | .resumeDue | .seek _ => false

/-- A pause goes on from the turn that pauses to one that resumes or abandons. -/
def pausing : Alarm SessionTurn Nat where
  opens := pause?
  closes m := m.resumes || m.abandons

def pauseEnd (p : SessionTurn) (seconds : Nat) : Nat := p.time + seconds * 1000

variable {m : SessionTurn}

theorem pause?_eq_some {seconds : Nat} (h : m.pause? = some seconds) :
    ∃ s c, m.event = .poll ∧ m.look? = some s ∧ m.before.resolver.expiring? s = some c ∧
      c.mode = .pause seconds := by
  obtain ⟨c, hc, hm⟩ := Option.bind_eq_some_iff.mp h
  obtain ⟨s, hs, hc⟩ := Option.bind_eq_some_iff.mp hc
  refine ⟨s, c, ?_, hs, hc, ?_⟩
  · unfold look? at hs
    split at hs
    · assumption
    · cases hs
  · cases hmode : c.mode with
    | pause n =>
      rw [hmode] at hm
      cases hm
      rfl
    | natural =>
      rw [hmode] at hm
      cases hm
    | jump =>
      rw [hmode] at hm
      cases hm

theorem pause?_of_look {s : Snapshot} (h : m.look? = some s) :
    m.pause?.isSome = true ↔ .pause ∈ (m.before.resolver.tick s).directives := by
  rw [Resolver.tick_pauses_iff, Option.isSome_iff_exists]
  constructor
  · rintro ⟨seconds, hp⟩
    obtain ⟨s', c, _, hs', hc, hm⟩ := pause?_eq_some hp
    cases h.symm.trans hs'
    exact ⟨c, seconds, hc, hm⟩
  · rintro ⟨c, seconds, hc, hm⟩
    refine ⟨seconds, ?_⟩
    rw [pause?, expired?, h, Option.bind_some, hc, Option.bind_some, hm]
    rfl

theorem pause?_of_not_look (h : m.look? = none) : m.pause? = none := by
  rw [pause?, expired?, h]
  rfl

/-- Only an active cue can be found over. -/
theorem pause?_of_idle (h : m.before.resolver.active = none) : m.pause? = none := by
  cases hp : m.pause? with
  | none => rfl
  | some seconds =>
    obtain ⟨s, c, _, _, hc, _⟩ := pause?_eq_some hp
    rw [(Resolver.activeCue?_some (Resolver.expiring?_activeCue? hc)).2] at h
    cases h

/-! ### The resolver's response -/

theorem response_poll (h : m.event = .poll) :
    m.response = m.look?.elim ⟨m.before.resolver, []⟩ m.before.resolver.tick := by
  unfold response
  rw [h]

theorem look?_of_ne_poll (h : m.event ≠ .poll) : m.look? = none := by
  unfold look?
  split
  · contradiction
  · rfl

theorem event_of_look {s : Snapshot} (h : m.look? = some s) : m.event = .poll := by
  by_contra hne
  rw [look?_of_ne_poll hne] at h
  cases h

/-- What a turn without a look at the player does to the wait, and that it activates nothing. -/
theorem response_of_not_look (h : m.look? = none) :
    (m.response.resolver.awaiting = true ↔
      m.before.resolver.awaiting = true ∧ pausing.closes m = false) ∧
    (m.before.resolver.active = none → m.response.resolver.active = none) := by
  have hclose : pausing.closes m = (m.resumes || m.abandons) := rfl
  unfold response
  cases he : m.event with
  | poll => simp [hclose, resumes, abandons, he, h]
  | textChanged notes => simp [hclose, resumes, abandons, he]
  | quiet generation =>
    cases m.saved? with
    | none => simp [hclose, resumes, abandons, he]
    | some notes =>
      refine ⟨?_, fun ha => Resolver.load_active ha _⟩
      simp [hclose, resumes, abandons, he, Resolver.load_awaiting]
  | resumeDue =>
    simp [hclose, resumes, abandons, he, Resolver.resumeDue_resolver]
  | player n =>
    by_cases hn : n = .stateChanged .ended
    · simp [hclose, resumes, abandons, he, hn, Resolver.endOfMedia, Resolver.reset,
        Resolver.clear, Resolver.leave_active]
    · simp [hclose, resumes, abandons, he, hn]
  | seek target =>
    simp [hclose, resumes, abandons, he, Resolver.userSeek, Resolver.moveTo,
      Resolver.leave_awaiting, Resolver.leave_active]
  | videoChanged =>
    simp [hclose, resumes, abandons, he, Resolver.reset, Resolver.clear, Resolver.leave_active]

/-- The resolver waits after a turn that pauses, and after one that lets a pause go on. -/
theorem response_awaiting (m : SessionTurn) : m.response.resolver.awaiting = true ↔
    m.pause?.isSome = true ∨
      m.before.resolver.awaiting = true ∧ pausing.closes m = false := by
  cases h : m.look? with
  | none =>
    rw [(response_of_not_look h).1, pause?_of_not_look h]
    simp
  | some s =>
    have hpoll := event_of_look h
    have hclose : pausing.closes m = m.before.resolver.endsWait (.tick s) := by
      simp [pausing, resumes, abandons, hpoll, h]
    rw [response_poll hpoll, h, pause?_of_look h, hclose]
    change (m.before.resolver.tick s).resolver.awaiting = true ↔ _
    rw [Resolver.tick_awaiting]
    constructor
    · rintro ⟨he, hp | hw⟩
      · exact .inl hp
      · exact .inr ⟨hw, he⟩
    · rintro (hp | ⟨hw, he⟩)
      · exact Resolver.tick_awaiting _ _ |>.mp (Resolver.tick_of_pauses hp).2.1
      · exact ⟨he, .inr hw⟩

theorem response_active_of_awaiting
    (hidle : m.before.resolver.awaiting = true → m.before.resolver.active = none)
    (hw : m.response.resolver.awaiting = true) : m.response.resolver.active = none := by
  cases h : m.look? with
  | none =>
    have hnot := response_of_not_look h
    exact hnot.2 (hidle (hnot.1.mp hw).1)
  | some s =>
    have hpoll := event_of_look h
    rw [response_poll hpoll, h] at hw ⊢
    change (m.before.resolver.tick s).resolver.awaiting = true at hw
    change (m.before.resolver.tick s).resolver.active = none
    obtain ⟨he, hp | hb⟩ := Resolver.tick_awaiting _ _ |>.mp hw
    · exact (Resolver.tick_of_pauses hp).1
    · exact Resolver.tick_active_of_awaiting hb (hidle hb) he

/-! ### What the player is told -/

/-- A turn tells the player to pause if it pauses, and to play if it resumes, and not otherwise. -/
theorem response_directives (m : SessionTurn) :
    (.pause ∈ m.response.directives ↔ m.pause?.isSome = true) ∧
      (.play ∈ m.response.directives ↔ m.resumes = true) := by
  have hlevels : ∀ {ds : List Directive}, LevelsOnly ds → m.look? = none → m.resumes = false →
      (.pause ∈ ds ↔ m.pause?.isSome = true) ∧ (.play ∈ ds ↔ m.resumes = true) := by
    intro ds hds hl hr
    refine ⟨iff_of_false hds.pause_notMem ?_, iff_of_false (fun hd => ?_) ?_⟩
    · simp [pause?_of_not_look hl]
    · cases hds _ hd
    · simp [hr]
  unfold response
  cases he : m.event with
  | poll =>
    have hr : m.resumes = false := by simp [resumes, he]
    cases hl : m.look? with
    | none => exact hlevels levelsOnly_nil hl hr
    | some s =>
      refine ⟨(pause?_of_look hl).symm, iff_of_false ?_ (by simp [hr])⟩
      exact Resolver.tick_play_notMem _ _
  | textChanged notes =>
    exact hlevels levelsOnly_nil (look?_of_ne_poll (by simp [he])) (by simp [resumes, he])
  | quiet generation =>
    refine hlevels ?_ (look?_of_ne_poll (by simp [he])) (by simp [resumes, he])
    cases m.saved? with
    | none => exact levelsOnly_nil
    | some notes => exact Resolver.load_levelsOnly _ _
  | resumeDue =>
    have hl : m.look? = none := look?_of_ne_poll (by simp [he])
    rw [pause?_of_not_look hl]
    simp only [resumes, he, Resolver.resumeDue]
    cases m.before.resolver.awaiting with
    | false => simp
    | true => simp
  | player n =>
    refine hlevels ?_ (look?_of_ne_poll (by simp [he])) (by simp [resumes, he])
    by_cases hn : n = .stateChanged .ended
    · simp only [if_pos hn]
      exact m.before.resolver.reset_levelsOnly
    · simp only [if_neg hn]
      exact levelsOnly_nil
  | seek target =>
    have hl : m.look? = none := look?_of_ne_poll (by simp [he])
    have hr : m.resumes = false := by simp [resumes, he]
    have hmove := (Resolver.leave_levelsOnly { m.before.resolver with flight := none }).append
      levelsOnly_nil
    obtain ⟨hpause, hplay⟩ := hlevels hmove hl hr
    refine ⟨?_, ?_⟩
    · rw [← hpause]
      simp [Resolver.userSeek, Resolver.moveTo]
    · rw [← hplay]
      simp [Resolver.userSeek, Resolver.moveTo]
  | videoChanged =>
    exact hlevels m.before.resolver.reset_levelsOnly (look?_of_ne_poll (by simp [he]))
      (by simp [resumes, he])

structure Told (m : SessionTurn) : Prop where
  log_eq : m.after.player.log = m.before.player.log ++ m.calls
  times : ∀ x ∈ m.calls, x.1 = m.time
  pauses : m.Sends .pause ↔ m.pause?.isSome = true
  plays : m.Sends .play ↔ m.resumes = true

end SessionTurn

namespace SessionWork

/-- As long as no call fails, the player's log tells what the turns of a session do. -/
theorem turn_told (now : Nat) (e : SessionEvent) (w : SessionWork) (h : w.1.player.failures = 0) :
    (turn now e w).Told ∧ (turn now e w).after.player.failures = 0 := by
  have hafter : (turn now e w).after = (turn now e w).outcome :=
    congrArg Prod.fst (handle_eq now e w)
  have hlook : (turn now e w).looked.log = w.1.player.log ∧ (turn now e w).looked.failures = 0 := by
    unfold SessionTurn.looked
    split
    · obtain ⟨s, q, hq, hlog, hfail⟩ := SimulatedPlayer.snapshot_ok now h
      change (w.1.player.snapshot now).2.log = _ ∧ (w.1.player.snapshot now).2.failures = 0
      rw [hq]
      exact ⟨hlog, hfail⟩
    · exact ⟨rfl, h⟩
  obtain ⟨hfail, cs, hlog, htimes, hpause, hplay⟩ :=
    SimulatedPlayer.foldl_follow_logs now hlook.2 (turn now e w).response.directives
  rw [hlook.1] at hlog
  have hplayer : (turn now e w).after.player.log = w.1.player.log ++ cs := by
    rw [hafter]
    exact hlog
  have hcalls : (turn now e w).calls = cs := by
    rw [SessionTurn.calls, hplayer]
    exact List.drop_left
  have hdirect := (turn now e w).response_directives
  refine ⟨⟨?_, ?_, ?_, ?_⟩, ?_⟩
  · rw [hcalls]
    exact hplayer
  · rw [hcalls]
    exact htimes
  · rw [SessionTurn.Sends, hcalls]
    exact hpause.trans hdirect.1
  · rw [SessionTurn.Sends, hcalls]
    exact hplay.trans hdirect.2
  · rw [hafter]
    exact hfail

end SessionWork

/-! ## What a running session keeps up -/

open SessionTurn (pausing pauseEnd)

/-- The log is told by the turns, the resolver waits exactly during a pause, and each resume so far
has come when its pause was over. -/
structure PausesTold (log : List (Nat × PlayerCall)) (o : SessionOwner) : Prop where
  failures : o.1.player.failures = 0
  log_eq : o.1.player.log = log ++ o.2.reverse.flatMap SessionTurn.calls
  told : ∀ m ∈ o.2, m.Told
  waiting : o.1.resolver.awaiting = (pausing.pending? o.2).isSome
  idle : o.1.resolver.awaiting = true → o.1.resolver.active = none
  fresh : Throughout (fun m earlier =>
    m.pause?.isSome = true → pausing.pending? earlier = none) o.2
  onTime : Throughout (pausing.OnTime (fun m => m.time) pauseEnd SessionTurn.resumes) o.2

theorem PausesTold.turn {log : List (Nat × PlayerCall)} {o : SessionOwner}
    (h : PausesTold log o) (now : Nat) (e : SessionEvent) (ts : SessionTimers)
    (hwaited : ∀ p n, pausing.pending? o.2 = some (p, n) → now ≤ pauseEnd p n)
    (hfired : e = .resumeDue → ∀ p n, pausing.pending? o.2 = some (p, n) → now = pauseEnd p n) :
    PausesTold log ((SessionWork.turn now e (o.1, ts)).outcome,
      SessionWork.turn now e (o.1, ts) :: o.2) := by
  obtain ⟨htold, hfail⟩ := SessionWork.turn_told now e (o.1, ts) h.failures
  obtain ⟨htime, hevent, hbefore, hafter⟩ := SessionWork.turn_records now e o.1 ts
  rw [← hafter]
  generalize SessionWork.turn now e (o.1, ts) = m at *
  have hresolver : m.after.resolver = m.response.resolver := by
    rw [hafter]
    rfl
  have hawait : m.before.resolver.awaiting = (pausing.pending? o.2).isSome := by
    rw [hbefore]
    exact h.waiting
  refine ⟨hfail, ?_, ?_, ?_, ?_, ⟨fun hp => ?_, h.fresh⟩, ⟨⟨fun hr => ?_, ?_⟩, h.onTime⟩⟩
  · change m.after.player.log = log ++ (m :: o.2).reverse.flatMap SessionTurn.calls
    rw [htold.log_eq, hbefore, h.log_eq]
    simp
  · exact List.forall_mem_cons.mpr ⟨htold, h.told⟩
  · rw [Bool.eq_iff_iff, Alarm.pending?_cons_isSome, hresolver, m.response_awaiting, hawait]
    rfl
  · intro hw
    rw [hresolver] at hw ⊢
    refine SessionTurn.response_active_of_awaiting ?_ hw
    rw [hbefore]
    exact h.idle
  · -- a cue that is over was active, so no pause was going on
    cases hq : pausing.pending? o.2 with
    | none => rfl
    | some q =>
      rw [hq] at hawait
      have hidle := h.idle (hbefore ▸ hawait)
      rw [← hbefore] at hidle
      rw [SessionTurn.pause?_of_idle hidle] at hp
      cases hp
  · simp only [SessionTurn.resumes, Bool.and_eq_true, decide_eq_true_eq] at hr
    obtain ⟨he, hw⟩ := hr
    rw [hawait, Option.isSome_iff_exists] at hw
    obtain ⟨⟨p, n⟩, hq⟩ := hw
    exact ⟨p, n, hq, htime.trans (hfired (hevent ▸ he) p n hq)⟩
  · rw [htime]
    exact hwaited

/-! ### The timers during a pause -/

namespace SessionTurn

variable {m : SessionTurn} {ts : SessionTimers}

theorem rearranged_of_pause? {seconds : Nat} (h : m.pause? = some seconds) :
    m.rearranged ts = ts.rearm .resume m.time (seconds * 1000) .resumeDue := by
  obtain ⟨_, _, he, _⟩ := pause?_eq_some h
  unfold rearranged
  rw [he, h]
  rfl

/-- A turn that does not pause only arms the end of the quiet period. -/
theorem rearranged_of_not_pause (h : m.pause? = none) :
    m.rearranged ts = ts ∨ (m.abandons = true ∧ m.rearranged ts = Timers.cancel ts .resume) ∨
      ∃ delay generation, m.rearranged ts = ts.rearm .quiet m.time delay (.quiet generation) := by
  unfold rearranged abandons
  cases he : m.event with
  | poll =>
    rw [h]
    exact .inl rfl
  | textChanged notes => exact .inr (.inr ⟨_, _, rfl⟩)
  | quiet generation => exact .inl rfl
  | resumeDue => exact .inl rfl
  | player n =>
    by_cases hn : n = .stateChanged .ended
    · exact .inr (.inl ⟨by simp [hn], by simp [hn]⟩)
    · exact .inl (by simp [hn])
  | seek target => exact .inl rfl
  | videoChanged => exact .inr (.inl ⟨rfl, rfl⟩)

theorem mem_rearranged (h : m.pause? = none) (ha : m.abandons = false)
    {t : Timer SessionTimer SessionEvent} (ht : t ∈ ts) (hkey : t.key = .resume) :
    t ∈ m.rearranged ts := by
  rcases rearranged_of_not_pause h with hr | ⟨hab, _⟩ | ⟨delay, generation, hr⟩
  · rw [hr]
    exact ht
  · rw [ha] at hab
    cases hab
  · rw [hr]
    exact SessionTimers.mem_rearm.mpr (.inl ⟨ht, by simp [hkey]⟩)

theorem mem_of_rearranged (h : m.pause? = none) {t : Timer SessionTimer SessionEvent}
    (ht : t ∈ m.rearranged ts) (hkey : t.key = .resume) : t ∈ ts := by
  rcases rearranged_of_not_pause h with hr | ⟨_, hr⟩ | ⟨delay, generation, hr⟩ <;> rw [hr] at ht
  · exact ht
  · exact (SessionTimers.mem_cancel.mp ht).1
  · rcases SessionTimers.mem_rearm.mp ht with ⟨ht, _⟩ | rfl
    · exact ht
    · cases hkey

end SessionTurn

/-- A turn that pauses is a poll with an active cue, and leaves that cue. -/
theorem SessionTurn.of_pauses {m : SessionTurn} {n : Nat} (hp : m.pause? = some n)
    (hidle : m.before.resolver.awaiting = true → m.before.resolver.active = none) :
    m.event = .poll ∧ m.before.resolver.active ≠ none ∧ m.outcome.resolver.active = none := by
  obtain ⟨s, c, he, _⟩ := pause?_eq_some hp
  refine ⟨he, fun ha => ?_, ?_⟩
  · rw [pause?_of_idle ha] at hp
    cases hp
  · exact response_active_of_awaiting hidle (m.response_awaiting.mpr (.inl (by simp [hp])))

/-- Of these two timers the end of a pause posts first. -/
def ResumeFirst (t u : Timer SessionTimer SessionEvent) : Prop := t.key = .poll → u.key ≠ .resume

theorem SessionTurn.resumeFirst_rearranged {m : SessionTurn} {ts : SessionTimers}
    (h : m.pause? = none) (hts : ts.Pairwise ResumeFirst) :
    (m.rearranged ts).Pairwise ResumeFirst := by
  rcases rearranged_of_not_pause h with hr | ⟨_, hr⟩ | ⟨delay, generation, hr⟩ <;> rw [hr]
  · exact hts
  · exact hts.sublist List.filter_sublist
  · refine List.pairwise_append.mpr
      ⟨hts.sublist List.filter_sublist, List.pairwise_singleton _ _, fun t _ u hu _ => ?_⟩
    rw [List.mem_singleton.mp hu]
    simp

namespace SessionLoop

structure PauseRest (log : List (Nat × PlayerCall)) (l : SessionLoop) : Prop where
  past : PausesTold log l.owner
  awaits : ∀ p n, pausing.pending? l.owner.2 = some (p, n) →
    l.Awaits .resume .resumeDue (pauseEnd p n)
  order : l.timers.Pairwise ResumeFirst ∨ l.owner.1.resolver.active = none

structure PauseWork (log : List (Nat × PlayerCall)) (l : SessionLoop) : Prop where
  past : PausesTold log l.owner
  awaits : ∀ p n, pausing.pending? l.owner.2 = some (p, n) →
    l.Awaits .resume .resumeDue (pauseEnd p n)
  /-- Once its event is in the inbox, the end of a pause is not timed again before that is
  handled. -/
  untimed : .resumeDue ∈ l.inbox → ∀ t ∈ l.timers, t.key ≠ .resume
  once : l.inbox.Pairwise fun d e => d = .poll → e ≠ .poll
  order : l.timers.Pairwise ResumeFirst ∨ (l.owner.1.resolver.active = none ∧ .poll ∉ l.inbox)
  posted : l.inbox.Pairwise (fun d e => d = .poll → e ≠ .resumeDue) ∨
    l.owner.1.resolver.active = none

variable {log : List (Nat × PlayerCall)} {sent : List (Nat × SessionMessage)} {l : SessionLoop}

theorem AtRest.poll_mem_fire (base : l.AtRest sent) (he : .poll ∈ l.fire.inbox) :
    ∃ t ∈ l.timers, t.key = .poll ∧ t.due l.lag = l.now := by
  rcases List.mem_append.mp he with he | he
  · exact absurd he (base.notMem_inbox rfl)
  · obtain ⟨u, hu, hue⟩ := List.mem_map.mp he
    obtain ⟨hu, hdue⟩ := base.steady.mem_firing.mp hu
    exact ⟨u, hu, (base.rightful u hu).event_poll_iff.mp hue, hdue⟩

/-- A ticker that fires is armed anew behind the other timers. -/
theorem AtRest.resumeFirst_fire (base : l.AtRest sent)
    (hlate : (l.timers.filter fun t => l.now < t.due l.lag).Pairwise ResumeFirst) :
    l.fire.timers.Pairwise ResumeFirst := by
  have hpoll : ∀ t ∈ (Timers.firing l.lag l.now l.timers).filterMap fun t => t.again l.lag l.now,
      t.key = .poll := by
    intro t ht
    obtain ⟨u, hu, hut⟩ := List.mem_filterMap.mp ht
    exact ((base.rightful u (base.steady.mem_firing.mp hu).1).again hut).2
  refine List.pairwise_append.mpr ⟨hlate, ?_, fun t _ u hu _ => by simp [hpoll u hu]⟩
  exact List.pairwise_of_forall_mem_list fun t _ u hu _ => by simp [hpoll u hu]

theorem PauseRest.fire (base : l.AtRest sent) (h : l.PauseRest log) : PauseWork log l.fire where
  past := h.past
  awaits p n hp := (h.awaits p n hp).fire base.steady
  untimed := by
    intro he t ht hkey
    rcases List.mem_append.mp he with he | he
    · exact base.notMem_inbox rfl he
    · obtain ⟨u, hu, hue⟩ := List.mem_map.mp he
      obtain ⟨hu, hdue⟩ := base.steady.mem_firing.mp hu
      rcases base.steady.mem_afterFiring.mp ht with ⟨ht, hlt⟩ | ⟨v, hv, _, hvt⟩
      · have hukey := (base.rightful u hu).event_resumeDue_iff.mp hue
        cases base.steady.eq_of_key ht hu (hkey.trans hukey.symm)
        omega
      · rw [((base.rightful v hv).again hvt).2] at hkey
        cases hkey
  once := by
    refine base.pairwise_inbox (fun d e hd h => ?_) ?_
    · rw [h] at hd
      cases hd
    · refine (List.pairwise_map.mp base.steady.distinct).imp_of_mem ?_
      intro t u ht hu hne htp hup
      rw [(base.rightful t ht).event_poll_iff] at htp
      rw [(base.rightful u hu).event_poll_iff] at hup
      exact hne (htp.trans hup.symm)
  order := by
    rcases h.order with horder | hactive
    · exact .inl (base.resumeFirst_fire (horder.sublist List.filter_sublist))
    · by_cases hp : ∃ t ∈ l.timers, t.key = .poll ∧ t.due l.lag = l.now
      · obtain ⟨t, ht, hkey, hdue⟩ := hp
        refine .inl (base.resumeFirst_fire ?_)
        refine List.pairwise_of_forall_mem_list fun u hu v _ hukey => ?_
        obtain ⟨hu, hlt⟩ := List.mem_filter.mp hu
        cases base.steady.eq_of_key ht hu (hkey.trans hukey.symm)
        have := of_decide_eq_true hlt
        omega
      · exact .inr ⟨hactive, fun he => hp (base.poll_mem_fire he)⟩
  posted := by
    rcases h.order with horder | hactive
    · refine .inl (base.pairwise_inbox (fun d e hd h => ?_) ?_)
      · rw [h] at hd
        cases hd
      · refine horder.imp_of_mem fun {t u} ht hu hfirst htp hur => ?_
        rw [(base.rightful t ht).event_poll_iff] at htp
        rw [(base.rightful u hu).event_resumeDue_iff] at hur
        exact hfirst htp hur
    · exact .inr hactive

/-- The end of a pause is still awaited after a turn that does not bring it. -/
theorem PauseWork.awaits_heed (base : l.AtWork sent) (h : l.PauseWork log) {e : SessionEvent}
    {es : List SessionEvent} (hes : l.inbox = e :: es) :
    let m := SessionWork.turn l.now e (l.owner.1, l.timers)
    ∀ p n, pausing.pending? (m :: l.owner.2) = some (p, n) →
      EventLoop.Awaits { l with
        owner := (m.outcome, m :: l.owner.2), timers := m.rearranged l.timers, inbox := es }
        .resume .resumeDue (pauseEnd p n) := by
  obtain ⟨htime, hevent, hbefore, -⟩ := SessionWork.turn_records l.now e l.owner.1 l.timers
  generalize SessionWork.turn l.now e (l.owner.1, l.timers) = m at *
  dsimp only
  intro p n hpend
  cases hp : m.pause? with
  | some seconds =>
    obtain ⟨rfl, rfl⟩ : m = p ∧ seconds = n := by
      simpa using (Alarm.pending?_opens hp).symm.trans hpend
    refine .inl ⟨⟨.resume, m.time + seconds * 1000, .resumeDue, none⟩, ?_, rfl, rfl, rfl, ?_⟩
    · change _ ∈ m.rearranged l.timers
      rw [SessionTurn.rearranged_of_pause? hp]
      exact SessionTimers.mem_rearm.mpr (.inr rfl)
    · simp [Timer.due, base.lag_eq, pauseEnd]
  | none =>
    cases hc : pausing.closes m with
    | true =>
      rw [Alarm.pending?_closes hp hc] at hpend
      cases hpend
    | false =>
      rw [Alarm.pending?_passes ⟨hp, hc⟩] at hpend
      obtain ⟨hres, hab⟩ := Bool.or_eq_false_iff.mp hc
      rcases h.awaits p n hpend with ⟨t, ht, hkey, hrest⟩ | ⟨he, hnow⟩
      · exact .inl ⟨t, SessionTurn.mem_rearranged hp hab ht hkey, hkey, hrest⟩
      · rw [hes] at he
        rcases List.mem_cons.mp he with he | he
        · -- this event would end the pause
          have hw := h.past.waiting
          rw [hpend, Option.isSome_some, ← hbefore] at hw
          rw [SessionTurn.resumes, hevent, ← he, hw] at hres
          cases hres
        · exact .inr ⟨he, hnow⟩

theorem PauseWork.heed (base : l.AtWork sent) (h : l.PauseWork log) {e : SessionEvent}
    {es : List SessionEvent} (hes : l.inbox = e :: es) :
    PauseWork log { l.heed SessionWork.recording e with inbox := es } := by
  rw [heed_eq]
  have hpast := h.past.turn l.now e l.timers
    (fun p n hp => (h.awaits p n hp).le base.steady) (fun he p n hp => by
      rcases h.awaits p n hp with ⟨t, ht, hkey, _⟩ | ⟨_, hnow⟩
      · exact absurd hkey (h.untimed (by simp [hes, he]) t ht)
      · exact hnow)
  have hawaits := h.awaits_heed base hes
  obtain ⟨htime, hevent, hbefore, -⟩ := SessionWork.turn_records l.now e l.owner.1 l.timers
  generalize SessionWork.turn l.now e (l.owner.1, l.timers) = m at *
  have hactive : e ≠ .poll → l.owner.1.resolver.active = none →
      m.outcome.resolver.active = none := by
    intro hne ha
    exact (SessionTurn.response_of_not_look (SessionTurn.look?_of_ne_poll (by rwa [hevent]))).2
      (by rwa [hbefore])
  have hpauses : ∀ {n}, m.pause? = some n → e = .poll ∧ l.owner.1.resolver.active ≠ none ∧
      m.outcome.resolver.active = none := by
    intro n hp
    rw [← hevent, ← hbefore]
    exact SessionTurn.of_pauses hp (by rw [hbefore]; exact h.past.idle)
  have honce := h.once
  have hposted := h.posted
  rw [hes, List.pairwise_cons] at honce hposted
  refine ⟨hpast, hawaits, ?_, honce.2, ?_, ?_⟩
  · intro he t ht hkey
    cases hp : m.pause? with
    | none =>
      refine h.untimed ?_ t (SessionTurn.mem_of_rearranged hp ht hkey) hkey
      rw [hes]
      exact List.mem_cons_of_mem e he
    | some seconds =>
      obtain ⟨hpoll, hne, _⟩ := hpauses hp
      rcases hposted with hposted | ha
      · exact hposted.1 _ he hpoll rfl
      · exact hne ha
  · cases hp : m.pause? with
    | some seconds =>
      obtain ⟨hpoll, _, ha⟩ := hpauses hp
      exact .inr ⟨ha, fun hmem => honce.1 _ hmem hpoll rfl⟩
    | none =>
      rcases h.order with horder | ⟨ha, hnot⟩
      · exact .inl (SessionTurn.resumeFirst_rearranged hp horder)
      · rw [hes, List.mem_cons, not_or] at hnot
        exact .inr ⟨hactive (fun h => hnot.1 h.symm) ha, hnot.2⟩
  · rcases hposted with hposted | ha
    · exact .inl hposted.2
    · by_cases hpoll : e = .poll
      · refine .inl (List.pairwise_of_forall_mem_list fun d hd f _ hdp => ?_)
        exact absurd hdp (honce.1 d hd hpoll)
      · exact .inr (hactive hpoll ha)

theorem PauseWork.rest (h : l.PauseWork log) : l.PauseRest log where
  past := h.past
  awaits := h.awaits
  order := h.order.imp id fun h => h.1

theorem PauseRest.wait (base : l.AtRest sent) (h : l.PauseRest log) (later : Nat) :
    PauseRest log { l with now := later } where
  past := h.past
  awaits p n hp := (h.awaits p n hp).wait (base.notMem_inbox rfl) later
  order := h.order

theorem PauseRest.send (h : l.PauseRest log) (e : SessionEvent) : PauseRest log (l.post e) where
  past := h.past
  awaits p n hp := (h.awaits p n hp).post e
  order := h.order

end SessionLoop

namespace PausesTold

variable {log : List (Nat × PlayerCall)} {o : SessionOwner}

theorem outage (h : PausesTold log o) (on : Bool) : PausesTold log (o.1.outage on, o.2) :=
  ⟨h.failures, h.log_eq, h.told, h.waiting, h.idle, h.fresh, h.onTime⟩

/-- Each resume ends a pause, when that is over. -/
theorem resume_on_time (h : PausesTold log o) {j : Nat} {m : SessionTurn}
    (hj : o.2.reverse[j]? = some m) (hres : m.resumes = true) :
    ∃ i p n, o.2.reverse[i]? = some p ∧ p.pause? = some n ∧ m.time = pauseEnd p n ∧
      pausing.Ends o.2.reverse i j := by
  have hends : ¬ pausing.Passes m := fun hpass => by
    have hclose : (m.resumes || m.abandons) = false := hpass.2
    rw [hres] at hclose
    cases hclose
  obtain ⟨i, p, n, _, _, hi, hp, htime, hpair, _⟩ :=
    Alarm.fired_on_time h.onTime hj hres hends
  exact ⟨i, p, n, hi, hp, htime, hpair⟩

/-- After each pause comes its resume, or the pass is forgotten until then, or it is not over. -/
theorem pause_ended (h : PausesTold log o) {i n : Nat} {p : SessionTurn}
    (hi : o.2.reverse[i]? = some p) (hp : p.pause? = some n) :
    (∃ j m, o.2.reverse[j]? = some m ∧ pausing.Ends o.2.reverse i j ∧
      (m.resumes = true ∧ m.time = pauseEnd p n ∨ m.abandons = true ∧ m.time ≤ pauseEnd p n)) ∨
    pausing.pending? o.2 = some (p, n) := by
  rcases Alarm.ended_on_time h.onTime hi hp with
    ⟨j, m, later, earlier, hj, hpair, hends, hfires, hle, heq, hpend⟩ | hpend
  · refine .inl ⟨j, m, hj, hpair, ?_⟩
    cases hres : m.resumes with
    | true => exact .inl ⟨rfl, hfires hres⟩
    | false =>
      refine .inr ⟨?_, hle⟩
      -- no pause begins during another one
      have hnone : m.pause? = none := by
        by_contra hne
        rw [h.fresh.split heq (Option.isSome_iff_ne_none.mpr hne)] at hpend
        cases hpend
      by_contra hab
      rw [Bool.not_eq_true] at hab
      exact hends ⟨hnone, by simp [pausing, hres, hab]⟩
  · exact .inr hpend

end PausesTold

theorem pauseLaw (log : List (Nat × PlayerCall)) :
    SessionLaw (fun sent l => l.AtRest sent ∧ l.PauseRest log)
      (fun sent l => l.AtWork sent ∧ l.PauseWork log)
      (fun t _ o => PausesTold log o ∧
        ∀ p n, pausing.pending? o.2 = some (p, n) → t ≤ pauseEnd p n) where
  regime sent := (SessionLoop.regime sent).refine
    (fun base h => h.fire base) (fun base h hes => h.heed base hes) (fun _ h _ => h.rest)
    (fun base h _ _ _ => h.wait base _)
  send m h := ⟨h.1.send m, h.2.send m.event⟩
  outage on h := ⟨h.1.outage on, h.2.past.outage on, h.2.awaits, h.2.order⟩
  close h := ⟨h.2.past, fun p n hp => (h.2.awaits p n hp).le h.1.steady⟩
  closed_outage on h := ⟨h.1.outage on, h.2⟩

namespace Chronicle

theorem pauseRest_opening (id : Int) (settings : Settings) {player : SimulatedPlayer}
    (store : Store) (h : player.failures = 0) :
    SessionLoop.PauseRest player.log (opening id settings player store) := by
  rw [opening_eq]
  have hresolver : ∀ r : Resolver, r = (store.load id).toOption.elim
      { tolerances := settings.tolerances } (Resolver.fresh settings.tolerances) →
      r.awaiting = false ∧ r.active = none := by
    rintro r rfl
    cases (store.load id).toOption with
    | none => exact ⟨rfl, rfl⟩
    | some cues =>
      rw [Option.elim_some, Resolver.fresh_eq]
      exact ⟨rfl, rfl⟩
  obtain ⟨hwait, hactive⟩ := hresolver _ rfl
  refine ⟨⟨h, by simp, by simp, hwait, fun _ => hactive, trivial, trivial⟩, ?_, .inr hactive⟩
  intro p n hp
  cases hp

/-- What the law says of a chronicle, whether the session runs or not. -/
theorem Obeys.pauses {c : Chronicle} {log : List (Nat × PlayerCall)}
    (h : c.Obeys (fun sent l => l.AtRest sent ∧ l.PauseRest log)
      (fun t _ o => PausesTold log o ∧
        ∀ p n, pausing.pending? o.2 = some (p, n) → t ≤ pauseEnd p n)) :
    PausesTold log c.loop.owner ∧ ∀ p n, pausing.pending? c.loop.owner.2 = some (p, n) →
      match c.closedAt with
      | some t => t ≤ pauseEnd p n
      | none => c.now ≤ pauseEnd p n ∧ (c.loop.quiet = true → c.now < pauseEnd p n) := by
  unfold Obeys at h
  cases hc : c.closedAt with
  | some t =>
    rw [hc] at h
    exact h.1
  | none =>
    rw [hc] at h
    obtain ⟨base, h⟩ := h
    exact ⟨h.past, fun p n hp =>
      ⟨(h.awaits p n hp).le base.steady, (h.awaits p n hp).lt_of_quiet⟩⟩

/-- Every time a session tells the player to play, it has told it to pause, as long before as the
pause of the cue that was over is, and has neither paused, resumed nor forgotten the pass since; so
different resumes belong to different pauses. A pause is followed by its resume when it is over, or
the pass is forgotten until then, or the session is shut down until then, or the pause is not over
yet. -/
theorem resumes_pair_with_pauses (id : Int) (settings : Settings) (player : SimulatedPlayer)
    (store : Store) (h : player.failures = 0) (acts : List SessionAct) :
    let c := (start id settings player store).run acts
    c.session = (Session.launch id settings player store 0).run acts ∧
    c.session.state.player.log = player.log ++ c.turns.flatMap SessionTurn.calls ∧
    (∀ m ∈ c.turns, (∀ x ∈ m.calls, x.1 = m.time) ∧
      (m.Sends .pause ↔ m.pause?.isSome = true) ∧ (m.Sends .play ↔ m.resumes = true)) ∧
    (∀ j m, c.turns[j]? = some m → m.Sends .play →
      ∃ i p n, c.turns[i]? = some p ∧ p.Sends .pause ∧ p.pause? = some n ∧
        m.time = p.time + n * 1000 ∧ pausing.Ends c.turns i j) ∧
    (∀ i j k, pausing.Ends c.turns i j → pausing.Ends c.turns i k → j = k) ∧
    (∀ i p n, c.turns[i]? = some p → p.pause? = some n →
      (∃ j m, c.turns[j]? = some m ∧ pausing.Ends c.turns i j ∧
        (m.Sends .play ∧ m.time = p.time + n * 1000 ∨
          m.abandons = true ∧ m.time ≤ p.time + n * 1000)) ∨
      match c.closedAt with
      | some t => t ≤ p.time + n * 1000
      | none => c.now ≤ p.time + n * 1000 ∧ (c.loop.quiet = true → c.now < p.time + n * 1000)) ∧
    (c.act .settle).loop.quiet = true := by
  intro c
  have hobeys : c.Obeys _ _ := obeys_run (pauseLaw player.log)
    ⟨SessionLoop.atRest_opening id settings player store, pauseRest_opening id settings store h⟩
    acts
  obtain ⟨hpast, hbound⟩ := hobeys.pauses
  have htold : ∀ m ∈ c.turns, m.Told := fun m hm => hpast.told m (List.mem_reverse.mp hm)
  refine ⟨?_, hpast.log_eq,
    fun m hm => ⟨(htold m hm).times, (htold m hm).pauses, (htold m hm).plays⟩,
    ?_, fun i j k hj hk => hj.right_unique hk, ?_, ?_⟩
  · rw [session_run, session_start]
  · intro j m hj hplay
    have hres := (htold m (List.mem_of_getElem? hj)).plays.mp hplay
    obtain ⟨i, p, n, hi, hp, htime, hpair⟩ := hpast.resume_on_time hj hres
    exact ⟨i, p, n, hi, (htold p (List.mem_of_getElem? hi)).pauses.mpr (by simp [hp]), hp, htime,
      hpair⟩
  · intro i p n hi hp
    rcases hpast.pause_ended hi hp with ⟨j, m, hj, hpair, hend⟩ | hpend
    · refine .inl ⟨j, m, hj, hpair, hend.imp_left fun h => ?_⟩
      exact ⟨(htold m (List.mem_of_getElem? hj)).plays.mpr h.1, h.2⟩
    · exact .inr (hbound p n hpend)
  · exact hobeys.settle_quiet (pauseLaw player.log)

def secondly : Settings := { pollPeriod := 1000 }

def oneCue : Chronicle :=
  start 1 secondly (.playingFrom 60 0) (Store.empty.put 1 [Resolver.oneToFour.rounded.place 0 0])

theorem oneCue_eq : oneCue =
    { loop :=
        { timers := [⟨.poll, 0, .poll, some 1000⟩]
          owner :=
            ({ id := 1, settings := secondly, player := .playingFrom 60 0
               store := Store.empty.put 1 [Resolver.oneToFour.rounded.place 0 0]
               resolver := { tolerances := {}, cues := [Resolver.oneToFour.rounded.place 0 0] } },
              []) } } := by
  rw [oneCue, start, opening_of_sorted secondly _ rfl (List.pairwise_singleton _ _)]
  rfl

/-- The player is paused at five seconds and resumed at eight. -/
theorem oneCue_resumes :
    let c := oneCue.run [.advance 8000]
    (SimulatedPlayer.playingFrom 60 0).failures = 0 ∧
      ∃ i j p m, c.turns[i]? = some p ∧ c.turns[j]? = some m ∧ p.Sends .pause ∧ p.time = 5000 ∧
        m.Sends .play ∧ m.time = 8000 ∧ pausing.Ends c.turns i j := by
  intro c
  have hplays :
      (c.turns[8]?.map fun m => (decide (m.Sends .play), m.time)) = some (true, 8000) := by
    simp only [c, oneCue_eq]
    decide +kernel
  have hpauses : (c.turns.all fun p => !decide (p.Sends .pause) || p.time = 5000) = true := by
    simp only [c, oneCue_eq]
    decide +kernel
  obtain ⟨m, hm, hval⟩ := Option.map_eq_some_iff.mp hplays
  obtain ⟨hplay, htime⟩ := Prod.mk.inj hval
  obtain ⟨_, _, _, hpair, _⟩ := resumes_pair_with_pauses 1 secondly (.playingFrom 60 0)
    (Store.empty.put 1 [Resolver.oneToFour.rounded.place 0 0]) rfl [.advance 8000]
  obtain ⟨i, p, n, hi, hpause, _, _, hends⟩ := hpair 8 m hm (of_decide_eq_true hplay)
  have hp := List.all_eq_true.mp hpauses p (List.mem_of_getElem? hi)
  refine ⟨rfl, i, 8, p, m, hi, hm, hpause, by simpa [hpause] using hp, of_decide_eq_true hplay,
    htime, hends⟩

end Chronicle

end PlaybackCues
