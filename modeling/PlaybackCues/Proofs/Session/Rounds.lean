import PlaybackCues.Proofs.Session.Runs

set_option autoImplicit false

/-!
# The rounds of a session

A session has at most one timer of each kind: the ticker of the polls, the end of the quiet period
and the end of a pause. The ticker is never due twice at one instant, and what the two others lead
to arms nothing, so two rounds leave nothing to do. Messages are handled in the order in which they
were sent, each at the time at which it was.
-/
namespace PlaybackCues

inductive Rightful : Timer SessionTimer SessionEvent → Prop
  | poll (deadline period : Nat) : 0 < period → Rightful ⟨.poll, deadline, .poll, some period⟩
  | quiet (deadline generation : Nat) : Rightful ⟨.quiet, deadline, .quiet generation, none⟩
  | resume (deadline : Nat) : Rightful ⟨.resume, deadline, .resumeDue, none⟩

namespace Rightful

variable {t u : Timer SessionTimer SessionEvent}

theorem message? (h : Rightful t) : t.event.message? = none := by
  cases h <;> rfl

theorem event_poll_iff (h : Rightful t) : t.event = .poll ↔ t.key = .poll := by
  cases h <;> simp

theorem event_resumeDue_iff (h : Rightful t) : t.event = .resumeDue ↔ t.key = .resume := by
  cases h <;> simp

theorem key_of_quiet (h : Rightful t) {generation : Nat} (he : t.event = .quiet generation) :
    t.key = .quiet := by
  cases h with
  | quiet => rfl
  | poll => cases he
  | resume => cases he

theorem again {lag now : Nat} (h : Rightful u) (ht : u.again lag now = some t) :
    Rightful t ∧ t.key = .poll := by
  cases h with
  | poll deadline period hp =>
    cases ht
    exact ⟨.poll _ period hp, rfl⟩
  | quiet => cases ht
  | resume => cases ht

end Rightful

/-! ## The timers after a turn -/

inductive Rearranged (now : Nat) (ts : SessionTimers) : SessionTimers → Prop
  | kept : Rearranged now ts ts
  | cancelled : Rearranged now ts (Timers.cancel ts .resume)
  | quiet (delay generation : Nat) :
      Rearranged now ts (ts.rearm .quiet now delay (.quiet generation))
  | resume (delay : Nat) : Rearranged now ts (ts.rearm .resume now delay .resumeDue)

theorem SessionTurn.rearranged_cases (m : SessionTurn) (ts : SessionTimers) :
    Rearranged m.time ts (m.rearranged ts) := by
  unfold SessionTurn.rearranged
  split
  · cases m.pause? with
    | none => exact .kept
    | some seconds => exact .resume (seconds * 1000)
  · exact .quiet _ _
  · split
    · exact .cancelled
    · exact .kept
  · exact .cancelled
  · exact .kept
  · exact .kept
  · exact .kept

namespace SessionTimers

variable {ts : SessionTimers} {t : Timer SessionTimer SessionEvent} {key : SessionTimer}
  {now delay : Nat} {e : SessionEvent}

theorem mem_rearm : t ∈ ts.rearm key now delay e ↔
    (t ∈ ts ∧ t.key ≠ key) ∨ t = ⟨key, now + delay, e, none⟩ := by
  simp [rearm, Timers.arm, Timers.cancel]

theorem mem_cancel : t ∈ Timers.cancel ts key ↔ t ∈ ts ∧ t.key ≠ key := by
  simp [Timers.cancel]

theorem steady_rearm {lag : Nat} (h : Timers.Steady lag now ts) :
    Timers.Steady lag now (ts.rearm key now delay e) := by
  refine (h.cancel key).arm (fun u hu => (mem_cancel.mp hu).2) ?_ (by simp)
  simp only [Timer.due]
  omega

end SessionTimers

namespace Rearranged

variable {now : Nat} {ts ts' : SessionTimers}

theorem steady {lag : Nat} (h : Rearranged now ts ts') (hs : Timers.Steady lag now ts) :
    Timers.Steady lag now ts' := by
  cases h with
  | kept => exact hs
  | cancelled => exact hs.cancel .resume
  | quiet => exact SessionTimers.steady_rearm hs
  | resume => exact SessionTimers.steady_rearm hs

/-- A timer of a turn is one that was there, or one that is not a ticker. -/
theorem mem (h : Rearranged now ts ts') {t : Timer SessionTimer SessionEvent} (ht : t ∈ ts') :
    t ∈ ts ∨ (Rightful t ∧ t.key ≠ .poll) := by
  cases h with
  | kept => exact .inl ht
  | cancelled => exact .inl (SessionTimers.mem_cancel.mp ht).1
  | quiet delay generation =>
    rcases SessionTimers.mem_rearm.mp ht with ⟨ht, _⟩ | rfl
    · exact .inl ht
    · exact .inr ⟨.quiet _ _, by simp⟩
  | resume delay =>
    rcases SessionTimers.mem_rearm.mp ht with ⟨ht, _⟩ | rfl
    · exact .inl ht
    · exact .inr ⟨.resume _, by simp⟩

end Rearranged

/-! ## Rounds -/

namespace SessionLoop

def heard (l : SessionLoop) : List (Nat × SessionMessage) :=
  (l.owner.2.reverse.filterMap fun m => m.event.message?.map fun e => (m.time, e)) ++
    (l.inbox.filterMap fun e => e.message?).map fun e => (l.now, e)

structure AtRest (sent : List (Nat × SessionMessage)) (l : SessionLoop) : Prop where
  lag_eq : l.lag = 0
  steady : Timers.Steady l.lag l.now l.timers
  rightful : ∀ t ∈ l.timers, Rightful t
  outside : ∀ e ∈ l.inbox, e.message?.isSome = true
  heard_eq : l.heard = sent

structure AtWork (sent : List (Nat × SessionMessage)) (l : SessionLoop) : Prop where
  lag_eq : l.lag = 0
  steady : Timers.Steady l.lag l.now l.timers
  rightful : ∀ t ∈ l.timers, Rightful t
  polled : ∀ t ∈ l.timers, t.key = .poll → l.now < t.due l.lag
  heard_eq : l.heard = sent

variable {sent : List (Nat × SessionMessage)} {l : SessionLoop}

theorem AtRest.notMem_inbox (h : l.AtRest sent) {e : SessionEvent} (he : e.message? = none) :
    e ∉ l.inbox := by
  intro hmem
  have hout := h.outside e hmem
  rw [he] at hout
  cases hout

/-- The events that fire come in the order of arming, after the messages in the inbox. -/
theorem AtRest.pairwise_inbox (h : l.AtRest sent) {R : SessionEvent → SessionEvent → Prop}
    (hR : ∀ d e, d.message?.isSome = true → R d e)
    (hts : l.timers.Pairwise fun t u => R t.event u.event) : l.fire.inbox.Pairwise R := by
  refine List.pairwise_append.mpr ⟨?_, ?_, fun d hd e _ => hR d e (h.outside d hd)⟩
  · exact List.pairwise_of_forall_mem_list fun d hd e _ => hR d e (h.outside d hd)
  · rw [List.pairwise_map, Timers.firing_eq_filter h.steady.punctual]
    exact hts.sublist List.filter_sublist

/-- Whatever is armed after firing is not due yet. -/
theorem late_of_fire (hs : Timers.Steady l.lag l.now l.timers)
    {t : Timer SessionTimer SessionEvent} (ht : t ∈ l.fire.timers) : l.now < t.due l.lag := by
  rcases hs.mem_afterFiring.mp ht with ⟨_, hlt⟩ | ⟨u, hu, _, hut⟩
  · exact hlt
  · exact hs.late_of_again hu hut

theorem AtRest.fire (h : l.AtRest sent) : AtWork sent l.fire where
  lag_eq := h.lag_eq
  steady := h.steady.afterFiring
  rightful := by
    intro t ht
    rcases h.steady.mem_afterFiring.mp ht with ⟨ht, _⟩ | ⟨u, hu, _, hut⟩
    · exact h.rightful t ht
    · exact ((h.rightful u hu).again hut).1
  polled := fun t ht _ => late_of_fire h.steady ht
  heard_eq := by
    have hfired : ((Timers.firing l.lag l.now l.timers).map fun t => t.event).filterMap
        (fun e => e.message?) = [] := by
      rw [List.filterMap_eq_nil_iff]
      intro e he
      obtain ⟨t, ht, rfl⟩ := List.mem_map.mp he
      exact (h.rightful t (h.steady.mem_firing.mp ht).1).message?
    rw [← h.heard_eq]
    change _ ++ ((l.inbox ++ _).filterMap _).map _ = _
    rw [List.filterMap_append, hfired, List.append_nil]
    rfl

/-- The loop after its owner has handled an event, with the outcome of the turn. -/
theorem heed_eq (l : SessionLoop) (e : SessionEvent) :
    let m := SessionWork.turn l.now e (l.owner.1, l.timers)
    l.heed SessionWork.recording e =
      { l with owner := (m.outcome, m :: l.owner.2), timers := m.rearranged l.timers } := by
  change ({ l with
    owner := ((SessionWork.handle l.now e (l.owner.1, l.timers)).1, _)
    timers := (SessionWork.handle l.now e (l.owner.1, l.timers)).2 } : SessionLoop) = _
  rw [SessionWork.handle_eq]
  rfl

theorem AtWork.heed (h : l.AtWork sent) {e : SessionEvent} {es : List SessionEvent}
    (hes : l.inbox = e :: es) :
    AtWork sent { l.heed SessionWork.recording e with inbox := es } := by
  rw [heed_eq]
  have hts := (SessionWork.turn l.now e (l.owner.1, l.timers)).rearranged_cases l.timers
  refine ⟨h.lag_eq, hts.steady h.steady, ?_, ?_, ?_⟩
  · intro t ht
    rcases hts.mem ht with ht | ⟨ht, _⟩
    · exact h.rightful t ht
    · exact ht
  · intro t ht hkey
    rcases hts.mem ht with ht | ⟨_, hne⟩
    · exact h.polled t ht hkey
    · exact absurd hkey hne
  · rw [← h.heard_eq]
    unfold heard
    rw [hes]
    simp only [List.reverse_cons, List.filterMap_append, List.append_assoc]
    congr 1
    cases he : e.message? with
    | none => simp [SessionWork.turn, Handler.turn, he]
    | some m => simp [SessionWork.turn, Handler.turn, he]

theorem AtWork.rest (h : l.AtWork sent) (hes : l.inbox = []) : l.AtRest sent where
  lag_eq := h.lag_eq
  steady := h.steady
  rightful := h.rightful
  outside := by simp [hes]
  heard_eq := h.heard_eq

theorem AtRest.wait (h : l.AtRest sent) (hes : l.inbox = []) {later : Nat}
    (hdue : ∀ t ∈ l.timers, later ≤ t.due l.lag) : AtRest sent { l with now := later } where
  lag_eq := h.lag_eq
  steady := h.steady.wait hdue
  rightful := h.rightful
  outside := h.outside
  heard_eq := by
    rw [← h.heard_eq]
    simp [heard, hes]

/-! ## Two rounds -/

/-- Nothing is left but what arms no timer. -/
def Calm (l : SessionLoop) : Prop :=
  (∀ t ∈ l.timers, l.now < t.due l.lag) ∧
    ∀ e ∈ l.inbox, e = .resumeDue ∨ ∃ generation, e = .quiet generation

theorem Calm.heed (h : l.Calm) {e : SessionEvent} {es : List SessionEvent}
    (hes : l.inbox = e :: es) : Calm { l.heed SessionWork.recording e with inbox := es } := by
  rw [heed_eq]
  obtain ⟨hlate, hevents⟩ := h
  rw [hes] at hevents
  obtain ⟨he, hevents⟩ := List.forall_mem_cons.mp hevents
  refine ⟨?_, hevents⟩
  rcases he with rfl | ⟨generation, rfl⟩ <;> exact hlate

theorem AtRest.quiet (h : l.AtRest sent) :
    ((l.round SessionWork.recording).round SessionWork.recording).quiet = true := by
  -- after a round the ticker is not due any more, so what fires next is calm
  have hwork : AtWork sent (l.round SessionWork.recording) :=
    EventLoop.drain_keeps (fun h hes => h.heed hes) h.fire
  have hinbox : (l.round SessionWork.recording).inbox = [] := rfl
  generalize l.round SessionWork.recording = k at hwork hinbox
  have hcalm : Calm k.fire := by
    refine ⟨fun t ht => late_of_fire hwork.steady ht, fun e he => ?_⟩
    rw [EventLoop.fire, hinbox, List.nil_append] at he
    obtain ⟨t, ht, rfl⟩ := List.mem_map.mp he
    obtain ⟨ht, hdue⟩ := hwork.steady.mem_firing.mp ht
    cases hwork.rightful t ht with
    | poll deadline period hp =>
      have := hwork.polled _ ht rfl
      omega
    | quiet deadline generation => exact .inr ⟨generation, rfl⟩
    | resume deadline => exact .inl rfl
  have hdone : Calm (k.round SessionWork.recording) :=
    EventLoop.drain_keeps (fun h hes => h.heed hes) hcalm
  rw [EventLoop.quiet_iff]
  exact ⟨rfl, hdone.1⟩

theorem regime (sent : List (Nat × SessionMessage)) :
    EventLoop.Regime SessionWork.recording (AtRest sent) (AtWork sent) where
  fire h := h.fire
  heed h hes := h.heed hes
  drained h hes := h.rest hes
  wait h hes _ hdue := h.wait hes hdue
  quiet h := h.quiet

theorem AtRest.send (h : l.AtRest sent) (m : SessionMessage) :
    AtRest (sent ++ [(l.now, m)]) (l.post m.event) where
  lag_eq := h.lag_eq
  steady := h.steady
  rightful := h.rightful
  outside := by
    intro e he
    rcases List.mem_append.mp he with he | he
    · exact h.outside e he
    · rw [List.mem_singleton.mp he, m.message?_event]
      rfl
  heard_eq := by
    rw [← h.heard_eq]
    simp [heard, EventLoop.post, m.message?_event]

theorem AtRest.outage (h : l.AtRest sent) (on : Bool) :
    AtRest sent { l with owner := (l.owner.1.outage on, l.owner.2) } :=
  ⟨h.lag_eq, h.steady, h.rightful, h.outside, h.heard_eq⟩

theorem atRest_opening (id : Int) (settings : Settings) (player : SimulatedPlayer)
    (store : Store) : AtRest [] (Chronicle.opening id settings player store) := by
  rw [Chronicle.opening_eq]
  have hpolls : Timers.Steady 0 0 (Session.polls settings) ∧
      ∀ t ∈ Session.polls settings, Rightful t := by
    unfold Session.polls
    split
    · exact ⟨⟨List.nodup_nil, by simp, by simp⟩, by simp⟩
    · rename_i hp
      refine ⟨⟨List.nodup_singleton _, by simp, by simpa using hp⟩, ?_⟩
      intro t ht
      rw [List.mem_singleton.mp ht]
      exact .poll 0 _ (Nat.pos_of_ne_zero hp)
  exact ⟨rfl, hpolls.1, hpolls.2, by simp, rfl⟩

end SessionLoop

/-! ## Messages -/

namespace Chronicle

def handled (c : Chronicle) : List (Nat × SessionMessage) :=
  c.turns.filterMap fun m => m.event.message?.map fun e => (m.time, e)

theorem roundLaw : SessionLaw SessionLoop.AtRest SessionLoop.AtWork (fun _ sent o =>
    (o.2.reverse.filterMap fun m => m.event.message?.map fun e => (m.time, e)) <+: sent) where
  regime := SessionLoop.regime
  send m h := h.send m
  outage on h := h.outage on
  close h := h.heard_eq ▸ List.prefix_append _ _
  closed_outage _ h := h

/-- Messages are handled in the order in which they were sent, at the time at which they were; a
session that runs handles all of them. -/
theorem handled_sent (id : Int) (settings : Settings) (player : SimulatedPlayer) (store : Store)
    (acts : List SessionAct) :
    let c := (start id settings player store).run acts
    c.handled <+: c.sent ∧ (c.closedAt = none → (c.act .settle).handled = c.sent) := by
  intro c
  have hobeys : c.Obeys _ _ :=
    obeys_run roundLaw (SessionLoop.atRest_opening id settings player store) acts
  refine ⟨?_, fun hc => ?_⟩
  · unfold Obeys at hobeys
    cases hc : c.closedAt with
    | some t =>
      rw [hc] at hobeys
      exact hobeys.1
    | none =>
      rw [hc] at hobeys
      exact hobeys.heard_eq ▸ List.prefix_append _ _
  · have hrun := hobeys.act roundLaw .settle
    have hquiet := hobeys.settle_quiet roundLaw
    have hclosed : (c.act .settle).closedAt = none := hc
    have hsent : (c.act .settle).sent = c.sent := rfl
    unfold Obeys at hrun
    rw [hclosed, hsent] at hrun
    rw [← hrun.heard_eq, SessionLoop.heard, (EventLoop.quiet_iff.mp hquiet).1]
    simp [handled, turns]

end Chronicle

end PlaybackCues
