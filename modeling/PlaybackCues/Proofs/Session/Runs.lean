import PlaybackCues.Proofs.Clock.Regimes
import PlaybackCues.Proofs.Session.Turns

set_option autoImplicit false

/-!
# Runs of a session

A run is what is done to a session from outside: messages, movements of the clock, outages of the
store and the end of it. A chronicle is a session that records its turns and the messages sent to
it; without the records it is the session itself. What a regime keeps up while the session runs
holds at every instant of a run.
-/
namespace PlaybackCues

inductive SessionMessage where
  | edit (notes : List Char)
  | notify (n : Notification)
  | seek (target : Seconds)
  | videoChanged
  deriving DecidableEq

def SessionMessage.event : SessionMessage → SessionEvent
  | .edit notes => .textChanged notes
  | .notify n => .player n
  | .seek target => .seek target
  | .videoChanged => .videoChanged

def SessionEvent.message? : SessionEvent → Option SessionMessage
  | .textChanged notes => some (.edit notes)
  | .player n => some (.notify n)
  | .seek target => some (.seek target)
  | .videoChanged => some .videoChanged
  | .poll | .quiet _ | .resumeDue => none

theorem SessionMessage.message?_event (m : SessionMessage) : m.event.message? = some m := by
  cases m <;> rfl

inductive SessionAct where
  | send (m : SessionMessage)
  /-- What can run at this instant does. -/
  | settle
  /-- The clock moves and stops at every deadline on the way. -/
  | advance (ms : Nat)
  /-- The clock moves, but what is due at the new time has yet to run. -/
  | approach (ms : Nat)
  | outage (on : Bool)
  | shutdown
  deriving DecidableEq

def SessionState.outage (on : Bool) (st : SessionState) : SessionState :=
  { st with store := { st.store with offline := on } }

namespace Session

def act (s : Session) : SessionAct → Session
  | .send m =>
    match s.send m.event with
    | .ok s => s
    | .error _ => s
  | .settle => s.settle
  | .advance ms => s.advance ms
  | .approach ms => s.approach ms
  | .outage on => s.modify (.outage on)
  | .shutdown => s.shutdown

def run (s : Session) (acts : List SessionAct) : Session := acts.foldl act s

end Session

/-! ## Chronicles -/

/-- The state of a session and its turns, the newest first. -/
abbrev SessionOwner := SessionState × List SessionTurn

abbrev SessionLoop := EventLoop SessionTimer SessionEvent SessionOwner

abbrev SessionWork.recording : Handler SessionTimer SessionEvent SessionOwner :=
  Handler.recording SessionWork.handle

theorem SessionWork.recording_extends : SessionWork.recording.Extends SessionWork.handle :=
  Handler.recording_extends _

structure Chronicle where
  loop : SessionLoop
  /-- The messages with the time at which each was sent. -/
  sent : List (Nat × SessionMessage) := []
  /-- When the session was shut down. -/
  closedAt : Option Nat := none

namespace Chronicle

def opening (id : Int) (settings : Settings) (player : SimulatedPlayer) (store : Store) :
    SessionLoop :=
  let l := Session.opening id settings player store 0
  { timers := l.timers, owner := (l.owner, []) }

def start (id : Int) (settings : Settings) (player : SimulatedPlayer) (store : Store) : Chronicle :=
  { loop := opening id settings player store }

def act (c : Chronicle) : SessionAct → Chronicle
  | .send m =>
    if c.closedAt.isNone then
      { c with loop := c.loop.post m.event, sent := c.sent ++ [(c.loop.now, m)] }
    else c
  | .settle => { c with loop := c.loop.settle SessionWork.recording }
  | .advance ms => { c with loop := c.loop.advance SessionWork.recording ms }
  | .approach ms => { c with loop := c.loop.approach SessionWork.recording ms }
  | .outage on =>
    { c with loop := { c.loop with owner := (c.loop.owner.1.outage on, c.loop.owner.2) } }
  | .shutdown =>
    { c with
      loop := { c.loop with timers := [], inbox := [] }
      closedAt := some (c.closedAt.getD c.loop.now) }

def run (c : Chronicle) (acts : List SessionAct) : Chronicle := acts.foldl act c

def session (c : Chronicle) : Session := { loop := c.loop.bare, running := c.closedAt.isNone }

def now (c : Chronicle) : Nat := c.loop.now

def turns (c : Chronicle) : List SessionTurn := c.loop.owner.2.reverse

/-- A session sends nothing before it starts to poll. -/
theorem opening_eq (id : Int) (settings : Settings) (player : SimulatedPlayer) (store : Store) :
    opening id settings player store =
      { timers := Session.polls settings
        owner :=
          ({ id, settings, player, store
             resolver := (store.load id).toOption.elim { tolerances := settings.tolerances }
               (Resolver.fresh settings.tolerances) }, []) } := by
  unfold opening Session.opening Session.initialLoad
  cases h : store.load id with
  | error e => simp [h, Except.toOption]
  | ok cues =>
    have hload : ({ tolerances := settings.tolerances } : Resolver).load cues = _ :=
      Resolver.load_kept rfl
    simp only [h]
    rw [SessionWork.apply_eq, hload]
    simp [Except.toOption, Resolver.fresh, hload]

theorem opening_of_sorted {id : Int} (settings : Settings) (player : SimulatedPlayer)
    {store : Store} (honline : store.offline = false)
    (hsorted : (store.written id).Pairwise fun c d => c.index ≤ d.index) :
    opening id settings player store =
      { timers := Session.polls settings
        owner :=
          ({ id, settings, player, store
             resolver := { tolerances := settings.tolerances, cues := store.written id } },
            []) } := by
  have hload : store.load id = .ok (store.written id) := by
    simp [Store.load, Store.list, Store.listing, honline, Except.map,
      Resolver.byIndex_of_sorted hsorted]
  rw [opening_eq, hload]
  simp [Except.toOption, Resolver.fresh_eq, Resolver.byIndex_of_sorted hsorted]

theorem session_start (id : Int) (settings : Settings) (player : SimulatedPlayer) (store : Store) :
    (start id settings player store).session = Session.launch id settings player store 0 :=
  rfl

theorem session_act (c : Chronicle) (a : SessionAct) : (c.act a).session = c.session.act a := by
  cases a with
  | send m =>
    simp only [act, Session.act, Session.send]
    cases h : c.closedAt with
    | none => simp [session, h, EventLoop.bare, EventLoop.post]
    | some t => simp [session, h]
  | settle =>
    simp [act, Session.act, Session.settle, session,
      EventLoop.bare_settle SessionWork.recording_extends]
  | advance ms =>
    simp [act, Session.act, Session.advance, session,
      EventLoop.bare_advance SessionWork.recording_extends]
  | approach ms =>
    simp [act, Session.act, Session.approach, session,
      EventLoop.bare_approach SessionWork.recording_extends]
  | outage on => rfl
  | shutdown => rfl

/-- A chronicle only adds records to a session. -/
theorem session_run (c : Chronicle) (acts : List SessionAct) :
    (c.run acts).session = c.session.run acts := by
  induction acts generalizing c with
  | nil => rfl
  | cons a acts ih =>
    change ((c.act a).run acts).session = (c.session.act a).run acts
    rw [ih, session_act]

end Chronicle

/-! ## What holds at every instant of a run -/

/-- What is kept up while a session runs, depending on what was sent to it, and what is kept of the
session once it is shut down. -/
structure SessionLaw (Rest Busy : List (Nat × SessionMessage) → SessionLoop → Prop)
    (After : Nat → List (Nat × SessionMessage) → SessionOwner → Prop) : Prop where
  regime : ∀ sent, EventLoop.Regime SessionWork.recording (Rest sent) (Busy sent)
  send : ∀ {sent l} (m : SessionMessage), Rest sent l →
    Rest (sent ++ [(l.now, m)]) (l.post m.event)
  outage : ∀ {sent l} (on : Bool), Rest sent l →
    Rest sent { l with owner := (l.owner.1.outage on, l.owner.2) }
  close : ∀ {sent l}, Rest sent l → After l.now sent l.owner
  closed_outage : ∀ {t sent o} (on : Bool), After t sent o → After t sent (o.1.outage on, o.2)

namespace Chronicle

def Obeys (Rest : List (Nat × SessionMessage) → SessionLoop → Prop)
    (After : Nat → List (Nat × SessionMessage) → SessionOwner → Prop) (c : Chronicle) : Prop :=
  match c.closedAt with
  | none => Rest c.sent c.loop
  | some t => After t c.sent c.loop.owner ∧ c.loop.timers = [] ∧ c.loop.inbox = []

/-- Nothing happens in a session that is shut down. -/
theorem still (o : SessionOwner) : EventLoop.Regime SessionWork.recording
    (fun l => l.owner = o ∧ l.timers = [] ∧ l.inbox = [])
    (fun l => l.owner = o ∧ l.timers = [] ∧ l.inbox = []) where
  fire := by
    rintro l ⟨ho, ht, hi⟩
    refine ⟨ho, ?_, ?_⟩
    · simp [EventLoop.fire, ht, Timers.afterFiring, Timers.firing, Timers.inOrder]
    · simp [EventLoop.fire, ht, hi, Timers.firing, Timers.inOrder]
  heed := by
    rintro l e es ⟨_, _, hi⟩ h
    rw [hi] at h
    cases h
  drained h _ := h
  wait h _ _ _ := h
  quiet := by
    rintro l ⟨_, ht, hi⟩
    rw [EventLoop.quiet_iff]
    simp [EventLoop.round, EventLoop.fire, EventLoop.drain, ht, hi, Timers.afterFiring,
      Timers.firing, Timers.inOrder]

variable {Rest Busy : List (Nat × SessionMessage) → SessionLoop → Prop}
  {After : Nat → List (Nat × SessionMessage) → SessionOwner → Prop} {c : Chronicle}

theorem Obeys.act (law : SessionLaw Rest Busy After) (h : c.Obeys Rest After) (a : SessionAct) :
    (c.act a).Obeys Rest After := by
  obtain ⟨loop, sent, closedAt⟩ := c
  cases closedAt with
  | none =>
    cases a with
    | send m => exact law.send m h
    | settle => exact ((law.regime sent).settle h).1
    | advance ms => exact ((law.regime sent).advance h ms).1
    | approach ms => exact (law.regime sent).approach h ms
    | outage on => exact law.outage on h
    | shutdown => exact ⟨law.close h, rfl, rfl⟩
  | some t =>
    obtain ⟨hafter, hrest⟩ := h
    have hstill : loop.owner = loop.owner ∧ loop.timers = [] ∧ loop.inbox = [] := ⟨rfl, hrest⟩
    cases a with
    | send m => exact ⟨hafter, hrest⟩
    | settle =>
      obtain ⟨ho, hrest⟩ := ((still loop.owner).settle hstill).1
      exact ⟨ho ▸ hafter, hrest⟩
    | advance ms =>
      obtain ⟨ho, hrest⟩ := ((still loop.owner).advance hstill ms).1
      exact ⟨ho ▸ hafter, hrest⟩
    | approach ms =>
      obtain ⟨ho, hrest⟩ := (still loop.owner).approach hstill ms
      exact ⟨ho ▸ hafter, hrest⟩
    | outage on => exact ⟨law.closed_outage on hafter, hrest⟩
    | shutdown => exact ⟨hafter, rfl, rfl⟩

theorem Obeys.settle_quiet (law : SessionLaw Rest Busy After) (h : c.Obeys Rest After) :
    (c.act .settle).loop.quiet = true := by
  obtain ⟨loop, sent, closedAt⟩ := c
  cases closedAt with
  | none => exact ((law.regime sent).settle h).2
  | some t => exact ((still loop.owner).settle ⟨rfl, h.2⟩).2

theorem Obeys.run (law : SessionLaw Rest Busy After) (h : c.Obeys Rest After)
    (acts : List SessionAct) : (c.run acts).Obeys Rest After := by
  induction acts generalizing c with
  | nil => exact h
  | cons a acts ih => exact ih (h.act law a)

/-- What holds when the session opens is kept up at every instant of every run. -/
theorem obeys_run (law : SessionLaw Rest Busy After) {id : Int} {settings : Settings}
    {player : SimulatedPlayer} {store : Store} (h : Rest [] (opening id settings player store))
    (acts : List SessionAct) : ((start id settings player store).run acts).Obeys Rest After := by
  have hstart : (start id settings player store).Obeys Rest After := h
  exact hstart.run law acts

end Chronicle

end PlaybackCues
