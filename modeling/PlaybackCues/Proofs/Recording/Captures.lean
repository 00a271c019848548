import PlaybackCues.Proofs.Clock.Regimes
import PlaybackCues.Proofs.Clock.Turns
import PlaybackCues.Proofs.Recording.Observing
import PlaybackCues.Recording.Capture

set_option autoImplicit false

/-!
# Runs of a capture

A run is what is done while a capture goes on: calls to the player, marks and movements of the
clock. A watch is a capture that keeps a report of its looks; without the report it is the capture
itself. The ticker of the positions looks at the player every 300 ms, whatever happens, so the
recorder's last look is never older than that, and the report holds at every instant of a run.
-/
namespace PlaybackCues

inductive CaptureAct where
  | perform (call : PlayerCall)
  | mark
  /-- What can run at this instant does. -/
  | settle
  /-- The clock moves and stops at every deadline on the way. -/
  | advance (ms : Nat)
  /-- The same, but what is due at the new time has yet to run. -/
  | approach (ms : Nat)

def CaptureAct.isSeek : CaptureAct → Bool
  | .perform call => call.isSeek
  | _ => false

def CaptureAct.runs : CaptureAct → Bool
  | .perform _ | .mark => false
  | .settle | .advance _ | .approach _ => true

namespace Capture

def approach (c : Capture) (ms : Nat) : Capture :=
  { c with loop := c.loop.approach CaptureState.handle ms }

def act (c : Capture) : CaptureAct → Capture
  | .perform call => c.setPlayer (c.player.perform c.now call).2
  | .mark =>
    match c.mark with
    | .ok c => c
    | .error _ => c
  | .settle => c.settle
  | .advance ms => c.advance ms
  | .approach ms => c.approach ms

def run (c : Capture) (acts : List CaptureAct) : Capture := acts.foldl act c

end Capture

/-! ## Watches -/

abbrev WatchedState := CaptureState × Report

abbrev WatchLoop := EventLoop Signal CaptureEvent WatchedState

namespace CaptureState

def shown? (now : Nat) (e : CaptureEvent) (c : CaptureState) : Option Sample :=
  match e with
  | .sample signal => (readSample now signal c.player).1.toOption
  | .mark =>
    some (.mark (c.readOrPosition now SimulatedPlayer.position).1 (Timestamp.ofMillis now))

/-- Handles an event and reports the look at the player that it takes. -/
def watching : Handler Signal CaptureEvent WatchedState := fun now e w =>
  let after := handle now e (w.1.1, w.2)
  let report := (shown? now e w.1.1).elim w.1.2 fun s =>
    w.1.2.see w.1.1.recorder s (w.1.1.player.look now)
  ((after.1, report), after.2)

theorem watching_extends : watching.Extends handle := fun _ _ _ => rfl

end CaptureState

structure Watch where
  loop : WatchLoop

namespace Watch

def launch (sampling : Sampling) (id : Uuid) (document : Int) (player : SimulatedPlayer) :
    Except SessionError Watch :=
  match player.snapshot 0 with
  | (.error e, _) => .error (.player e)
  | (.ok first, after) =>
    let recorder := Recorder.start sampling id document first (Timestamp.ofMillis 0)
    .ok ⟨{ timers := Capture.tickers sampling
           owner := (⟨after, recorder⟩, { last := player.look 0 }) }⟩

def player (w : Watch) : SimulatedPlayer := w.loop.owner.1.player

def report (w : Watch) : Report := w.loop.owner.2

/-- Calls the player; a seek departs from where the player is. -/
def perform (w : Watch) (call : PlayerCall) : Watch :=
  let report :=
    if call.isSeek then w.report.depart (w.player.look w.loop.now).position else w.report
  let state := { w.loop.owner.1 with player := (w.player.perform w.loop.now call).2 }
  ⟨{ w.loop with owner := (state, report) }⟩

def act (w : Watch) : CaptureAct → Watch
  | .perform call => w.perform call
  | .mark => ⟨w.loop.post .mark⟩
  | .settle => ⟨w.loop.settle CaptureState.watching⟩
  | .advance ms => ⟨w.loop.advance CaptureState.watching ms⟩
  | .approach ms => ⟨w.loop.approach CaptureState.watching ms⟩

def run (w : Watch) (acts : List CaptureAct) : Watch := acts.foldl act w

def drain (w : Watch) : Watch := ⟨w.loop.drain CaptureState.watching⟩

def capture (w : Watch) : Capture := { loop := w.loop.bare }

theorem capture_launch (sampling : Sampling) (id : Uuid) (document : Int)
    (player : SimulatedPlayer) :
    (launch sampling id document player).map capture =
      Capture.launch sampling id document player := by
  unfold launch Capture.launch
  cases player.snapshot 0 with
  | mk reply after =>
    cases reply with
    | error e => rfl
    | ok first => rfl

theorem capture_act (w : Watch) (a : CaptureAct) : (w.act a).capture = w.capture.act a := by
  cases a with
  | perform call => rfl
  | mark => rfl
  | settle =>
    simp only [act, capture, Capture.act, Capture.settle,
      EventLoop.bare_settle CaptureState.watching_extends]
  | advance ms =>
    simp only [act, capture, Capture.act, Capture.advance,
      EventLoop.bare_advance CaptureState.watching_extends]
  | approach ms =>
    simp only [act, capture, Capture.act, Capture.approach,
      EventLoop.bare_approach CaptureState.watching_extends]

theorem stop_capture (w : Watch) : w.capture.stop =
    .ok (w.drain.loop.owner.1.recorder.stop
      (w.drain.loop.owner.1.readOrPosition w.loop.now SimulatedPlayer.duration).1
      (.ofMillis w.loop.now)) := by
  change Except.ok ((w.loop.bare.drain CaptureState.handle).owner.finish w.loop.now) = _
  rw [← EventLoop.bare_drain CaptureState.watching_extends]
  rfl

/-- A watch only adds a report to a capture. -/
theorem capture_run (w : Watch) (acts : List CaptureAct) :
    (w.run acts).capture = w.capture.run acts := by
  induction acts generalizing w with
  | nil => rfl
  | cons a acts ih =>
    change ((w.act a).run acts).capture = (w.capture.act a).run acts
    rw [ih, capture_act]

end Watch

/-! ## What an event does -/

namespace SimulatedPlayer

variable {p : SimulatedPlayer} {now : Nat}

theorem Sound.look_shows (h : p.Sound) (now : Nat) : (p.look now).Shows (p.settle now) where
  time := (p.settle_anchored now).symm
  position := rfl
  seeks := (p.settle_seeks now).symm
  steady := h.settle_steady

theorem Reply.andThen_ok {α β : Type} (a : α) (p : SimulatedPlayer)
    (f : α → SimulatedPlayer → Reply β) : Reply.andThen (.ok a, p) f = f a p := rfl

end SimulatedPlayer

namespace CaptureState

open SimulatedPlayer

/-- A sample shows the player as it is now, which is brought up to the present once or twice. -/
theorem readSample_eq {p : SimulatedPlayer} (h : p.Sound) {now : Nat}
    (hgap : now ≤ p.anchored + 300) (signal : Signal) :
    ∃ s q, readSample now signal p = (.ok s, q) ∧ s.Of (p.look now) ∧
      (q = p.settle now ∨ q = (p.settle now).settle now) ∧
      (signal = .position → s = .position (p.look now).position (.ofMillis now)) := by
  have hsettled := h.settle hgap
  unfold readSample
  dsimp only
  rw [read_eq h.failures, Reply.andThen_ok]
  cases signal with
  | speed =>
    dsimp only
    rw [read_eq hsettled.failures, Reply.andThen_ok]
    refine ⟨_, _, rfl, ⟨rfl, rfl, ?_⟩, .inr rfl, nofun⟩
    rw [(settle_levels _ now).1]
    exact hsettled.rate
  | volume =>
    dsimp only
    rw [read_eq hsettled.failures, Reply.andThen_ok]
    exact ⟨_, _, rfl, ⟨rfl, rfl⟩, .inr rfl, nofun⟩
  | position => exact ⟨_, _, rfl, ⟨rfl, rfl⟩, .inl rfl, fun _ => rfl⟩
  | state =>
    dsimp only
    rw [read_eq hsettled.failures, Reply.andThen_ok]
    exact ⟨_, _, rfl, ⟨rfl, rfl⟩, .inr rfl, nofun⟩

/-- What handling an event does to a watched state. -/
theorem watching_eq {o : WatchedState} (h : o.1.player.Sound) {now : Nat}
    (hgap : now ≤ o.1.player.anchored + 300) (e : CaptureEvent)
    (ts : Timers Signal CaptureEvent) :
    ∃ s q, s.Of (o.1.player.look now) ∧
      (q = o.1.player.settle now ∨ q = (o.1.player.settle now).settle now) ∧
      (e = .sample .position → s = .position (o.1.player.look now).position (.ofMillis now)) ∧
      watching now e (o, ts) =
        ((⟨q, o.1.recorder.observe s⟩, o.2.see o.1.recorder s (o.1.player.look now)), ts) := by
  cases e with
  | sample signal =>
    obtain ⟨s, q, heq, hof, hq, hpos⟩ := readSample_eq h hgap signal
    refine ⟨s, q, hof, hq, fun he => hpos (CaptureEvent.sample.inj he), ?_⟩
    simp only [watching, handle, sample, shown?, heq]
    rfl
  | mark =>
    refine ⟨.mark (o.1.player.look now).position (.ofMillis now), o.1.player.settle now,
      ⟨rfl, rfl⟩, .inl rfl, (fun he => by cases he), ?_⟩
    simp only [watching, handle, mark, shown?, readOrPosition, read_eq h.failures]
    rfl

end CaptureState

structure WatchedState.Stands (duration : Seconds) (now : Nat) (o : WatchedState) : Prop where
  player : o.1.player.Sound
  medium : o.1.player.duration = duration
  anchored : o.1.player.anchored ≤ now
  follows : o.1.recorder.Follows o.2
  holds : o.2.Holds o.1.player
  reachable : Reachable o.2.last.position

namespace WatchedState.Stands

variable {o : WatchedState} {duration : Seconds} {now : Nat}

theorem anchored_gap (h : o.Stands duration now) (hgap : now ≤ o.2.last.time + 300) :
    now ≤ o.1.player.anchored + 300 := by
  have := h.holds.last.time_le
  omega

theorem wait (h : o.Stands duration now) {later : Nat} (hle : now ≤ later) :
    o.Stands duration later :=
  { h with anchored := Nat.le_trans h.anchored hle }

/-- The player is brought up to the present. -/
theorem settle (h : o.Stands duration now) (hgap : now ≤ o.2.last.time + 300) :
    WatchedState.Stands duration now (⟨o.1.player.settle now, o.1.recorder⟩, o.2) where
  player := h.player.settle (h.anchored_gap hgap)
  medium := (o.1.player.settle_levels now).2.trans h.medium
  anchored := Nat.le_of_eq (o.1.player.settle_anchored now)
  follows := h.follows
  holds := h.holds.advance (h.player.settle_advances h.anchored (h.anchored_gap hgap))
  reachable := h.reachable

/-- Handling an event keeps the report, and renews the last look if it samples the position. -/
theorem handle (h : o.Stands duration now) (hgap : now ≤ o.2.last.time + 300) (e : CaptureEvent)
    (ts : Timers Signal CaptureEvent) :
    ∃ o', CaptureState.watching now e (o, ts) = (o', ts) ∧
      WatchedState.Stands duration now o' ∧
      (o'.2.last.time = now ∨ o'.2.last.time = o.2.last.time ∧ e ≠ .sample .position) := by
  obtain ⟨s, q, hof, hq, hpos, heq⟩ :=
    CaptureState.watching_eq h.player (h.anchored_gap hgap) e ts
  have hsettled := h.settle hgap
  have hshows := h.player.look_shows now
  have hgap' : (o.1.player.settle now).anchored ≤ o.2.last.time + 300 := by
    rw [SimulatedPlayer.settle_anchored]
    exact hgap
  obtain ⟨hfollows, hholds⟩ :=
    h.follows.observe hsettled.holds hshows h.reachable hgap' hof
  have hlast : (o.2.see o.1.recorder s (o.1.player.look now)).last =
    if o.1.recorder.anchors s then o.1.player.look now else o.2.last := rfl
  generalize o.2.see o.1.recorder s (o.1.player.look now) = w at heq hfollows hholds hlast
  have hnew : (w.last.time = now ∨ w.last.time = o.2.last.time ∧ e ≠ .sample .position) ∧
      Reachable w.last.position := by
    rw [hlast]
    split
    · exact ⟨.inl rfl, hsettled.player.reachable⟩
    · rename_i hanchors
      refine ⟨.inr ⟨rfl, fun he => hanchors ?_⟩, h.reachable⟩
      rw [hpos he]
      rfl
  obtain ⟨htime, hreach⟩ := hnew
  have hstands : WatchedState.Stands duration now
      (⟨o.1.player.settle now, o.1.recorder.observe s⟩, w) :=
    ⟨hsettled.player, hsettled.medium, hsettled.anchored, hfollows, hholds, hreach⟩
  refine ⟨_, heq, ?_, htime⟩
  rcases hq with rfl | rfl
  · exact hstands
  · have hw : now ≤ w.last.time + 300 := by
      rcases htime with htime | ⟨htime, _⟩ <;> omega
    exact hstands.settle hw

/-- Handling some events keeps the report, and whatever else each of them keeps. -/
theorem drain {P : WatchedState → Prop} {ts : Timers Signal CaptureEvent} {es : List CaptureEvent}
    (step : ∀ {o e}, o.Stands duration now → now ≤ o.2.last.time + 300 → e ∈ es → P o →
      P (CaptureState.watching now e (o, ts)).1)
    (h : o.Stands duration now) (hgap : now ≤ o.2.last.time + 300) (hP : P o) :
    ∃ o', es.foldl (fun w e => CaptureState.watching now e w) (o, ts) = (o', ts) ∧
      o'.Stands duration now ∧ P o' := by
  induction es generalizing o with
  | nil => exact ⟨o, rfl, h, hP⟩
  | cons e es ih =>
    obtain ⟨o', heq, hstands, htime⟩ := h.handle hgap e ts
    have hgap' : now ≤ o'.2.last.time + 300 := by
      rcases htime with htime | ⟨htime, _⟩ <;> omega
    have hP' := step h hgap List.mem_cons_self hP
    rw [heq] at hP'
    rw [List.foldl_cons, heq]
    exact ih (fun h hgap he => step h hgap (List.mem_cons_of_mem _ he)) hstands hgap' hP'

/-- A call to the player keeps the report. -/
theorem perform (h : o.Stands duration now) (hgap : now ≤ o.2.last.time + 300)
    {call : PlayerCall} (hcall : call.isSeek = true → 0 ≤ duration) :
    WatchedState.Stands duration now ({ o.1 with player := (o.1.player.perform now call).2 },
      if call.isSeek then o.2.depart (o.1.player.look now).position else o.2) := by
  have hobeys := h.player.perform (h.anchored_gap hgap) (show o.1.player.Admits call by
    unfold SimulatedPlayer.Admits
    rw [h.medium]
    exact hcall)
  have hsettled := h.settle hgap
  have hanchored := o.1.player.settle_anchored now
  have hle : (o.1.player.perform now call).2.anchored ≤ now :=
    Nat.le_of_eq (hobeys.anchored.trans hanchored)
  have hmedium := hobeys.duration.trans hsettled.medium
  cases hseek : call.isSeek with
  | false =>
    rw [if_neg nofun]
    exact ⟨hobeys.sound, hmedium, hle, h.follows, hsettled.holds.advance (hobeys.advances hseek),
      h.reachable⟩
  | true =>
    rw [if_pos rfl]
    have hseeks := hobeys.seeks
    rw [hseek, if_pos rfl] at hseeks
    have hdepart := hsettled.holds.depart (by rw [hanchored]; exact hgap) hseeks
      (Nat.le_of_eq hobeys.anchored.symm)
    exact ⟨hobeys.sound, hmedium, hle, ⟨h.follows.sampling, h.follows.rate, h.follows.position,
      h.follows.seen, h.follows.tracks, h.follows.marked⟩, hdepart, h.reachable⟩

end WatchedState.Stands

/-! ## The ticker of the positions -/

namespace WatchLoop

variable {duration : Seconds} {l : WatchLoop} {bound : Nat} {ts : Timers Signal CaptureEvent}

def Ticking (bound : Nat) (ts : Timers Signal CaptureEvent) : Prop :=
  ∃ t ∈ ts, t.event = .sample .position ∧ t.period = some 300 ∧ t.deadline ≤ bound

theorem Ticking.mono (h : Ticking bound ts) {later : Nat} (hle : bound ≤ later) :
    Ticking later ts := by
  obtain ⟨t, ht, he, hp, hdue⟩ := h
  exact ⟨t, ht, he, hp, Nat.le_trans hdue hle⟩

structure AtRest (duration : Seconds) (l : WatchLoop) : Prop where
  lag_eq : l.lag = 0
  steady : Timers.Steady l.lag l.now l.timers
  stands : WatchedState.Stands duration l.now l.owner
  ticking : Ticking (l.owner.2.last.time + 300) l.timers

structure AtWork (duration : Seconds) (l : WatchLoop) : Prop where
  lag_eq : l.lag = 0
  steady : Timers.Steady l.lag l.now l.timers
  later : ∀ t ∈ l.timers, l.now < t.due l.lag
  stands : WatchedState.Stands duration l.now l.owner
  recent : l.now ≤ l.owner.2.last.time + 300
  ticking : Ticking (l.owner.2.last.time + 300) l.timers ∨
    .sample .position ∈ l.inbox ∧ Ticking (l.now + 300) l.timers

theorem AtRest.recent (h : AtRest duration l) : l.now ≤ l.owner.2.last.time + 300 := by
  obtain ⟨t, ht, _, _, hdue⟩ := h.ticking
  have hnow := h.steady.punctual t ht
  rw [h.lag_eq] at hnow
  exact Nat.le_trans hnow hdue

theorem AtRest.fire (h : AtRest duration l) : AtWork duration l.fire where
  lag_eq := h.lag_eq
  steady := h.steady.afterFiring
  later t ht := by
    rcases h.steady.mem_afterFiring.mp ht with ⟨_, hlt⟩ | ⟨u, hu, _, hagain⟩
    · exact hlt
    · exact h.steady.late_of_again hu hagain
  stands := h.stands
  recent := h.recent
  ticking := by
    obtain ⟨t, ht, he, hp, hdue⟩ := h.ticking
    by_cases hlt : l.now < t.due l.lag
    · exact .inl ⟨t, h.steady.mem_afterFiring.mpr (.inl ⟨ht, hlt⟩), he, hp, hdue⟩
    · have hnow := Nat.le_antisymm (h.steady.punctual t ht) (Nat.le_of_not_lt hlt)
      have hagain : t.again l.lag l.now = some { t with deadline := t.deadline + 300 } := by
        simp [Timer.again, hp, hnow]
      have hevent := List.mem_map_of_mem (f := fun t : Timer Signal CaptureEvent => t.event)
        (h.steady.mem_firing.mpr ⟨ht, hnow.symm⟩)
      rw [he] at hevent
      refine .inr ⟨List.mem_append_right _ hevent, _,
        h.steady.mem_afterFiring.mpr (.inr ⟨t, ht, hnow.symm, hagain⟩), he, hp, ?_⟩
      rw [Timer.due, h.lag_eq] at hnow
      change t.deadline + 300 ≤ l.now + 300
      omega

theorem AtWork.heed (h : AtWork duration l) {e : CaptureEvent} {es : List CaptureEvent}
    (hes : l.inbox = e :: es) :
    AtWork duration { l.heed CaptureState.watching e with inbox := es } := by
  obtain ⟨o, heq, hstands, htime⟩ := h.stands.handle h.recent e l.timers
  have hle := h.stands.holds.last.time_le
  have hnow := h.stands.anchored
  unfold EventLoop.heed
  rw [heq]
  refine ⟨h.lag_eq, h.steady, h.later, hstands, ?_, ?_⟩
  · change l.now ≤ o.2.last.time + 300
    have := h.recent
    rcases htime with htime | ⟨htime, _⟩ <;> omega
  · change Ticking (o.2.last.time + 300) l.timers ∨
      .sample .position ∈ es ∧ Ticking (l.now + 300) l.timers
    rcases htime with htime | ⟨htime, hother⟩
    · rw [htime]
      rcases h.ticking with hticking | ⟨_, hticking⟩
      · exact .inl (hticking.mono (by omega))
      · exact .inl hticking
    · rw [htime]
      refine h.ticking.imp id fun ⟨hmem, hticking⟩ => ⟨?_, hticking⟩
      rw [hes] at hmem
      exact (List.mem_cons.mp hmem).resolve_left fun he => hother he.symm

theorem AtWork.drained (h : AtWork duration l) (hinbox : l.inbox = []) : AtRest duration l where
  lag_eq := h.lag_eq
  steady := h.steady
  stands := h.stands
  ticking := h.ticking.resolve_right fun hmem => by
    rw [hinbox] at hmem
    cases hmem.1

theorem AtRest.round (h : AtRest duration l) :
    AtRest duration (l.round CaptureState.watching) ∧
      (l.round CaptureState.watching).quiet = true := by
  have hwork : AtWork duration (l.round CaptureState.watching) :=
    EventLoop.drain_keeps (fun h hes => h.heed hes) h.fire
  have hinbox : (l.round CaptureState.watching).inbox = [] := EventLoop.drain_inbox _
  exact ⟨hwork.drained hinbox, EventLoop.quiet_iff.mpr ⟨hinbox, hwork.later⟩⟩

theorem regime : EventLoop.Regime CaptureState.watching (AtRest duration) (AtWork duration) where
  fire := AtRest.fire
  heed h hes := h.heed hes
  drained := AtWork.drained
  wait h _ hle hdue := ⟨h.lag_eq, h.steady.wait hdue, h.stands.wait hle, h.ticking⟩
  quiet h := h.round.1.round.2

end WatchLoop

namespace Watch

variable {w : Watch} {duration : Seconds}

theorem atRest_act (h : WatchLoop.AtRest duration w.loop) {a : CaptureAct}
    (ha : a.isSeek = true → 0 ≤ duration) : WatchLoop.AtRest duration (w.act a).loop := by
  cases a with
  | perform call =>
    have hlast : (w.perform call).report.last = w.report.last := by
      unfold perform report
      split <;> rfl
    refine ⟨h.lag_eq, h.steady, h.stands.perform h.recent ha, ?_⟩
    change WatchLoop.Ticking ((w.perform call).report.last.time + 300) w.loop.timers
    rw [hlast]
    exact h.ticking
  | mark => exact ⟨h.lag_eq, h.steady, h.stands, h.ticking⟩
  | settle => exact (WatchLoop.regime.settle h).1
  | advance ms => exact (WatchLoop.regime.advance h ms).1
  | approach ms => exact WatchLoop.regime.approach h ms

/-- What stands of a watch stands at every instant of a run. -/
theorem atRest_run (h : WatchLoop.AtRest duration w.loop) {acts : List CaptureAct}
    (hacts : ∀ a ∈ acts, a.isSeek = true → 0 ≤ duration) :
    WatchLoop.AtRest duration (w.run acts).loop := by
  induction acts generalizing w with
  | nil => exact h
  | cons a acts ih =>
    obtain ⟨ha, hacts⟩ := List.forall_mem_cons.mp hacts
    exact ih (atRest_act h ha) hacts

theorem stands_drain {P : WatchedState → Prop} (h : WatchLoop.AtRest duration w.loop)
    (step : ∀ {o e}, o.Stands duration w.loop.now → w.loop.now ≤ o.2.last.time + 300 →
      e ∈ w.loop.inbox → P o → P (CaptureState.watching w.loop.now e (o, w.loop.timers)).1)
    (hP : P w.loop.owner) :
    w.drain.loop.owner.Stands duration w.loop.now ∧ P w.drain.loop.owner := by
  obtain ⟨o, heq, hstands, hP⟩ := h.stands.drain step h.recent hP
  have howner : w.drain.loop.owner = o := congrArg Prod.fst heq
  exact howner ▸ ⟨hstands, hP⟩

end Watch

end PlaybackCues
