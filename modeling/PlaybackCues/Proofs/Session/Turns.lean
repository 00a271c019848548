import PlaybackCues.Proofs.Clock.Turns
import PlaybackCues.Proofs.Player.Motion
import PlaybackCues.Proofs.Resolver.Sending
import PlaybackCues.Proofs.Resolver.Waiting
import PlaybackCues.Session.Basic

set_option autoImplicit false

/-!
# What a session does in a turn

The resolver's response to an event, and from it what the session does with its timers and what it
tells the player. The player's log grows by what it is told, as long as no call fails.
-/
namespace PlaybackCues

def SimulatedPlayer.follow (now : Nat) (p : SimulatedPlayer) : Directive → SimulatedPlayer
  | .setVolume volume => (p.perform now (.setVolume volume)).2
  | .setRate rate => (p.perform now (.setRate rate)).2
  | .seek target _ => (p.perform now (.seek target)).2
  | .pause => (p.perform now .pause).2
  | .play => (p.perform now .play).2
  | .resumeAfter _ => p

def SessionTimers.follow (now : Nat) (ts : SessionTimers) : Directive → SessionTimers
  | .resumeAfter seconds => ts.rearm .resume now (seconds * 1000) .resumeDue
  | _ => ts

abbrev SessionTurn := Turn SessionEvent SessionState

namespace SessionTurn

def calls (m : SessionTurn) : List (Nat × PlayerCall) :=
  m.after.player.log.drop m.before.player.log.length

def Sends (m : SessionTurn) (c : PlayerCall) : Prop := (m.time, c) ∈ m.calls

instance (m : SessionTurn) (c : PlayerCall) : Decidable (m.Sends c) :=
  inferInstanceAs (Decidable (_ ∈ _))

def look? (m : SessionTurn) : Option Snapshot :=
  match m.event with
  | .poll => (m.before.player.snapshot m.time).1.toOption
  | _ => none

def expired? (m : SessionTurn) : Option Cue := m.look?.bind m.before.resolver.expiring?

def pause? (m : SessionTurn) : Option Nat := m.expired?.bind fun c => c.mode.seconds?

/-- The notes that are written to the store in the turn, if it can be reached. -/
def pass? (m : SessionTurn) : Option (List Char) :=
  match m.event with
  | .quiet generation => if generation = m.before.generation then m.before.edit else none
  | _ => none

def saved? (m : SessionTurn) : Option (List Char) :=
  m.pass?.filter fun _ => !m.before.store.offline

def response (m : SessionTurn) : Response :=
  let r := m.before.resolver
  match m.event with
  | .poll => m.look?.elim ⟨r, []⟩ r.tick
  | .textChanged _ => ⟨r, []⟩
  | .quiet _ => m.saved?.elim ⟨r, []⟩ fun notes => r.load (Notes.parse notes)
  | .resumeDue => r.resumeDue
  | .player n => if n = .stateChanged .ended then r.endOfMedia else ⟨r, []⟩
  | .seek target => r.userSeek target
  | .videoChanged => r.reset

/-- The player as the directives find it: only a poll looks at it before. -/
def looked (m : SessionTurn) : SimulatedPlayer :=
  match m.event with
  | .poll => (m.before.player.snapshot m.time).2
  | _ => m.before.player

def outcome (m : SessionTurn) : SessionState :=
  { m.before with
    resolver := m.response.resolver
    player := m.response.directives.foldl (SimulatedPlayer.follow m.time) m.looked
    store := m.saved?.elim m.before.store fun notes =>
      m.before.store.put m.before.id (Notes.parse notes)
    edit :=
      match m.event with
      | .textChanged notes => some notes
      | _ => if m.pass?.isSome then none else m.before.edit
    generation :=
      match m.event with
      | .textChanged _ => m.before.generation + 1
      | _ => m.before.generation }

def rearranged (m : SessionTurn) (ts : SessionTimers) : SessionTimers :=
  match m.event with
  | .poll => m.pause?.elim ts fun seconds => ts.rearm .resume m.time (seconds * 1000) .resumeDue
  | .textChanged _ =>
    ts.rearm .quiet m.time m.before.settings.quietPeriod (.quiet (m.before.generation + 1))
  | .player n => if n = .stateChanged .ended then Timers.cancel ts .resume else ts
  | .videoChanged => Timers.cancel ts .resume
  | .quiet _ | .resumeDue | .seek _ => ts

end SessionTurn

/-! ## Following directives -/

namespace SimulatedPlayer

/-- The log of a player whose calls do not fail has grown by commands at one time, among them
exactly those to pause and to play that are asked for. -/
structure Logs (now : Nat) (p : SimulatedPlayer) (pauses plays : Prop) (q : SimulatedPlayer) :
    Prop where
  failures : q.failures = 0
  log : ∃ cs, q.log = p.log ++ cs ∧ (∀ x ∈ cs, x.1 = now) ∧ ((now, .pause) ∈ cs ↔ pauses) ∧
    ((now, .play) ∈ cs ↔ plays)

variable {now : Nat} {p : SimulatedPlayer}

theorem follow_logs (now : Nat) (h : p.failures = 0) (d : Directive) :
    Logs now p (d = .pause) (d = .play) (p.follow now d) := by
  obtain ⟨hlog, hfail⟩ := p.settle_log now
  have hperform : ∀ c, p.perform now c = (p.settle now).obey now c := perform_eq h now
  -- a command that the player takes adds one entry
  have hentry : ∀ (c : PlayerCall) (q : SimulatedPlayer), q.failures = 0 →
      q.log = p.log ++ [(now, c)] → Logs now p (c = .pause) (c = .play) q := by
    intro c q hq hl
    refine ⟨hq, [(now, c)], hl, by simp, ?_, ?_⟩ <;>
      exact ⟨fun hm => by simpa using (List.mem_singleton.mp hm).symm, fun hc => by simp [hc]⟩
  cases d with
  | setVolume volume =>
    have hl := hentry (.setVolume volume) (p.follow now (.setVolume volume))
      (by simp [follow, hperform, obey, record, hfail, h])
      (by simp [follow, hperform, obey, record, hlog])
    simpa using hl
  | setRate rate =>
    by_cases hr : rate.within minRate maxRate = true
    · have hl := hentry (.setRate rate) (p.follow now (.setRate rate))
        (by simp [follow, hperform, obey, record, hr, hfail, h])
        (by simp [follow, hperform, obey, record, hr, hlog])
      simpa using hl
    · refine ⟨?_, [], ?_, by simp, by simp, by simp⟩ <;>
        simp [follow, hperform, obey, hr, hfail, hlog, h]
  | seek target origin =>
    have hl := hentry (.seek target) (p.follow now (.seek target origin))
      (by simp [follow, hperform, obey, record, hfail, h])
      (by simp [follow, hperform, obey, record, hlog])
    simpa using hl
  | pause =>
    have hl := hentry .pause (p.follow now .pause)
      (by simp [follow, hperform, obey, record, hfail, h])
      (by simp [follow, hperform, obey, record, hlog])
    simpa using hl
  | play =>
    have hl := hentry .play (p.follow now .play)
      (by simp [follow, hperform, obey, record, hfail, h])
      (by simp [follow, hperform, obey, record, hlog])
    simpa using hl
  | resumeAfter seconds => exact ⟨h, [], by simp [follow], by simp, by simp, by simp⟩

theorem foldl_follow_logs (now : Nat) (h : p.failures = 0) (ds : List Directive) :
    Logs now p (.pause ∈ ds) (.play ∈ ds) (ds.foldl (follow now) p) := by
  induction ds generalizing p with
  | nil => exact ⟨h, [], by simp, by simp, by simp, by simp⟩
  | cons d ds ih =>
    obtain ⟨hfail, cs, hlog, htime, hpause, hplay⟩ := follow_logs now h d
    obtain ⟨hfail', cs', hlog', htime', hpause', hplay'⟩ := ih hfail
    refine ⟨hfail', cs ++ cs', ?_, ?_, ?_, ?_⟩
    · rw [List.foldl_cons, hlog', hlog, List.append_assoc]
    · intro x hx
      rcases List.mem_append.mp hx with hx | hx
      · exact htime x hx
      · exact htime' x hx
    · rw [List.mem_append, hpause, hpause', List.mem_cons, eq_comm]
    · rw [List.mem_append, hplay, hplay', List.mem_cons, eq_comm]

end SimulatedPlayer

/-! ## Following a response -/

namespace SessionWork

theorem apply_eq (now : Nat) (r : Response) (w : SessionWork) :
    apply now r w =
      ({ w.1 with
          resolver := r.resolver
          player := r.directives.foldl (SimulatedPlayer.follow now) w.1.player },
        r.directives.foldl (SessionTimers.follow now) w.2) := by
  have hfold : ∀ (ds : List Directive) (w : SessionWork), ds.foldl (follow now) w =
      ({ w.1 with player := ds.foldl (SimulatedPlayer.follow now) w.1.player },
        ds.foldl (SessionTimers.follow now) w.2) := by
    intro ds
    induction ds with
    | nil => exact fun _ => rfl
    | cons d ds ih =>
      intro w
      rw [List.foldl_cons, ih]
      cases d <;> rfl
  exact hfold r.directives _

/-- Nothing but the end of a pause is timed. -/
theorem timers_kept {ds : List Directive} (h : ∀ seconds, .resumeAfter seconds ∉ ds) (now : Nat)
    (ts : SessionTimers) : ds.foldl (SessionTimers.follow now) ts = ts := by
  induction ds with
  | nil => rfl
  | cons d ds ih =>
    have hd : SessionTimers.follow now ts d = ts := by
      cases d with
      | resumeAfter seconds => exact absurd List.mem_cons_self (h seconds)
      | _ => rfl
    rw [List.foldl_cons, hd]
    exact ih fun seconds hmem => h seconds (List.mem_cons_of_mem d hmem)

theorem apply_of_levels {now : Nat} {r : Response}
    (h : ∀ seconds, .resumeAfter seconds ∉ r.directives) (w : SessionWork) :
    apply now r w =
      ({ w.1 with
          resolver := r.resolver
          player := r.directives.foldl (SimulatedPlayer.follow now) w.1.player },
        w.2) := by
  rw [apply_eq, timers_kept h]

end SessionWork

theorem LevelsOnly.resumeAfter_notMem {ds : List Directive} (h : LevelsOnly ds) (seconds : Nat) :
    .resumeAfter seconds ∉ ds := h.notMem rfl

namespace Resolver

/-- A tick times the end of the pause at the end of the cue that it finds over. -/
theorem timers_of_tick (r : Resolver) (s : Snapshot) (now : Nat) (ts : SessionTimers) :
    (r.tick s).directives.foldl (SessionTimers.follow now) ts =
      ((r.expiring? s).bind fun c => c.mode.seconds?).elim ts fun seconds =>
        ts.rearm .resume now (seconds * 1000) .resumeDue := by
  have hnone : (∀ seconds, .resumeAfter seconds ∉ (r.tick s).directives) →
      (r.expiring? s).bind (fun c => c.mode.seconds?) = none := by
    intro h
    rw [Option.bind_eq_none_iff]
    intro c hc
    cases hm : c.mode with
    | pause seconds => exact absurd (tick_resumes_iff.mpr ⟨c, hc, hm⟩) (h seconds)
    | _ => rfl
  by_cases h : ∃ seconds, .resumeAfter seconds ∈ (r.tick s).directives
  · obtain ⟨seconds, hd⟩ := h
    obtain ⟨c, hc, hm⟩ := tick_resumes_iff.mp hd
    have hbind : (r.expiring? s).bind (fun c => c.mode.seconds?) = some seconds := by
      rw [hc, Option.bind_some, hm]
      rfl
    rw [hbind]
    have hs := r.tick_sends s
    generalize r.tick s = a at hs hd
    cases hs with
    | levels a h => exact absurd hd (h.resumeAfter_notMem seconds)
    | jump q c' next he hq hm' hn =>
      cases hc.symm.trans he
      rw [hm] at hm'
      cases hm'
    | pause q c' n he hq hm' =>
      cases hc.symm.trans he
      cases hm.symm.trans hm'
      rw [List.foldl_append, SessionWork.timers_kept (levelsOnly_directives _).resumeAfter_notMem]
      rfl
  · have h := not_exists.mp h
    rw [SessionWork.timers_kept h, hnone h]
    rfl

end Resolver

namespace SessionWork

/-- A poll whose look at the player fails only leaves the player as the look does. -/
theorem poll_eq (now : Nat) (st : SessionState) (ts : SessionTimers) :
    let look := st.player.snapshot now
    let r := look.1.toOption.elim ⟨st.resolver, []⟩ st.resolver.tick
    poll now (st, ts) =
      ({ st with
          resolver := r.resolver
          player := r.directives.foldl (SimulatedPlayer.follow now) look.2 },
        ((look.1.toOption.bind st.resolver.expiring?).bind fun c => c.mode.seconds?).elim ts
          fun seconds => ts.rearm .resume now (seconds * 1000) .resumeDue) := by
  dsimp only [poll]
  generalize st.player.snapshot now = look
  obtain ⟨seen, player⟩ := look
  cases seen with
  | error e => rfl
  | ok s =>
    dsimp only
    rw [apply_eq, Resolver.timers_of_tick]
    rfl

/-- A pass writes the notes and loads them, unless the store cannot be reached. -/
theorem reconcile_eq (now : Nat) (notes : List Char) (st : SessionState) (ts : SessionTimers) :
    let saved := (some notes).filter fun _ => !st.store.offline
    let r := saved.elim ⟨st.resolver, []⟩ fun notes => st.resolver.load (Notes.parse notes)
    reconcile now notes (st, ts) =
      ({ st with
          resolver := r.resolver
          player := r.directives.foldl (SimulatedPlayer.follow now) st.player
          store := saved.elim st.store fun notes => st.store.put st.id (Notes.parse notes)
          edit := none },
        ts) := by
  intro saved r
  simp only [reconcile, Store.reconcile, Store.replace, r, saved]
  cases st.store.offline with
  | true => rfl
  | false =>
    change apply now (st.resolver.load (Notes.parse notes)) _ = _
    rw [apply_of_levels (Resolver.load_levelsOnly _ _).resumeAfter_notMem]
    rfl

def turn (now : Nat) (e : SessionEvent) (w : SessionWork) : SessionTurn :=
  Handler.turn handle now e w

/-- The notes of a pass are reconciled; without them the end of a quiet period does nothing. -/
theorem handle_quiet (now generation : Nat) (w : SessionWork) :
    handle now (.quiet generation) w =
      match (turn now (.quiet generation) w).pass? with
      | some notes => reconcile now notes w
      | none => w := rfl

/-- Handling an event leads to the outcome of the turn. -/
theorem handle_eq (now : Nat) (e : SessionEvent) (w : SessionWork) :
    handle now e w = ((turn now e w).outcome, (turn now e w).rearranged w.2) := by
  obtain ⟨st, ts⟩ := w
  cases e with
  | poll => exact poll_eq now st ts
  | textChanged notes => rfl
  | quiet generation =>
    rw [handle_quiet]
    change _ = ((turn now (.quiet generation) (st, ts)).outcome, ts)
    unfold SessionTurn.outcome SessionTurn.response SessionTurn.saved?
    cases hp : (turn now (.quiet generation) (st, ts)).pass? with
    | none => rfl
    | some notes => exact reconcile_eq now notes st ts
  | resumeDue =>
    refine apply_of_levels (fun seconds hd => ?_) (st, ts)
    cases Resolver.eq_play_of_resumeDue hd
  | player n =>
    cases n with
    | trouble message => rfl
    | stateChanged state =>
      cases state with
      | ended => exact apply_of_levels st.resolver.reset_levelsOnly.resumeAfter_notMem _
      | _ => rfl
  | seek target =>
    refine apply_of_levels (fun seconds hd => ?_) (st, ts)
    have hmove := Resolver.leave_levelsOnly { st.resolver with flight := none }
    rcases List.mem_cons.mp hd with hd | hd
    · cases hd
    · exact (hmove.append levelsOnly_nil).resumeAfter_notMem seconds hd
  | videoChanged => exact apply_of_levels st.resolver.reset_levelsOnly.resumeAfter_notMem _

/-! ### Events of timers that were called off -/

/-- The quiet period of an edit that is not the newest, or the end of a pause that nobody awaits. -/
inductive Stale (st : SessionState) : SessionEvent → Prop where
  | quiet {generation : Nat} (h : generation ≠ st.generation) : Stale st (.quiet generation)
  | resumeDue (h : st.resolver.awaiting = false) : Stale st .resumeDue

theorem handle_stale (now : Nat) {w : SessionWork} {e : SessionEvent} (h : Stale w.1 e) :
    handle now e w = w := by
  cases h with
  | quiet h => simp only [handle, settledEdit?, if_neg h]
  | resumeDue h =>
    have hresume : w.1.resolver.resumeDue = ⟨w.1.resolver, []⟩ := by
      rw [Resolver.resumeDue, h, if_neg Bool.false_ne_true]
    simp only [handle, hresume]
    rfl

/-- What an edit, another video or the end of the media calls off is stale from then on. -/
theorem stale_calledOff (now : Nat) (w : SessionWork) :
    (∀ notes generation, generation ≤ w.1.generation →
      Stale (handle now (.textChanged notes) w).1 (.quiet generation)) ∧
    Stale (handle now .videoChanged w).1 .resumeDue ∧
    Stale (handle now (.player (.stateChanged .ended)) w).1 .resumeDue := by
  refine ⟨fun notes generation hle => .quiet (Nat.ne_of_lt (Nat.lt_succ_of_le hle)), ?_, ?_⟩
  · rw [handle_eq]
    exact .resumeDue rfl
  · rw [handle_eq]
    exact .resumeDue rfl

/-- What is recorded of a turn. -/
theorem turn_records (now : Nat) (e : SessionEvent) (st : SessionState) (ts : SessionTimers) :
    let m := turn now e (st, ts)
    m.time = now ∧ m.event = e ∧ m.before = st ∧ m.after = m.outcome :=
  ⟨rfl, rfl, rfl, congrArg Prod.fst (handle_eq now e (st, ts))⟩

end SessionWork

end PlaybackCues
