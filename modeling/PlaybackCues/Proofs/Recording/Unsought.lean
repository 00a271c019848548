import PlaybackCues.Proofs.Recording.Contiguity

set_option autoImplicit false

/-!
# Recordings of players that nobody sought in

The recorder looks at the position every 300 ms, and in that time neither the player nor the
prediction leaves the last position by as much as a leap: pauses, changes of the rate and the end of
the medium keep a player within that distance, whether the recorder knows of them yet or not. So
without a seek of the user no seek is recorded.

This takes a position that can be told from another one. An infinite position has no distance from
itself, and the first sample of it is taken for a seek, unless the recording ends before.
-/
namespace PlaybackCues

open Binary64

theorem Binary64.sub_self_of_not_isFinite {a : Binary64} (h : ¬ a.isFinite = true) :
    a - a = nan := by
  cases a with
  | nan => rfl
  | infinite s => cases s <;> rfl
  | finite s n hn => exact absurd rfl h

namespace Recorder

variable {r : Recorder} {w : Report} {p : SimulatedPlayer}

/-! ## The bookmark at the last seek -/

/-- A bookmark at a seek is only ever replaced by another one. -/
theorem observe_lastSeek (r : Recorder) (s : Sample) :
    (r.observe s).lastSeek = r.lastSeek ∨ (r.observe s).lastSeek.isSome = true := by
  cases s with
  | volume time volume now =>
    change (r.observeVolume time volume now).lastSeek = _ ∨ _
    rcases r.observeVolume_eq time volume now with heq | ⟨value, heq⟩
    · exact .inl (by rw [heq])
    · exact .inl (by rw [heq]; rfl)
  | rate time rate now =>
    change (r.observeRate time rate now).lastSeek = _ ∨ _
    rcases r.observeRate_eq time rate now with heq | heq
    · exact .inl (by rw [heq])
    · exact .inl (by rw [heq]; rfl)
  | position time now =>
    change (r.observePosition time now).lastSeek = _ ∨ (r.observePosition time now).lastSeek.isSome = _
    rcases r.observePosition_eq time now with
      ⟨_, _, heq⟩ | ⟨_, ⟨b, hb, _, heq⟩ | ⟨_, heq⟩⟩
    · exact .inl (by rw [heq])
    · exact .inl (by rw [heq]; rfl)
    · exact .inr (by rw [heq]; rfl)
  | state time state now =>
    change (r.observeState time state now).lastSeek = _ ∨ _
    rcases r.observeState_eq time state now with heq | ⟨_, heq⟩ | ⟨_, heq⟩
    · exact .inl (by rw [heq])
    · exact .inl (by rw [heq]; rfl)
    · exact .inl (by rw [heq, (closePause_bookmarks _ now).1]; rfl)
  | mark time now => exact .inl rfl

theorem lastSeek_of_far {time : Seconds} {now : Timestamp}
    (h : ¬ (time - r.expected now).abs ≤ r.sampling.seekDelta) :
    (r.observe (.position time now)).lastSeek.isSome = true := by
  change (r.observePosition time now).lastSeek.isSome = true
  rcases r.observePosition_eq time now with ⟨hnear, _⟩ | ⟨_, ⟨b, hb, _, heq⟩ | ⟨_, heq⟩⟩
  · exact absurd hnear h
  · rw [heq]
    exact Option.isSome_iff_exists.mpr ⟨b, hb⟩
  · rw [heq]
    rfl

/-- A position that is not finite is far from the predicted one, which is the same. -/
theorem Follows.far_of_not_isFinite (h : r.Follows w) (hw : w.Holds p)
    (hreach : Reachable w.last.position) (hgap : p.anchored ≤ w.last.time + 300)
    (hseeks : w.last.seeks = p.seeks) (hfin : ¬ p.position.isFinite = true) :
    ¬ (p.position - r.expected (.ofMillis p.anchored)).abs ≤ r.sampling.seekDelta := by
  have hmove := (hw.last.moves hseeks).1
  have hlast : ¬ w.last.position.isFinite = true := hmove.isFinite_iff.not.mpr hfin
  have hsame : p.position = r.expected (.ofMillis p.anchored) :=
    (hmove.eq_of_not_isFinite hlast).symm.trans
      ((h.expected_moves hreach hgap).eq_of_not_isFinite hlast)
  rw [← hsame, sub_self_of_not_isFinite hfin]
  intro hle
  cases (isNaN_of_le hle).1

end Recorder

/-! ## Runs without a seek -/

theorem seek_mem_iff {events : List RecordedEvent} {rows : List Sighting}
    (h : events.map RecordedEvent.track = rows.map Sighting.track) :
    (∃ e ∈ events, e.kind = .seek) ↔ ∃ s ∈ rows, s.seek = true := by
  have hseek : (∃ t ∈ events.map RecordedEvent.track, t.2.2 = true) ↔
      ∃ t ∈ rows.map Sighting.track, t.2.2 = true := by rw [h]
  simpa [RecordedEvent.track, Sighting.track] using hseek

/-- Nobody has sought in the player, and its position is finite or not as it was at the start. If
it is not, a seek has been noticed or the position is `pending` to be sampled. -/
structure WatchedState.Unsought (finite : Bool) (pending : Prop) (o : WatchedState) : Prop where
  seeks : o.1.player.seeks = 0
  position : o.1.player.position.isFinite = finite
  noticed : finite = false → o.1.recorder.lastSeek.isSome = true ∨ pending

namespace WatchedState

variable {o : WatchedState} {duration : Seconds} {now : Nat} {finite : Bool} {pending : Prop}

theorem Unsought.mono (h : o.Unsought finite pending) {pending' : Prop} (hp : pending → pending') :
    o.Unsought finite pending' :=
  { h with noticed := fun hfin => (h.noticed hfin).imp_right hp }

theorem Stands.last_seeks (h : o.Stands duration now) (hseeks : o.1.player.seeks = 0) :
    o.2.last.seeks = o.1.player.seeks := by
  have := h.holds.last.seeks_le
  omega

/-- Bringing the player up to the present moves its position by little. -/
theorem Stands.settle_unsought (h : o.Stands duration now) (hgap : now ≤ o.2.last.time + 300)
    (hseeks : o.1.player.seeks = 0) :
    (o.1.player.settle now).seeks = 0 ∧
      (o.1.player.settle now).position.isFinite = o.1.player.position.isFinite := by
  have hsteady := (h.holds.last.moves (h.last_seeks hseeks)).2
  have hmove := h.player.settle_moves hsteady (h.anchored_gap hgap)
  exact ⟨(o.1.player.settle_seeks now).trans hseeks, (Bool.eq_iff_iff.mpr hmove.isFinite_iff).symm⟩

/-- A sample of a position that is not finite leaves a seek noticed, and a seek stays noticed. -/
theorem Stands.lastSeek_watching (h : o.Stands duration now) (hgap : now ≤ o.2.last.time + 300)
    (hu : o.Unsought false pending) {s : Sample} {e : CaptureEvent}
    (hs : e = .sample .position → s = .position (o.1.player.look now).position (.ofMillis now))
    (hnoticed : o.1.recorder.lastSeek.isSome = true ∨ e = .sample .position) :
    (o.1.recorder.observe s).lastSeek.isSome = true := by
  rcases hnoticed with hnoticed | he
  · rcases o.1.recorder.observe_lastSeek s with hsame | hsome
    · rw [hsame]
      exact hnoticed
    · exact hsome
  · have hsettled := h.settle hgap
    obtain ⟨hseeks, hfin⟩ := h.settle_unsought hgap hu.seeks
    have hanchored := o.1.player.settle_anchored now
    have hfar := h.follows.far_of_not_isFinite hsettled.holds h.reachable
      (by rw [hanchored]; exact hgap) (hsettled.last_seeks hseeks)
      (by rw [hfin, hu.position]; nofun)
    rw [hanchored] at hfar
    rw [hs he]
    exact Recorder.lastSeek_of_far hfar

/-- Where no seek has been carried out, one is reported only if the position is not finite. -/
theorem Stands.seek_reported_iff (h : o.Stands duration now) (hu : o.Unsought finite False) :
    (∃ s ∈ o.2.rows, s.seek = true) ↔ finite = false := by
  constructor
  · rintro ⟨s, hs, hseek⟩
    have hrow := h.holds.rows s hs
    have hseeks : s.left.seeks = o.1.player.seeks := by
      have := hrow.left.seeks_le
      have := hu.seeks
      omega
    have hmove := (hrow.left.moves hseeks).1
    rw [← hu.position]
    exact Bool.eq_false_iff.mpr (hmove.isFinite_iff.not.mp (hrow.unsought hseek hseeks))
  · intro hfin
    obtain ⟨b, hb⟩ := Option.isSome_iff_exists.mp ((hu.noticed hfin).resolve_right not_false)
    have hmarked := (h.follows.marked.seek b hb).1
    rw [Recorder.kinds, List.getElem?_map] at hmarked
    obtain ⟨e, he, hkind⟩ := Option.map_eq_some_iff.mp hmarked
    exact (seek_mem_iff h.follows.tracks).mp ⟨e, List.mem_of_getElem? he, hkind⟩

theorem Unsought.watching (hu : o.Unsought finite pending) (h : o.Stands duration now)
    (hgap : now ≤ o.2.last.time + 300) {e : CaptureEvent} {pending' : Prop}
    (hp : pending → e = .sample .position ∨ pending') (ts : Timers Signal CaptureEvent) :
    (CaptureState.watching now e (o, ts)).1.Unsought finite pending' := by
  obtain ⟨s, q, _, hq, hs, heq⟩ := CaptureState.watching_eq h.player (h.anchored_gap hgap) e ts
  obtain ⟨hseeks, hfin⟩ := h.settle_unsought hgap hu.seeks
  obtain ⟨hseeks', hfin'⟩ := (h.settle hgap).settle_unsought hgap hseeks
  rw [heq]
  refine ⟨?_, ?_, fun hinf => ?_⟩
  · rcases hq with rfl | rfl
    · exact hseeks
    · exact hseeks'
  · rcases hq with rfl | rfl
    · exact hfin.trans hu.position
    · exact (hfin'.trans hfin).trans hu.position
  · subst hinf
    rcases hu.noticed rfl with hnoticed | hpending
    · exact .inl (h.lastSeek_watching hgap hu hs (.inl hnoticed))
    · exact (hp hpending).imp_left fun he => h.lastSeek_watching hgap hu hs (.inr he)

end WatchedState

namespace WatchLoop

variable {duration : Seconds} {l : WatchLoop} {finite opening : Bool}

/-- Between two rounds. At the opening the position has yet to be sampled if its ticker is due. -/
def UnsoughtRest (finite opening : Bool) (l : WatchLoop) : Prop :=
  l.owner.Unsought finite
    (opening = true ∧ ∃ t ∈ l.timers, t.event = .sample .position ∧ t.due l.lag ≤ l.now)

def UnsoughtWork (finite opening : Bool) (l : WatchLoop) : Prop :=
  l.owner.Unsought finite (opening = true ∧ .sample .position ∈ l.inbox)

theorem UnsoughtRest.fire (hu : UnsoughtRest finite opening l) (h : AtRest duration l) :
    UnsoughtWork finite opening l.fire :=
  hu.mono fun ⟨hopen, t, ht, he, hdue⟩ => by
    have hnow := Nat.le_antisymm hdue (h.steady.punctual t ht)
    have hevent := List.mem_map_of_mem (f := fun t : Timer Signal CaptureEvent => t.event)
      (h.steady.mem_firing.mpr ⟨ht, hnow⟩)
    exact ⟨hopen, List.mem_append_right _ (he ▸ hevent)⟩

theorem UnsoughtWork.heed (hu : UnsoughtWork finite opening l) (h : AtWork duration l)
    {e : CaptureEvent} {es : List CaptureEvent} (hes : l.inbox = e :: es) :
    UnsoughtWork finite opening { l.heed CaptureState.watching e with inbox := es } := by
  refine hu.watching h.stands h.recent (fun ⟨hopen, hmem⟩ => ?_) l.timers
  rw [hes] at hmem
  exact (List.mem_cons.mp hmem).imp Eq.symm fun hlater => ⟨hopen, hlater⟩

theorem UnsoughtWork.drained (hu : UnsoughtWork finite opening l) (hinbox : l.inbox = []) :
    UnsoughtRest finite opening l :=
  hu.mono fun ⟨_, hmem⟩ => by
    rw [hinbox] at hmem
    cases hmem

theorem UnsoughtRest.wait (hu : UnsoughtRest finite opening l) {later : Nat}
    (hle : l.now ≤ later) : UnsoughtRest finite opening { l with now := later } :=
  hu.mono fun ⟨hopen, t, ht, he, hdue⟩ => ⟨hopen, t, ht, he, Nat.le_trans hdue hle⟩

theorem unsoughtRegime (finite opening : Bool) :
    EventLoop.Regime CaptureState.watching
      (fun l => AtRest duration l ∧ UnsoughtRest finite opening l)
      (fun l => AtWork duration l ∧ UnsoughtWork finite opening l) :=
  regime.refine (fun h hu => hu.fire h) (fun h hu hes => hu.heed h hes)
    (fun _ hu hes => hu.drained hes) (fun _ hu _ hle _ => hu.wait hle)

structure Unsampled (l : WatchLoop) : Prop where
  seekless : .seek ∉ l.owner.1.recorder.kinds
  marks : ∀ e ∈ l.inbox, e = .mark

/-- When nothing is due any more the opening is over. -/
theorem UnsoughtRest.opened (hu : UnsoughtRest finite opening l) (hq : l.quiet = true) :
    UnsoughtRest finite false l :=
  hu.mono fun ⟨_, t, ht, _, hdue⟩ =>
    absurd ((EventLoop.quiet_iff.mp hq).2 t ht) (Nat.not_lt_of_le hdue)

end WatchLoop

namespace Watch

variable {w : Watch} {duration : Seconds} {finite opening : Bool}

open WatchLoop

theorem unsought_perform (hrest : AtRest duration w.loop)
    (hu : UnsoughtRest finite opening w.loop) {call : PlayerCall} (hcall : call.isSeek = false) :
    UnsoughtRest finite opening (w.perform call).loop := by
  have hobeys := hrest.stands.player.perform (hrest.stands.anchored_gap hrest.recent)
    (c := call) fun hseek => by cases hseek.symm.trans hcall
  obtain ⟨hseeks, hfin⟩ := hrest.stands.settle_unsought hrest.recent hu.seeks
  have hposition := (hobeys.position hcall).1
  refine ⟨?_, ?_, hu.noticed⟩
  · change (w.player.perform w.loop.now call).2.seeks = 0
    rw [show (w.player.perform w.loop.now call).2.seeks = _ from hobeys.seeks, hcall]
    exact hseeks
  · change (w.player.perform w.loop.now call).2.position.isFinite = finite
    rw [show (w.player.perform w.loop.now call).2.position = _ from hposition]
    exact hfin.trans hu.position

theorem unsought_act (h : AtRest duration w.loop ∧ UnsoughtRest finite opening w.loop)
    {a : CaptureAct} (ha : a.isSeek = false) :
    AtRest duration (w.act a).loop ∧
      UnsoughtRest finite (opening && !a.runs) (w.act a).loop := by
  have hsettled := (unsoughtRegime finite opening).settle h
  have hopened : AtRest duration (w.loop.settle CaptureState.watching) ∧
      UnsoughtRest finite false (w.loop.settle CaptureState.watching) :=
    ⟨hsettled.1.1, hsettled.1.2.opened hsettled.2⟩
  obtain ⟨hrest, hu⟩ := h
  cases a with
  | perform call =>
    rw [show (opening && !(CaptureAct.perform call).runs) = opening from Bool.and_true _]
    have hrest' := atRest_act (a := .perform call) hrest fun hseek => by
      cases hseek.symm.trans ha
    exact ⟨hrest', unsought_perform hrest hu ha⟩
  | mark =>
    rw [show (opening && !CaptureAct.mark.runs) = opening from Bool.and_true _]
    exact ⟨atRest_act hrest nofun, hu⟩
  | settle =>
    rw [show (opening && !CaptureAct.settle.runs) = false from Bool.and_false _]
    exact hopened
  | advance ms =>
    rw [show (opening && !(CaptureAct.advance ms).runs) = false from Bool.and_false _]
    change AtRest duration (w.loop.advance _ ms) ∧ UnsoughtRest finite false (w.loop.advance _ ms)
    rw [← EventLoop.advance_settle hsettled.2]
    exact ((unsoughtRegime finite false).advance hopened ms).1
  | approach ms =>
    rw [show (opening && !(CaptureAct.approach ms).runs) = false from Bool.and_false _]
    change AtRest duration (w.loop.approach _ ms) ∧ UnsoughtRest finite false (w.loop.approach _ ms)
    rw [← EventLoop.approach_settle hsettled.2]
    exact (unsoughtRegime finite false).approach hopened ms

theorem unsought_run (h : AtRest duration w.loop ∧ UnsoughtRest finite opening w.loop)
    {acts : List CaptureAct} (hacts : ∀ a ∈ acts, a.isSeek = false) :
    AtRest duration (w.run acts).loop ∧
      UnsoughtRest finite (opening && !acts.any CaptureAct.runs) (w.run acts).loop := by
  induction acts generalizing w opening with
  | nil =>
    rw [List.any_nil, Bool.not_false, Bool.and_true]
    exact h
  | cons a acts ih =>
    obtain ⟨ha, hacts⟩ := List.forall_mem_cons.mp hacts
    rw [List.any_cons, Bool.not_or, ← Bool.and_assoc]
    exact ih (unsought_act h ha) hacts

theorem launch_unsought {p : SimulatedPlayer} (hp : p.Fresh) (id : Uuid) (document : Int) :
    ∃ w, launch {} id document p = .ok w ∧
      (AtRest p.duration w.loop ∧ UnsoughtRest (p.look 0).position.isFinite true w.loop) ∧
      Unsampled w.loop := by
  obtain ⟨w, hw, hrest, hseeks, hlast, hinbox, hkinds, hticker⟩ := launch_ok hp id document
  have hmove := (hrest.stands.holds.last.moves (hrest.stands.last_seeks hseeks)).1
  have hfin : w.player.position.isFinite = (p.look 0).position.isFinite := by
    rw [← hlast]
    exact (Bool.eq_iff_iff.mpr hmove.isFinite_iff).symm
  refine ⟨w, hw, ⟨hrest, hseeks, hfin, fun _ => .inr ⟨rfl, hticker⟩⟩, ?_, ?_⟩
  · rw [hkinds]
    exact List.not_mem_nil
  · rw [hinbox]
    exact fun e he => absurd he List.not_mem_nil

/-- As long as nothing runs, nothing is sampled. -/
theorem unsampled_run (h : Unsampled w.loop) {acts : List CaptureAct}
    (hacts : ∀ a ∈ acts, a.runs = false) : Unsampled (w.run acts).loop := by
  induction acts generalizing w with
  | nil => exact h
  | cons a acts ih =>
    obtain ⟨ha, hacts⟩ := List.forall_mem_cons.mp hacts
    refine ih ?_ hacts
    cases a with
    | perform call => exact ⟨h.seekless, h.marks⟩
    | mark =>
      refine ⟨h.seekless, fun e he => ?_⟩
      exact (List.mem_append.mp he).elim (h.marks e) List.mem_singleton.mp
    | settle => cases ha
    | advance ms => cases ha
    | approach ms => cases ha

end Watch

/-- A recording that is stopped before anything was sampled has no seek. -/
theorem WatchLoop.Unsampled.stop_seekless {w : Watch} {duration : Seconds}
    (h : w.loop.Unsampled) (hrest : AtRest duration w.loop) :
    ∃ r, w.capture.stop = .ok r ∧ ¬ ∃ e ∈ r.events, e.kind = .seek := by
  have hmark : ∀ {o : WatchedState} {e : CaptureEvent}, e ∈ w.loop.inbox →
      .seek ∉ o.1.recorder.kinds →
      .seek ∉ (CaptureState.watching w.loop.now e (o, w.loop.timers)).1.1.recorder.kinds := by
    intro o e he hseekless
    rw [h.marks e he]
    change .seek ∉ (Recorder.push _ .manual _ _ _ _).kinds
    rw [Recorder.push_kinds]
    simpa using hseekless
  obtain ⟨hstands, hseekless⟩ := Watch.stands_drain (P := fun o => .seek ∉ o.1.recorder.kinds)
    hrest (fun _ _ he hseekless => hmark he hseekless) h.seekless
  obtain ⟨r, hr, htracks⟩ := Watch.stop_ok hstands
  refine ⟨r, hr, fun hseek => ?_⟩
  obtain ⟨e, he, hkind⟩ := (seek_mem_iff hstands.follows.tracks).mpr ((seek_mem_iff htracks).mp hseek)
  exact hseekless (hkind ▸ List.mem_map_of_mem he)

/-! ## Recordings -/

namespace Capture

/-- A recording of a player that nobody sought in has a seek exactly when the position at its start
is not finite and was sampled, as it is as soon as anything runs. -/
theorem seek_recorded_iff {p : SimulatedPlayer} (hp : p.Fresh) (id : Uuid) (document : Int)
    {acts : List CaptureAct} (hacts : ∀ a ∈ acts, a.isSeek = false) :
    ∃ c r, Capture.launch {} id document p = .ok c ∧ (c.run acts).stop = .ok r ∧
      ((∃ e ∈ r.events, e.kind = .seek) ↔
        (p.look 0).position.isFinite = false ∧ ∃ a ∈ acts, a.runs = true) := by
  obtain ⟨w, hw, hopen, hunsampled⟩ := Watch.launch_unsought hp id document
  have hc := Watch.capture_launch {} id document p
  rw [hw] at hc
  obtain ⟨hrest, hu⟩ := Watch.unsought_run hopen hacts
  suffices h : ∃ r, (w.run acts).capture.stop = .ok r ∧ ((∃ e ∈ r.events, e.kind = .seek) ↔
      (p.look 0).position.isFinite = false ∧ acts.any CaptureAct.runs = true) by
    obtain ⟨r, hr, hseek⟩ := h
    rw [Watch.capture_run] at hr
    exact ⟨w.capture, r, hc.symm, hr, by rwa [List.any_eq_true] at hseek⟩
  cases hruns : acts.any CaptureAct.runs with
  | true =>
    rw [hruns] at hu
    obtain ⟨hstands, hu⟩ := Watch.stands_drain hrest
      (fun h hgap _ hu => hu.watching h hgap (fun hfalse => hfalse.elim) _)
      (hu.mono fun hpending => Bool.false_ne_true hpending.1)
    obtain ⟨r, hr, htracks⟩ := Watch.stop_ok hstands
    refine ⟨r, hr, ?_⟩
    rw [seek_mem_iff htracks, and_iff_left rfl]
    exact hstands.seek_reported_iff hu
  | false =>
    have hunsampled := Watch.unsampled_run hunsampled fun a ha =>
      Bool.eq_false_iff.mpr (List.any_eq_false.mp hruns a ha)
    obtain ⟨r, hr, hseekless⟩ := hunsampled.stop_seekless hrest
    exact ⟨r, hr, iff_of_false hseekless fun h => Bool.false_ne_true h.2⟩

def restless : List CaptureAct :=
  [.perform (.setRate 2), .advance 40, .perform (.setRate 5), .perform .pause, .approach 60,
    .perform .play, .advance 270, .perform (.setRate 0.25), .mark, .perform (.setVolume 30),
    .advance 700, .perform .pause, .advance 500, .perform .play, .perform (.setRate 2),
    .advance 2000, .perform .play, .settle]

theorem restless_seekless : ∃ c r,
    Capture.launch {} ⟨0⟩ 1 (.playingFrom 3 0.5) = .ok c ∧ (c.run restless).stop = .ok r ∧
      ¬ ∃ e ∈ r.events, e.kind = .seek := by
  have hlength : (0 : Seconds) ≤ 3 := by decide +kernel
  have hacts : ∀ a ∈ restless, a.isSeek = false := by decide
  obtain ⟨c, r, hc, hr, hseek⟩ :=
    seek_recorded_iff (.playingFrom 3 0.5 hlength) ⟨0⟩ 1 hacts
  have hfin : ¬ (SimulatedPlayer.look (.playingFrom 3 0.5) 0).position.isFinite = false := by
    decide +kernel
  exact ⟨c, r, hc, hr, hseek.not.mpr fun h => hfin h.1⟩

theorem eq_ok_of_toOption {ε α : Type} {x : Except ε α} {a : α} (h : x.toOption = some a) :
    x = .ok a := by
  cases x with
  | error e => cases h
  | ok b => exact congrArg Except.ok (Option.some.inj h)

def endless : SimulatedPlayer := .playingFrom (.infinite false) (.infinite false)

/-- Nobody seeks, and yet a seek is recorded. -/
theorem endless_seek_recorded :
    0 < endless.duration ∧ endless.Fresh ∧ (CaptureAct.advance 100).isSeek = false ∧
      ∃ c r, Capture.launch {} ⟨0⟩ 1 endless = .ok c ∧ (c.run [.advance 100]).stop = .ok r ∧
        ∃ e ∈ r.events, e.kind = .seek := by
  have hpositive : 0 < endless.duration := by decide +kernel
  have hfresh : endless.Fresh := .playingFrom _ _ (le_of_lt hpositive)
  have hseek : ((Capture.launch {} ⟨0⟩ 1 endless).toOption.bind fun c =>
      (c.run [.advance 100]).stop.toOption.map fun r => r.events.any fun e => e.kind = .seek) =
        some true := by
    decide +kernel
  obtain ⟨c, hc, hseek⟩ := Option.bind_eq_some_iff.mp hseek
  obtain ⟨r, hr, hseek⟩ := Option.map_eq_some_iff.mp hseek
  refine ⟨hpositive, hfresh, rfl, c, r, eq_ok_of_toOption hc, eq_ok_of_toOption hr, ?_⟩
  simpa using hseek

end Capture

end PlaybackCues
