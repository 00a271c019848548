import PlaybackCues.Proofs.Recording.Captures

set_option autoImplicit false

/-!
# Where a recording is contiguous

An event that follows another one in a recording should not lie before the position from which
playback went on after it, or its window could not be closed there. The recorder looks at the player
from time to time only, so a change that is noticed between a seek and the next look at the position
stands before the seek in the recording, though it was made at the destination. Where no seek comes
between the two looks that a pair of events rests on, there is no such gap.
-/
namespace PlaybackCues

open Binary64

/-! ## The beginning of a run -/

/-- A player that has just been built. Playing from a position takes a medium with a length. -/
inductive SimulatedPlayer.Fresh : SimulatedPlayer → Prop
  | unstarted (duration : Seconds) : Fresh (unstarted duration)
  | playingFrom (duration position : Seconds) : 0 ≤ duration → Fresh (playingFrom duration position)

namespace SimulatedPlayer.Fresh

variable {p : SimulatedPlayer}

theorem sound (h : p.Fresh) : p.Sound := by
  have hrate : (1 : Binary64).within minRate maxRate = true := by decide +kernel
  have hzero : (0 : Binary64) ≤ 0 := le_refl isFinite_zero
  cases h with
  | unstarted duration => exact ⟨rfl, rfl, hrate, .inr hzero, nofun⟩
  | playingFrom duration position hd =>
    have hclamp := clamp_between position hd
    exact ⟨rfl, rfl, hrate, hclamp.imp_right And.left, fun _ => ⟨hd, hclamp.imp_right And.right⟩⟩

theorem seeks (h : p.Fresh) : p.seeks = 0 := by
  cases h <;> rfl

end SimulatedPlayer.Fresh

namespace Watch

variable {p : SimulatedPlayer}

theorem stands_opening (hp : p.Fresh) (id : Uuid) (document : Int) (first : Snapshot)
    (htime : first.time = (p.settle 0).position)
    (hrate : first.rate.within minRate maxRate = true) :
    WatchedState.Stands p.duration 0
      (⟨p.settle 0, Recorder.start {} id document first (Timestamp.ofMillis 0)⟩,
        { last := p.look 0 }) := by
  have hgap : 0 ≤ p.anchored + 300 := Nat.zero_le _
  have hsettled := hp.sound.settle hgap
  have hshows := hp.sound.look_shows 0
  refine ⟨hsettled, (p.settle_levels 0).2, Nat.le_of_eq (p.settle_anchored 0),
    ⟨rfl, hrate, htime, rfl, rfl, nofun, nofun⟩, ?_, hsettled.reachable⟩
  exact Report.holds_opening hshows ((p.settle_seeks 0).trans hp.seeks)

/-- A watch that has looked at the player for the first time is about to sample its position. -/
theorem launch_ok (hp : p.Fresh) (id : Uuid) (document : Int) :
    ∃ w, launch {} id document p = .ok w ∧ WatchLoop.AtRest p.duration w.loop ∧
      w.player.seeks = 0 ∧ w.report.last = p.look 0 ∧ w.loop.inbox = [] ∧
      w.loop.owner.1.recorder.kinds = [] ∧
      ∃ t ∈ w.loop.timers, t.event = .sample .position ∧ t.due w.loop.lag ≤ w.loop.now := by
  have hlevels (q : SimulatedPlayer) : (q.settle 0).rate = q.rate := (q.settle_levels 0).1
  have hstands := stands_opening hp id document
    ⟨(p.settle 0).position, ((p.settle 0).settle 0).volume,
      (((p.settle 0).settle 0).settle 0).rate,
      ((((p.settle 0).settle 0).settle 0).settle 0).state⟩ rfl (by
        simp only [hlevels]
        exact hp.sound.rate)
  have hstands := ((hstands.settle (Nat.zero_le _)).settle (Nat.zero_le _)).settle (Nat.zero_le _)
  have hsteady : Timers.Steady 0 0 (Capture.tickers {}) :=
    ⟨by decide, fun t ht => Nat.zero_le _, by decide⟩
  have hticker : ⟨.position, 0, .sample .position, some 300⟩ ∈ Capture.tickers {} := by
    simp [Capture.tickers, Signal.all, Signal.period]
  have hrest : WatchLoop.AtRest p.duration { timers := Capture.tickers {}, owner := _ } :=
    ⟨rfl, hsteady, hstands, _, hticker, rfl, rfl, Nat.zero_le _⟩
  unfold launch
  rw [SimulatedPlayer.snapshot_eq hp.sound.failures]
  refine ⟨_, rfl, hrest, ?_, rfl, rfl, rfl, _, hticker, rfl, Nat.le_refl _⟩
  simp only [player, SimulatedPlayer.settle_seeks, hp.seeks]

theorem stop_ok {w : Watch} {duration : Seconds} {now : Nat}
    (h : w.drain.loop.owner.Stands duration now) :
    ∃ r, w.capture.stop = .ok r ∧
      r.events.map RecordedEvent.track = w.drain.report.rows.map Sighting.track := by
  have htracks := Recorder.closePause_tracks h.follows.marked (.ofMillis w.loop.now)
  exact ⟨_, w.stop_capture, htracks.trans h.follows.tracks⟩

end Watch

/-! ## Contiguity -/

/-- The report of a watch vouches for the times of a recording. -/
structure Report.Vouches (w : Report) (r : Recording) : Prop where
  /-- Each event has looks, and playback goes on from where it arrived. -/
  length : w.rows.length = r.events.length
  resumption : ∀ (i : Nat) e s, r.events[i]? = some e → w.rows[i]? = some s →
    e.resumption = s.arrived.position
  /-- Anything but a seek has the time of the look at which it was noticed. -/
  level : ∀ (i : Nat) e s, r.events[i]? = some e → w.rows[i]? = some s → e.kind ≠ .seek →
    e.time = s.left.position ∧ s.arrived = s.left
  /-- A seek has the time that is predicted from the last look. -/
  seek : ∀ (i : Nat) e s, r.events[i]? = some e → w.rows[i]? = some s → e.kind = .seek →
    ¬ e.time < s.left.position ∧ ¬ s.left.position + leap < e.time
  /-- This is about where the first seek after that look found the player. -/
  departure : ∀ (i : Nat) e s q, r.events[i]? = some e → w.rows[i]? = some s → e.kind = .seek →
    w.departures[s.left.seeks]? = some q → ¬ e.time < q - leap ∧ ¬ q < e.time - leap
  /-- And there was such a seek. -/
  sought : ∀ (i : Nat) e s, r.events[i]? = some e → w.rows[i]? = some s → e.kind = .seek →
    s.left.position.isFinite = true → s.left.seeks < w.departures.length
  /-- Events in a row leave no gap to fall back into unless a seek comes between their looks. -/
  contiguous : ∀ (i : Nat) e f s t, r.events[i]? = some e → r.events[i + 1]? = some f →
    w.rows[i]? = some s → w.rows[i + 1]? = some t → s.arrived.seeks = t.left.seeks →
    ¬ f.time < e.resumption - leap

theorem Foreseen.near {a t : Seconds} (h : Foreseen a t) : ¬ t < a ∧ ¬ a + leap < t := by
  rcases h with ⟨hnan, _⟩ | hmove
  · rw [eq_nan hnan, nan_add]
    exact ⟨not_lt_nan _, not_nan_lt _⟩
  · exact ⟨hmove.not_lt, hmove.meets_back.not_add_lt⟩

theorem Foreseen.departs {a t q : Seconds} (h : Foreseen a t) (hq : Moves 300 a q) :
    ¬ t < q - leap ∧ ¬ q < t - leap := by
  rcases h with ⟨hnan, _⟩ | hmove
  · rw [eq_nan (hq.isNaN_eq.symm.trans hnan), nan_sub]
    exact ⟨not_lt_nan _, not_nan_lt _⟩
  · exact ⟨(hq.meets_of_common hmove).not_lt, (hmove.meets_of_common hq).not_lt⟩

theorem track_getElem? {events : List RecordedEvent} {rows : List Sighting}
    (h : events.map RecordedEvent.track = rows.map Sighting.track) {i : Nat} {e : RecordedEvent}
    {s : Sighting} (he : events[i]? = some e) (hs : rows[i]? = some s) :
    e.time = s.time ∧ e.resumption = s.arrived.position ∧ (e.kind = .seek ↔ s.seek = true) := by
  have hi := congrArg (fun l => l[i]?) h
  simp only [List.getElem?_map, he, hs, Option.map_some, Option.some.injEq, RecordedEvent.track,
    Sighting.track, Prod.mk.injEq] at hi
  obtain ⟨htime, hres, hseek⟩ := hi
  exact ⟨htime, hres, by rw [← hseek, decide_eq_true_eq]⟩

theorem Report.Holds.vouches {w : Report} {p : SimulatedPlayer} (h : w.Holds p) {r : Recording}
    (htracks : r.events.map RecordedEvent.track = w.rows.map Sighting.track) : w.Vouches r where
  length := by simpa using (congrArg List.length htracks).symm
  resumption i e s he hs := (track_getElem? htracks he hs).2.1
  level i e s he hs hlevel := by
    obtain ⟨htime, _, hseek⟩ := track_getElem? htracks he hs
    rw [htime]
    exact (h.rows s (List.mem_of_getElem? hs)).level (Bool.eq_false_iff.mpr (hlevel ∘ hseek.mpr))
  seek i e s he hs hkind := by
    obtain ⟨htime, _, hseek⟩ := track_getElem? htracks he hs
    rw [htime]
    exact ((h.rows s (List.mem_of_getElem? hs)).foreseen (hseek.mp hkind)).near
  departure i e s q he hs hkind hq := by
    obtain ⟨htime, _, hseek⟩ := track_getElem? htracks he hs
    have hrow := h.rows s (List.mem_of_getElem? hs)
    rw [htime]
    exact (hrow.foreseen (hseek.mp hkind)).departs (hrow.departs (hseek.mp hkind) q hq)
  sought i e s he hs hkind hfin := by
    have hrow := h.rows s (List.mem_of_getElem? hs)
    have hseek := (track_getElem? htracks he hs).2.2.mp hkind
    have hle := hrow.left.seeks_le
    rw [h.departures]
    exact Nat.lt_of_le_of_ne hle fun heq => hrow.unsought hseek heq hfin
  contiguous i e f s t he hf hs ht hseeks := by
    obtain ⟨_, hres, _⟩ := track_getElem? htracks he hs
    obtain ⟨htime, _, _⟩ := track_getElem? htracks hf ht
    rw [hres, htime]
    exact (h.meet i s t hs ht hseeks).not_lt

/-- The finished recording of any run has the looks that its watch reports in the end, and is
contiguous where no seek comes between them. -/
theorem Watch.report_vouches {p : SimulatedPlayer} (hp : p.Fresh) (id : Uuid) (document : Int)
    {acts : List CaptureAct} (hacts : ∀ a ∈ acts, a.isSeek = true → 0 ≤ p.duration) :
    ∃ c w r, Capture.launch {} id document p = .ok c ∧ Watch.launch {} id document p = .ok w ∧
      (w.run acts).capture = c.run acts ∧ (c.run acts).stop = .ok r ∧
      (w.run acts).drain.report.Vouches r := by
  obtain ⟨w, hw, hrest, _⟩ := launch_ok hp id document
  have hc := capture_launch {} id document p
  rw [hw] at hc
  obtain ⟨hstands, _⟩ := stands_drain (P := fun _ => True) (atRest_run hrest hacts)
    (fun _ _ _ _ => trivial) trivial
  obtain ⟨r, hr, htracks⟩ := stop_ok hstands
  have hcapture := w.capture_run acts
  exact ⟨w.capture, w, r, hc.symm, hw, hcapture, hcapture ▸ hr, hstands.holds.vouches htracks⟩

def unseenSeek : List CaptureAct :=
  [.settle, .mark, .settle, .advance 1000, .perform (.seek 100), .mark, .settle, .advance 200]

theorem unseenSeek_vouched : ∃ c w r,
    Capture.launch {} ⟨0⟩ 1 (.playingFrom 120 10) = .ok c ∧
      Watch.launch {} ⟨0⟩ 1 (.playingFrom 120 10) = .ok w ∧
      (w.run unseenSeek).capture = c.run unseenSeek ∧ (c.run unseenSeek).stop = .ok r ∧
      (w.run unseenSeek).drain.report.Vouches r :=
  have hlength : (0 : Seconds) ≤ 120 := by decide +kernel
  Watch.report_vouches (.playingFrom 120 10 hlength) ⟨0⟩ 1 fun _ _ _ => hlength

/-- No event lies before the position from which playback went on after the one before it, by more
than a leap. -/
def Recording.Contiguous (r : Recording) : Prop :=
  ∀ (i : Nat) e f, r.events[i]? = some e → r.events[i + 1]? = some f →
    ¬ f.time < e.resumption - leap

/-- The seek is recorded after the mark, with a time far before it. -/
theorem unseenSeek_not_contiguous : ∃ c r,
    Capture.launch {} ⟨0⟩ 1 (.playingFrom 120 10) = .ok c ∧ (c.run unseenSeek).stop = .ok r ∧
      ¬ r.Contiguous := by
  have hlapse : ((Capture.launch {} ⟨0⟩ 1 (.playingFrom 120 10)).toOption.bind fun c =>
      (c.run unseenSeek).stop.toOption.bind fun r => r.events[1]?.bind fun e =>
        r.events[2]?.map fun f => decide (f.time < e.resumption - leap)) = some true := by
    decide +kernel
  cases hc : Capture.launch {} ⟨0⟩ 1 (.playingFrom 120 10) with
  | error e =>
    rw [hc] at hlapse
    cases hlapse
  | ok c =>
    rw [hc] at hlapse
    cases hr : (c.run unseenSeek).stop with
    | error e =>
      simp only [Except.toOption, Option.bind_some, hr, Option.bind_none] at hlapse
      cases hlapse
    | ok r =>
      simp only [Except.toOption, Option.bind_some, hr] at hlapse
      obtain ⟨e, he, hlapse⟩ := Option.bind_eq_some_iff.mp hlapse
      obtain ⟨f, hf, hlapse⟩ := Option.map_eq_some_iff.mp hlapse
      exact ⟨c, r, rfl, hr, fun h => h 1 e f he hf (of_decide_eq_true hlapse)⟩

end PlaybackCues
