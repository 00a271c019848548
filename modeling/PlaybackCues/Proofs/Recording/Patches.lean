import Mathlib.Data.List.Infix
import PlaybackCues.Proofs.Recording.Chains
import PlaybackCues.Proofs.Time.Lengths

set_option autoImplicit false

/-!
# The patches of recorded events

The events of a recorder only grow, but for two values that are settled later. A position far from
the expected one, soon after the last seek, moves the destination of that seek. And the first
sample that shows playback after a pause, or the end of the recording, gives the pause its length.
-/
namespace PlaybackCues

open Binary64

def Sample.moment : Sample → Timestamp
  | .volume _ _ now | .rate _ _ now | .position _ now | .state _ _ now | .mark _ now => now

def Sample.playing? : Sample → Option Timestamp
  | .state _ .playing now => some now
  | _ => none

def pauseLength (since now : Timestamp) : Binary64 := (Seconds.ofNanos (since.elapsed now)).round

theorem pauseLength_of_millis {since now : Timestamp} {ms : Nat} (hms : ms ≤ 1000 * twoTo 29)
    (h : since.elapsed now = ms * 1000000) : pauseLength since now = .ofNat ((ms + 500) / 1000) := by
  rw [pauseLength, h, ← Seconds.ofMillis, round_ofMillis hms]

/-- A level or a mark is neither a seek nor a pause. -/
theorem RecordedEvent.ne_of_isLevel {e : RecordedEvent} (h : e.kind.isLevel = true) :
    e.kind ≠ .seek ∧ e.kind ≠ .pause := by
  constructor <;>
  · intro hkind
    rw [hkind] at h
    cases h

namespace Bookmark

variable {b : Bookmark} {kind : EventKind} {events : List RecordedEvent} {e : RecordedEvent}

def Marks (b : Bookmark) (kind : EventKind) (events : List RecordedEvent) : Prop :=
  ∃ e, Newest kind events b.index e ∧ e.captured = b.since

theorem marks_added (hkind : e.kind = kind) (events : List RecordedEvent) :
    Marks ⟨events.length, e.captured⟩ kind (events ++ [e]) :=
  ⟨e, Newest.added hkind events, rfl⟩

theorem Marks.concat (h : b.Marks kind events) (hkind : e.kind ≠ kind) :
    b.Marks kind (events ++ [e]) := by
  obtain ⟨d, hnewest, hsince⟩ := h
  exact ⟨d, hnewest.concat hkind, hsince⟩

theorem Marks.revalued (h : b.Marks kind events) (i : Nat) (value : Binary64) :
    b.Marks kind (revalued events i value) := by
  obtain ⟨d, hnewest, hsince⟩ := h
  obtain ⟨d', hnewest', hcaptured⟩ := hnewest.revalued i value
  exact ⟨d', hnewest', hcaptured.trans hsince⟩

end Bookmark

namespace Recorder

variable {r r' : Recorder} {x : Sample} {b : Bookmark} {e : RecordedEvent} {i : Nat}

/-! ## What a sample changes -/

inductive Effect (r : Recorder) (x : Sample) (r' : Recorder) : Prop where
  | kept (events : r'.events = r.events) (seek : r'.lastSeek = r.lastSeek)
      (pause : r'.openPause = r.openPause) (still : r'.paused = r.paused ∨ r.openPause = none)
      (running : x.playing? = none ∨ r.paused = false ∨ r.openPause = none)
  | noted (e : RecordedEvent) (events : r'.events = r.events ++ [e])
      (level : e.kind.isLevel = true) (captured : e.captured = x.moment)
      (seek : r'.lastSeek = r.lastSeek) (pause : r'.openPause = r.openPause)
      (still : r'.paused = r.paused) (running : x.playing? = none)
  | sought (e : RecordedEvent) (events : r'.events = r.events ++ [e]) (kind : e.kind = .seek)
      (captured : e.captured = x.moment)
      (seek : r'.lastSeek = some ⟨r.events.length, x.moment⟩)
      (late : ∀ b ∈ r.lastSeek, b.since.Apart x.moment r.sampling.seekDebounce)
      (pause : r'.openPause = r.openPause) (still : r'.paused = r.paused)
      (running : x.playing? = none)
  | moved (b : Bookmark) (time : Seconds) (now : Timestamp) (sample : x = .position time now)
      (bookmark : r.lastSeek = some b) (early : ¬ b.since.Apart now r.sampling.seekDebounce)
      (events : r'.events = revalued r.events b.index time) (seek : r'.lastSeek = r.lastSeek)
      (pause : r'.openPause = r.openPause) (still : r'.paused = r.paused)
  | stopped (e : RecordedEvent) (events : r'.events = r.events ++ [e]) (kind : e.kind = .pause)
      (captured : e.captured = x.moment) (seek : r'.lastSeek = r.lastSeek)
      (pause : r'.openPause = some ⟨r.events.length, x.moment⟩) (before : r.paused = false)
      (after : r'.paused = true) (running : x.playing? = none)
  | resumed (b : Bookmark) (now : Timestamp) (bookmark : r.openPause = some b)
      (running : x.playing? = some now)
      (events : r'.events = revalued r.events b.index (pauseLength b.since now))
      (seek : r'.lastSeek = r.lastSeek) (pause : r'.openPause = none)

theorem effect_volume (r : Recorder) (time : Seconds) (volume : Nat) (now : Timestamp) :
    r.Effect (.volume time volume now) (r.observe (.volume time volume now)) := by
  rw [observe]
  rcases r.observeVolume_eq time volume now with heq | ⟨value, heq⟩ <;> rw [heq]
  · exact .kept rfl rfl rfl (.inl rfl) (.inl rfl)
  · exact .noted _ rfl rfl rfl rfl rfl rfl rfl

theorem effect_rate (r : Recorder) (time : Seconds) (rate : Binary64) (now : Timestamp) :
    r.Effect (.rate time rate now) (r.observe (.rate time rate now)) := by
  rw [observe]
  rcases r.observeRate_eq time rate now with heq | heq <;> rw [heq]
  · exact .kept rfl rfl rfl (.inl rfl) (.inl rfl)
  · exact .noted _ rfl rfl rfl rfl rfl rfl rfl

theorem recentSeek?_eq_some {now : Timestamp} (h : r.recentSeek? now = some b) :
    r.lastSeek = some b ∧ ¬ b.since.Apart now r.sampling.seekDebounce := by
  obtain ⟨hlast, hsoon⟩ := Option.filter_eq_some_iff.mp h
  refine ⟨hlast, fun hapart => ?_⟩
  rw [Timestamp.soonAfter_eq_false_iff.mpr hapart] at hsoon
  cases hsoon

theorem recentSeek?_eq_none {now : Timestamp} (h : r.recentSeek? now = none) (hb : b ∈ r.lastSeek) :
    b.since.Apart now r.sampling.seekDebounce := by
  refine Timestamp.soonAfter_eq_false_iff.mp (Bool.eq_false_iff.mpr fun hsoon => ?_)
  rw [recentSeek?, Option.mem_def.mp hb] at h
  simp [hsoon] at h

theorem effect_position (r : Recorder) (time : Seconds) (now : Timestamp) :
    r.Effect (.position time now) (r.observe (.position time now)) := by
  rw [observe]
  unfold observePosition
  dsimp only
  split
  · exact .kept rfl rfl rfl (.inl rfl) (.inl rfl)
  · split
    · rename_i b hb
      obtain ⟨hlast, hearly⟩ := recentSeek?_eq_some hb
      exact .moved b time now rfl hlast hearly rfl rfl rfl rfl
    · rename_i hnone
      exact .sought _ rfl rfl rfl rfl (fun b hb => recentSeek?_eq_none hnone hb) rfl rfl rfl

theorem effect_state (r : Recorder) (time : Seconds) (state : PlayerState) (now : Timestamp) :
    r.Effect (.state time state now) (r.observe (.state time state now)) := by
  rw [observe]
  unfold observeState
  split
  · rename_i hpaused
    split
    · exact .kept rfl rfl rfl (.inl rfl) (.inl rfl)
    · exact .stopped _ rfl rfl rfl rfl rfl hpaused rfl rfl
  · unfold closePause
    split
    · rename_i b hb
      exact .resumed b now hb rfl rfl rfl rfl
    · rename_i hnone
      exact .kept rfl rfl rfl (.inr hnone) (.inr (.inr hnone))
  · rename_i shown _ _ _ hplay
    refine .kept rfl rfl rfl (.inl rfl) ?_
    cases shown with
    | playing =>
      cases hpaused : r.paused with
      | true => exact absurd hpaused (hplay rfl)
      | false => exact .inr (.inl rfl)
    | unstarted | paused | buffering | ended => exact .inl rfl

/-- Every sample does one of these things. -/
theorem observe_effect (r : Recorder) (x : Sample) : r.Effect x (r.observe x) := by
  cases x with
  | volume time volume now => exact r.effect_volume time volume now
  | rate time rate now => exact r.effect_rate time rate now
  | position time now => exact r.effect_position time now
  | state time state now => exact r.effect_state time state now
  | mark time now => exact .noted _ rfl rfl rfl rfl rfl rfl rfl

/-! ## Seeks -/

structure SeeksApart (r : Recorder) : Prop where
  bookmark : ∀ b, r.lastSeek = some b → b.Marks .seek r.events
  none : r.lastSeek = none → eventsOf .seek r.events = []
  apart : ((eventsOf .seek r.events).map RecordedEvent.captured).IsChain fun since now =>
    since.Apart now r.sampling.seekDebounce

theorem SeeksApart.same (h : r.SeeksApart) (hsampling : r'.sampling = r.sampling)
    (hevents : r'.events = r.events) (hseek : r'.lastSeek = r.lastSeek) : r'.SeeksApart where
  bookmark b hb := hevents ▸ h.bookmark b (hseek ▸ hb)
  none hnone := hevents ▸ h.none (hseek ▸ hnone)
  apart := by
    rw [hevents, hsampling]
    exact h.apart

theorem SeeksApart.add (h : r.SeeksApart) (hsampling : r'.sampling = r.sampling)
    (hevents : r'.events = r.events ++ [e]) (hkind : e.kind ≠ .seek)
    (hseek : r'.lastSeek = r.lastSeek) : r'.SeeksApart where
  bookmark b hb := hevents ▸ (h.bookmark b (hseek ▸ hb)).concat hkind
  none hnone := by
    rw [hevents, eventsOf_concat, if_neg hkind]
    exact h.none (hseek ▸ hnone)
  apart := by
    rw [hevents, eventsOf_concat, if_neg hkind, hsampling]
    exact h.apart

theorem SeeksApart.revalue (h : r.SeeksApart) (hsampling : r'.sampling = r.sampling)
    {value : Binary64} (hevents : r'.events = revalued r.events i value)
    (hseek : r'.lastSeek = r.lastSeek) : r'.SeeksApart where
  bookmark b hb := hevents ▸ (h.bookmark b (hseek ▸ hb)).revalued i value
  none hnone := by
    have hmap := map_captured_eventsOf_revalued .seek r.events i value
    rw [h.none (hseek ▸ hnone)] at hmap
    rw [hevents]
    exact List.map_eq_nil_iff.mp hmap
  apart := by
    rw [hevents, map_captured_eventsOf_revalued, hsampling]
    exact h.apart

theorem SeeksApart.seek (h : r.SeeksApart) (hsampling : r'.sampling = r.sampling)
    (hevents : r'.events = r.events ++ [e]) (hkind : e.kind = .seek)
    (hseek : r'.lastSeek = some ⟨r.events.length, e.captured⟩)
    (hlate : ∀ b ∈ r.lastSeek, b.since.Apart e.captured r.sampling.seekDebounce) :
    r'.SeeksApart where
  bookmark b hb := by
    rw [hseek] at hb
    obtain rfl := Option.some.inj hb
    exact hevents ▸ Bookmark.marks_added hkind r.events
  none hnone := by
    rw [hseek] at hnone
    cases hnone
  apart := by
    rw [hevents, eventsOf_concat, if_pos hkind, hsampling, List.map_append, List.map_singleton]
    refine List.isChain_append.mpr ⟨h.apart, .singleton _, fun since hsince now hnow => ?_⟩
    obtain rfl : e.captured = now := by simpa using hnow
    cases hlast : r.lastSeek with
    | none =>
      rw [h.none hlast] at hsince
      cases hsince
    | some b =>
      obtain ⟨d, hnewest, hcaptured⟩ := h.bookmark b hlast
      rw [List.getLast?_map, hnewest.getLast?] at hsince
      obtain rfl : d.captured = since := by simpa using hsince
      rw [hcaptured]
      exact hlate b hlast

theorem SeeksApart.observe (h : r.SeeksApart) (x : Sample) : (r.observe x).SeeksApart := by
  have hsampling := r.observe_sampling x
  cases r.observe_effect x with
  | kept hevents hseek => exact h.same hsampling hevents hseek
  | noted e hevents hlevel _ hseek =>
    exact h.add hsampling hevents (RecordedEvent.ne_of_isLevel hlevel).1 hseek
  | sought e hevents hkind hcaptured hseek hlate =>
    rw [← hcaptured] at hseek hlate
    exact h.seek hsampling hevents hkind hseek hlate
  | moved b time now _ _ _ hevents hseek => exact h.revalue hsampling hevents hseek
  | stopped e hevents hkind _ hseek => exact h.add hsampling hevents (by rw [hkind]; nofun) hseek
  | resumed b now _ _ hevents hseek => exact h.revalue hsampling hevents hseek

/-! ## Pauses -/

structure PauseOpen (r : Recorder) : Prop where
  bookmark : ∀ b, r.openPause = some b → b.Marks .pause r.events
  paused : ∀ b, r.openPause = some b → r.paused = true

theorem PauseOpen.observe (h : r.PauseOpen) (x : Sample) : (r.observe x).PauseOpen := by
  have hadd {e : RecordedEvent} (hevents : (r.observe x).events = r.events ++ [e])
      (hkind : e.kind ≠ .pause) (hpause : (r.observe x).openPause = r.openPause)
      (hstill : (r.observe x).paused = r.paused) : (r.observe x).PauseOpen := by
    refine ⟨fun b hb => ?_, fun b hb => hstill ▸ h.paused b (hpause ▸ hb)⟩
    exact hevents ▸ (h.bookmark b (hpause ▸ hb)).concat hkind
  cases r.observe_effect x with
  | kept hevents _ hpause hstill =>
    refine ⟨fun b hb => hevents ▸ h.bookmark b (hpause ▸ hb), fun b hb => ?_⟩
    rcases hstill with hstill | hnone
    · exact hstill ▸ h.paused b (hpause ▸ hb)
    · rw [hpause, hnone] at hb
      cases hb
  | noted e hevents hlevel _ _ hpause hstill =>
    exact hadd hevents (RecordedEvent.ne_of_isLevel hlevel).2 hpause hstill
  | sought e hevents hkind _ _ _ hpause hstill =>
    exact hadd hevents (by rw [hkind]; nofun) hpause hstill
  | moved b time now _ _ _ hevents _ hpause hstill =>
    refine ⟨fun b' hb => ?_, fun b' hb => hstill ▸ h.paused b' (hpause ▸ hb)⟩
    exact hevents ▸ (h.bookmark b' (hpause ▸ hb)).revalued b.index time
  | stopped e hevents hkind hcaptured _ hpause _ hafter =>
    refine ⟨fun b hb => ?_, fun b _ => hafter⟩
    rw [hpause, ← hcaptured] at hb
    obtain rfl := Option.some.inj hb
    exact hevents ▸ Bookmark.marks_added hkind r.events
  | resumed b now _ _ _ _ hpause =>
    refine ⟨fun b' hb => ?_, fun b' hb => ?_⟩ <;>
    · rw [hpause] at hb
      cases hb

/-! ## The lengths of pauses -/

/-- The event at the place was added by a sample, and `later` came behind that sample. -/
def Added (r : Recorder) (samples : List Sample) (i : Nat) (later : List Sample) : Prop :=
  ∃ older y, samples = older ++ y :: later ∧ (r.after older).events.length = i ∧
    (r.after (older ++ [y])).events.length = i + 1

def firstPlaying? (samples : List Sample) : Option Timestamp := samples.findSome? Sample.playing?

variable {samples later : List Sample}

theorem Added.concat (h : r.Added samples i later) (x : Sample) :
    r.Added (samples ++ [x]) i (later ++ [x]) := by
  obtain ⟨older, y, rfl, hbefore, hafter⟩ := h
  exact ⟨older, y, by simp, hbefore, hafter⟩

theorem added_concat (hlength : (r.after (samples ++ [x])).events.length =
    (r.after samples).events.length + 1) :
    r.Added (samples ++ [x]) (r.after samples).events.length [] :=
  ⟨samples, x, rfl, rfl, hlength⟩

/-- A pause is open while none of the samples behind it shows that the player is playing. The first
that does gives it its length. -/
inductive Settled (r : Recorder) (later : List Sample) (i : Nat) (e : RecordedEvent) : Prop where
  | waiting (none : firstPlaying? later = none) (pause : r.openPause = some ⟨i, e.captured⟩)
  | ended (now : Timestamp) (first : firstPlaying? later = some now)
      (value : e.value = pauseLength e.captured now) (pause : ∀ b ∈ r.openPause, b.index ≠ i)

theorem firstPlaying?_concat (later : List Sample) (x : Sample) :
    firstPlaying? (later ++ [x]) = (firstPlaying? later).or x.playing? := by
  simp [firstPlaying?, List.findSome?_append]

theorem Settled.keep (h : r.Settled later i e) (hpause : r'.openPause = r.openPause)
    (hrunning : x.playing? = none ∨ r.openPause = none) : r'.Settled (later ++ [x]) i e := by
  cases h with
  | waiting hnone hopen =>
    refine .waiting ?_ (hpause.trans hopen)
    rcases hrunning with hrunning | hclosed
    · rw [firstPlaying?_concat, hnone, hrunning]
      rfl
    · rw [hclosed] at hopen
      cases hopen
  | ended now hfirst hvalue hother =>
    refine .ended now ?_ hvalue (hpause ▸ hother)
    rw [firstPlaying?_concat, hfirst]
    rfl

/-- When another pause opens, the first one has its length. -/
theorem Settled.stop (h : r.Settled later i e) (hi : i < r.events.length)
    (hclosed : r.openPause = none) {since : Timestamp}
    (hpause : r'.openPause = some ⟨r.events.length, since⟩) : r'.Settled (later ++ [x]) i e := by
  cases h with
  | waiting hnone hwait =>
    rw [hclosed] at hwait
    cases hwait
  | ended now hfirst hvalue hother =>
    refine .ended now ?_ hvalue fun b hb => ?_
    · rw [firstPlaying?_concat, hfirst]
      rfl
    · rw [hpause] at hb
      obtain rfl := Option.some.inj hb
      exact Nat.ne_of_gt hi

/-- When the player plays again, the pause that is open gets its length. -/
theorem Settled.resume (h : r.Settled later i e) {b : Bookmark} {now : Timestamp}
    (hbookmark : r.openPause = some b) (hrunning : x.playing? = some now)
    (hpause : r'.openPause = none) : r'.Settled (later ++ [x]) i
      (if b.index = i then { e with value := pauseLength b.since now } else e) := by
  cases h with
  | waiting hnone hwait =>
    rw [hbookmark] at hwait
    obtain rfl := Option.some.inj hwait
    rw [if_pos rfl]
    refine .ended now ?_ (by dsimp only) (by simp [hpause])
    rw [firstPlaying?_concat, hnone, hrunning]
    rfl
  | ended now' hfirst hvalue hother =>
    rw [if_neg (hother b hbookmark)]
    refine .ended now' ?_ hvalue (by simp [hpause])
    rw [firstPlaying?_concat, hfirst]
    rfl

theorem Settled.observe (h : r.Settled later i e) (he : r.events[i]? = some e)
    (hkind : e.kind = .pause) (hm : r.Marked) (hopen : r.PauseOpen) (x : Sample) :
    ∃ d, (r.observe x).events[i]? = some d ∧ (r.observe x).Settled (later ++ [x]) i d := by
  obtain ⟨hlt, _⟩ := List.getElem?_eq_some_iff.mp he
  have hclosed : r.paused = false → r.openPause = none := by
    intro hpaused
    rw [Option.eq_none_iff_forall_ne_some]
    intro b hb
    rw [hopen.paused b hb] at hpaused
    cases hpaused
  have hsame {d : RecordedEvent} (hevents : (r.observe x).events = r.events ++ [d]) :
      (r.observe x).events[i]? = some e := by
    rw [hevents, List.getElem?_append_left hlt, he]
  cases r.observe_effect x with
  | kept hevents _ hpause _ hrunning =>
    exact ⟨e, hevents ▸ he,
      h.keep hpause (hrunning.imp_right fun h => h.elim hclosed fun hnone => hnone)⟩
  | noted d hevents _ _ _ hpause _ hrunning => exact ⟨e, hsame hevents, h.keep hpause (.inl hrunning)⟩
  | sought d hevents _ _ _ _ hpause _ hrunning =>
    exact ⟨e, hsame hevents, h.keep hpause (.inl hrunning)⟩
  | moved b time now hsample hbookmark _ hevents _ hpause =>
    have hne : b.index ≠ i := by
      rintro rfl
      have hseek := kinds_getElem? (hm.seek b hbookmark).1 he
      rw [hkind] at hseek
      cases hseek
    refine ⟨e, ?_, h.keep hpause (.inl (by rw [hsample]; rfl))⟩
    rw [hevents, getElem?_revalued, he, Option.map_some, if_neg hne]
  | stopped d hevents _ _ _ hpause hbefore _ hrunning =>
    exact ⟨e, hsame hevents, h.stop hlt (hclosed hbefore) hpause⟩
  | resumed b now hbookmark hrunning hevents _ hpause =>
    refine ⟨_, ?_, h.resume hbookmark hrunning hpause⟩
    rw [hevents, getElem?_revalued, he, Option.map_some]

/-! ## Runs -/

theorem observe_extends (r : Recorder) (x : Sample) :
    r.events.map RecordedEvent.unvalued <+: (r.observe x).events.map RecordedEvent.unvalued := by
  cases r.observe_effect x with
  | kept hevents => rw [hevents]
  | noted e hevents | sought e hevents | stopped e hevents =>
    rw [hevents, List.map_append]
    exact List.prefix_append _ _
  | moved b time now _ _ _ hevents | resumed b now _ _ hevents =>
    rw [hevents, map_unvalued_revalued]

theorem after_extends (r : Recorder) (samples later : List Sample) :
    (r.after samples).events.map RecordedEvent.unvalued <+:
      (r.after (samples ++ later)).events.map RecordedEvent.unvalued := by
  induction later using List.reverseRecOn with
  | nil => rw [List.append_nil]
  | append_singleton later x ih =>
    rw [← List.append_assoc, after_concat]
    exact ih.trans (observe_extends _ x)

/-- An event says the same before and after a sample, but for its value. -/
theorem unvalued_of_observe {d : RecordedEvent} (hd : r.events[i]? = some d)
    (he : (r.observe x).events[i]? = some e) : e.unvalued = d.unvalued := by
  obtain ⟨more, hmore⟩ := r.observe_extends x
  obtain ⟨hlt, _⟩ := List.getElem?_eq_some_iff.mp hd
  have hsame : ((r.observe x).events.map RecordedEvent.unvalued)[i]? =
      (r.events.map RecordedEvent.unvalued)[i]? := by
    rw [← hmore, List.getElem?_append_left (by rwa [List.length_map])]
  rw [List.getElem?_map, List.getElem?_map, hd, he] at hsame
  exact Option.some.inj hsame

theorem kind_of_unvalued {d : RecordedEvent} (h : e.unvalued = d.unvalued) : e.kind = d.kind := by
  have hkind := congrArg RecordedEvent.kind h
  simpa only [RecordedEvent.unvalued] using hkind

/-- A new pause is open. -/
theorem settled_new (he : (r.observe x).events[i]? = some e) (hkind : e.kind = .pause)
    (hi : r.events.length ≤ i) :
    i = r.events.length ∧ (r.observe x).events.length = r.events.length + 1 ∧
      (r.observe x).Settled [] i e := by
  have hadded {d : RecordedEvent} (hevents : (r.observe x).events = r.events ++ [d]) :
      i = r.events.length ∧ e = d := by
    rw [hevents, List.getElem?_append_right hi] at he
    obtain ⟨hlt, _⟩ := List.getElem?_eq_some_iff.mp he
    rw [List.length_singleton] at hlt
    exact ⟨by omega, List.mem_singleton.mp (List.mem_of_getElem? he)⟩
  have hold (hlength : (r.observe x).events.length = r.events.length) : False := by
    obtain ⟨hlt, _⟩ := List.getElem?_eq_some_iff.mp he
    omega
  cases r.observe_effect x with
  | kept hevents => exact absurd (by rw [hevents]) hold
  | noted d hevents hlevel =>
    obtain ⟨_, rfl⟩ := hadded hevents
    exact absurd hkind (RecordedEvent.ne_of_isLevel hlevel).2
  | sought d hevents hseek =>
    obtain ⟨_, rfl⟩ := hadded hevents
    rw [hkind] at hseek
    cases hseek
  | stopped d hevents _ hcaptured _ hpause =>
    obtain ⟨rfl, rfl⟩ := hadded hevents
    refine ⟨rfl, by simp [hevents], .waiting rfl ?_⟩
    rw [hpause, hcaptured]
  | moved b time now _ _ _ hevents | resumed b now _ _ hevents =>
    exact absurd (by simp [hevents, revalued]) hold

/-- What holds of a recorder at every moment of a recording. -/
structure Ledger (r₀ : Recorder) (samples : List Sample) : Prop where
  marked : (r₀.after samples).Marked
  seeks : (r₀.after samples).SeeksApart
  pause : (r₀.after samples).PauseOpen
  settled : ∀ i e, (r₀.after samples).events[i]? = some e → e.kind = .pause →
    ∃ later, r₀.Added samples i later ∧ (r₀.after samples).Settled later i e

variable {r₀ : Recorder}

theorem Ledger.concat (h : r₀.Ledger samples) (x : Sample) : r₀.Ledger (samples ++ [x]) where
  marked := after_concat r₀ samples x ▸ h.marked.observe x
  seeks := after_concat r₀ samples x ▸ h.seeks.observe x
  pause := after_concat r₀ samples x ▸ h.pause.observe x
  settled i e he hkind := by
    rw [after_concat] at he ⊢
    by_cases hlt : i < (r₀.after samples).events.length
    · -- an old event: it was a pause before the sample, too
      have hd := List.getElem?_eq_getElem hlt
      generalize (r₀.after samples).events[i] = d at hd
      have hpause := (kind_of_unvalued (unvalued_of_observe hd he)).symm.trans hkind
      obtain ⟨later, hadded, hsettled⟩ := h.settled i d hd hpause
      obtain ⟨e', he', hsettled'⟩ := hsettled.observe hd hpause h.marked h.pause x
      obtain rfl : e' = e := Option.some.inj (he'.symm.trans he)
      exact ⟨later ++ [x], hadded.concat x, hsettled'⟩
    · obtain ⟨rfl, hlength, hsettled⟩ := settled_new he hkind (Nat.le_of_not_lt hlt)
      rw [← after_concat] at hlength
      exact ⟨[], added_concat hlength, hsettled⟩

theorem ledger_of_nil (hevents : r₀.events = []) (hseek : r₀.lastSeek = none)
    (hpause : r₀.openPause = none) : r₀.Ledger [] where
  marked := ⟨by simp [after, hseek], by simp [after, hpause]⟩
  seeks := ⟨by simp [after, hseek], fun _ => by simp [after, hevents, eventsOf],
    by simp [after, hevents, eventsOf]⟩
  pause := ⟨by simp [after, hpause], by simp [after, hpause]⟩
  settled := by simp [after, hevents]

theorem ledger (c : Sampling) (id : Uuid) (document : Int) (first : Snapshot) (began : Timestamp)
    (samples : List Sample) : (start c id document first began).Ledger samples := by
  induction samples using List.reverseRecOn with
  | nil => exact ledger_of_nil rfl rfl rfl
  | append_singleton samples x ih => exact ih.concat x

/-! ## The patches -/

def ClosesPause (r₀ : Recorder) (samples : List Sample) (now : Timestamp)
    (events : List RecordedEvent) : Prop :=
  ∃ i e later, Newest .pause (r₀.after samples).events i e ∧ r₀.Added samples i later ∧
    firstPlaying? later = none ∧
      events = revalued (r₀.after samples).events i (pauseLength e.captured now)

/-- What a sample makes of the events that the recorder has after some others: the same ones, one
more at the end, another destination of the newest seek, or the length of the newest pause. -/
inductive Patch (r₀ : Recorder) (samples : List Sample) (x : Sample)
    (events : List RecordedEvent) : Prop where
  | kept (same : events = (r₀.after samples).events)
  | added (e : RecordedEvent) (grown : events = (r₀.after samples).events ++ [e])
      (captured : e.captured = x.moment)
  | moved (i : Nat) (e : RecordedEvent) (time : Seconds) (now : Timestamp)
      (sample : x = .position time now) (newest : Newest .seek (r₀.after samples).events i e)
      (early : ¬ e.captured.Apart now r₀.sampling.seekDebounce)
      (patched : events = revalued (r₀.after samples).events i time)
  | closed (now : Timestamp) (sample : x.playing? = some now)
      (patched : r₀.ClosesPause samples now events)

theorem Ledger.closesPause (h : r₀.Ledger samples) (hb : (r₀.after samples).openPause = some b)
    (now : Timestamp) : r₀.ClosesPause samples now
      (revalued (r₀.after samples).events b.index (pauseLength b.since now)) := by
  obtain ⟨e, hnewest, hsince⟩ := h.pause.bookmark b hb
  obtain ⟨later, hadded, hsettled⟩ := h.settled b.index e hnewest.here hnewest.ofKind
  refine ⟨b.index, e, later, hnewest, hadded, ?_, by rw [hsince]⟩
  cases hsettled with
  | waiting hnone => exact hnone
  | ended now' _ _ hother => exact absurd rfl (hother b hb)

theorem Ledger.patch (h : r₀.Ledger samples) (x : Sample) :
    r₀.Patch samples x ((r₀.after samples).observe x).events := by
  cases (r₀.after samples).observe_effect x with
  | kept hevents => exact .kept hevents
  | noted e hevents _ hcaptured | sought e hevents _ hcaptured | stopped e hevents _ hcaptured =>
    exact .added e hevents hcaptured
  | moved b time now hsample hbookmark hearly hevents =>
    obtain ⟨e, hnewest, hsince⟩ := h.seeks.bookmark b hbookmark
    rw [after_sampling, ← hsince] at hearly
    exact .moved b.index e time now hsample hnewest hearly hevents
  | resumed b now hbookmark hrunning hevents =>
    exact .closed now hrunning (hevents ▸ h.closesPause hbookmark now)

/-- The events of the finished recording. -/
theorem stop_events (r : Recorder) (duration : Seconds) (now : Timestamp) :
    (r.openPause = none ∧ (r.stop duration now).events = r.events) ∨
      ∃ b, r.openPause = some b ∧ (r.stop duration now).events =
        revalued r.events b.index (pauseLength b.since now) := by
  unfold stop closePause
  split
  · rename_i b hb
    exact .inr ⟨b, hb, rfl⟩
  · rename_i hnone
    exact .inl ⟨hnone, rfl⟩

/-- The value is the rounded number of seconds from the event to a moment. For whole milliseconds,
within seventeen years, it is the exact one. -/
structure Measures (e : RecordedEvent) (now : Timestamp) : Prop where
  rounded : e.value = pauseLength e.captured now
  exact : ∀ ms, ms ≤ 1000 * twoTo 29 → e.captured.elapsed now = ms * 1000000 →
    e.value = .ofNat ((ms + 500) / 1000)

theorem measures_of_value {now : Timestamp} (h : e.value = pauseLength e.captured now) :
    Measures e now where
  rounded := h
  exact _ hms helapsed := h.trans (pauseLength_of_millis hms helapsed)

theorem Ledger.stop_value (h : r₀.Ledger samples) {duration : Seconds} {now : Timestamp}
    (he : ((r₀.after samples).stop duration now).events[i]? = some e) (hkind : e.kind = .pause) :
    ∃ later, r₀.Added samples i later ∧
      e.value = pauseLength e.captured ((firstPlaying? later).getD now) := by
  rcases (r₀.after samples).stop_events duration now with ⟨hnone, heq⟩ | ⟨b, hb, heq⟩
  · rw [heq] at he
    obtain ⟨later, hadded, hsettled⟩ := h.settled i e he hkind
    refine ⟨later, hadded, ?_⟩
    cases hsettled with
    | waiting _ hwait =>
      rw [hnone] at hwait
      cases hwait
    | ended now' hfirst hvalue =>
      rw [hfirst]
      exact hvalue
  · rw [heq, getElem?_revalued] at he
    obtain ⟨d, hd, rfl⟩ := Option.map_eq_some_iff.mp he
    have hpause : d.kind = .pause := by
      split at hkind <;> exact hkind
    obtain ⟨later, hadded, hsettled⟩ := h.settled i d hd hpause
    refine ⟨later, hadded, ?_⟩
    cases hsettled with
    | waiting hnone hwait =>
      rw [hb] at hwait
      obtain rfl := Option.some.inj hwait
      rw [if_pos rfl, hnone]
      dsimp only [Option.getD_none]
    | ended now' hfirst hvalue hother =>
      rw [if_neg (hother b hb), hfirst]
      exact hvalue

/-- The events of a recorder are only added to, but for two values: that of the newest seek, moved
by a position that comes too soon after it, and that of the newest pause, which is the rounded
number of seconds until the player is first seen playing again, or until the end. Seeks are at
least the debounce apart. -/
theorem events_patched (c : Sampling) (id : Uuid) (document : Int) (first : Snapshot)
    (began : Timestamp) (samples : List Sample) :
    let r₀ := start c id document first began
    (∀ x, r₀.Patch samples x ((r₀.after samples).observe x).events) ∧
      (∀ later, (r₀.after samples).events.map RecordedEvent.unvalued <+:
        (r₀.after (samples ++ later)).events.map RecordedEvent.unvalued) ∧
      ∀ duration now,
        (((r₀.after samples).stop duration now).events = (r₀.after samples).events ∨
          r₀.ClosesPause samples now ((r₀.after samples).stop duration now).events) ∧
        (∀ i e, ((r₀.after samples).stop duration now).events[i]? = some e → e.kind = .pause →
          ∃ later, r₀.Added samples i later ∧ Measures e ((firstPlaying? later).getD now)) ∧
        ((eventsOf .seek ((r₀.after samples).stop duration now).events).map
          RecordedEvent.captured).IsChain fun since now => since.Apart now c.seekDebounce := by
  intro r₀
  have hledger : r₀.Ledger samples := ledger c id document first began samples
  refine ⟨hledger.patch, r₀.after_extends samples, fun duration now =>
    ⟨?_, fun i e he hkind => ?_, ?_⟩⟩
  · rcases (r₀.after samples).stop_events duration now with ⟨_, heq⟩ | ⟨b, hb, heq⟩
    · exact .inl heq
    · exact .inr (heq ▸ hledger.closesPause hb now)
  · obtain ⟨later, hadded, hvalue⟩ := hledger.stop_value he hkind
    exact ⟨later, hadded, measures_of_value hvalue⟩
  · have hseeks := hledger.seeks.apart
    rw [after_sampling] at hseeks
    rcases (r₀.after samples).stop_events duration now with ⟨_, heq⟩ | ⟨b, _, heq⟩
    · rw [heq]
      exact hseeks
    · rw [heq, map_captured_eventsOf_revalued]
      exact hseeks

def interrupted : List Sample :=
  [.state 1 .paused (.ofMillis 1000), .state 1 .playing (.ofMillis 3600),
    .state 1.1 .paused (.ofMillis 3700), .position 60 (.ofMillis 4000),
    .position 90 (.ofMillis 4500), .state 90 .paused (.ofMillis 5000)]

example :
    (((start {} ⟨0⟩ 1 loud (.ofMillis 0)).after interrupted).stop 120 (.ofMillis 7000)).events.map
      (fun e => (e.kind, e.value, e.captured)) =
    [(.pause, 3, .ofMillis 1000), (.seek, 90, .ofMillis 4000), (.pause, 2, .ofMillis 5000)] := by
  decide +kernel

end Recorder

end PlaybackCues
