import PlaybackCues.Proofs.Recording.Kinds
import PlaybackCues.Proofs.Recording.Observing

set_option autoImplicit false

/-!
# The chains of recorded levels

What the recorder keeps of a level, the volume or the rate, is the value and the moment of the last
event of its kind. So each event of the kind goes on from the one before it, by a change that is
large enough, and not too soon. And no change is passed over for good: once the debounce is over,
the next sample of the level leaves its last event close to what was observed.
-/
namespace PlaybackCues

open Binary64

/-! ## Moments that are apart -/

namespace Timestamp

def Apart (since now : Timestamp) (debounce : Nat) : Prop := debounce * 1000000 ≤ since.elapsed now

instance (since now : Timestamp) (debounce : Nat) : Decidable (since.Apart now debounce) :=
  Nat.decLe _ _

theorem soonAfter_eq_false_iff {since now : Timestamp} {debounce : Nat} :
    now.soonAfter since debounce = false ↔ since.Apart now debounce := by
  unfold soonAfter Apart
  rw [decide_eq_false_iff_not, Nat.not_lt]

theorem any_soonAfter_eq_false_iff {last : Option Timestamp} {now : Timestamp} {debounce : Nat} :
    (last.any fun since => now.soonAfter since debounce) = false ↔
      ∀ since ∈ last, since.Apart now debounce := by
  cases last with
  | none => simp
  | some since =>
    rw [Option.any_some, soonAfter_eq_false_iff]
    exact ⟨fun h _ hs => Option.some.inj hs ▸ h, fun h => h since rfl⟩

end Timestamp

/-! ## Levels -/

inductive Level where
  | volume
  | rate
  deriving DecidableEq

namespace Level

def kind : Level → EventKind
  | .volume => .volume
  | .rate => .speed

theorem kind_ne (s : Level) : .seek ≠ s.kind ∧ .pause ≠ s.kind ∧ .manual ≠ s.kind := by
  cases s <;> decide

def delta (c : Sampling) : Level → Binary64
  | .volume => c.volumeDelta
  | .rate => c.speedDelta

def debounce (c : Sampling) : Level → Nat
  | .volume => c.volumeDebounce
  | .rate => c.speedDebounce

def initial (first : Snapshot) : Level → Binary64
  | .volume => .ofNat first.volume
  | .rate => first.rate

def observed : Level → Sample → Option (Binary64 × Timestamp)
  | .volume, .volume _ level now => some (.ofNat level, now)
  | .rate, .rate _ level now => some (level, now)
  | _, _ => none

def tracked (r : Recorder) : Level → Tracked
  | .volume => r.volume
  | .rate => r.rate

end Level

def Sample.Sane : Sample → Prop
  | .volume _ level _ => level ≤ 255
  | .rate _ level _ => level.isFinite = true
  | _ => True

instance : DecidablePred Sample.Sane
  | .volume _ level _ => inferInstanceAs (Decidable (level ≤ 255))
  | .rate _ level _ => inferInstanceAs (Decidable (level.isFinite = true))
  | .position .. | .state .. | .mark .. => inferInstanceAs (Decidable True)

def Recorder.after (r : Recorder) (samples : List Sample) : Recorder :=
  samples.foldl Recorder.observe r

/-- Levels that go on from each other, from `initial` on: each by a change of at least `delta`, but
for the slack, and at least `debounce` milliseconds behind the last. -/
structure Chained (delta : Binary64) (debounce : Nat) (initial : Binary64)
    (levels : List RecordedEvent) : Prop where
  first : ∀ e ∈ levels.head?, e.previous = initial
  next : levels.IsChain fun d e =>
    e.previous = d.value ∧ d.captured.Apart e.captured debounce
  changed : ∀ e ∈ levels, ¬ (e.value - e.previous).abs + Tracked.slack < delta

variable {delta initial value : Binary64} {debounce : Nat} {levels : List RecordedEvent}
  {e : RecordedEvent} {r : Recorder} {s : Level} {x : Sample} {now : Timestamp}

/-! ## What counts as a change -/

namespace Tracked

theorem accepts_eq_true_iff {t : Tracked} :
    t.accepts value delta debounce now = true ↔
      ¬ (value - t.recorded).abs + slack < delta ∧
        ∀ since ∈ t.changed, since.Apart now debounce := by
  unfold accepts
  rw [Bool.and_eq_true, Bool.not_eq_true', decide_eq_false_iff_not, Bool.not_eq_true',
    Timestamp.any_soonAfter_eq_false_iff]

/-- What is not far enough with the slack is not far without it. -/
theorem distance_lt_of_slack {a : Binary64} (h : a.abs + slack < delta) : a.abs < delta := by
  have hslack : slack.isFinite = true ∧ 0 ≤ slack.units := by decide +kernel
  cases a with
  | nan => exact absurd (lt_iff.mp h) (by rintro ⟨x, y, hx, _⟩; cases hx)
  | infinite s =>
    have hsame : (infinite s).abs + slack = infinite false := infinite_add false hslack.1
    rw [hsame] at h
    exact h
  | finite s n hn =>
    have hfin : (finite s n hn).abs.isFinite = true := rfl
    obtain ⟨x, y, hx, hy, hxy⟩ := lt_iff.mp h
    rw [position_add hfin hslack.1] at hx
    refine lt_iff.mpr ⟨_, y, position_of_isFinite hfin, hy, ?_⟩
    have hx := Option.some.inj hx
    have hmono : rounded (finite s n hn).abs.units ≤
        rounded ((finite s n hn).abs.units + slack.units) :=
      rounded_mono (Int.le_add_of_nonneg_right hslack.2)
    rw [rounded_units hfin, hx] at hmono
    exact Int.lt_of_le_of_lt hmono hxy

theorem distance_self {a : Binary64} (ha : a.isFinite = true) (h : 0 < delta) :
    (a - a).abs < delta := by
  have hpos : (a - a).position = some 0 := by
    rw [position_sub ha ha, Int.sub_self, rounded_zero]
  exact (lt_congr ((position_abs hpos).trans position_zero.symm)).mpr h

end Tracked

/-! ## Chains -/

theorem Chained.nil : Chained delta debounce initial [] where
  first := by simp
  next := .nil
  changed := by simp

/-- A chain goes on with an event that a tracked level accepts, if the level tracks the chain. -/
theorem Chained.concat (h : Chained delta debounce initial levels) {t : Tracked}
    (hrecorded : t.recorded = (levels.getLast?.map RecordedEvent.value).getD initial)
    (hmoment : t.changed = levels.getLast?.map RecordedEvent.captured)
    (haccepts : t.accepts e.value delta debounce e.captured = true)
    (hprevious : e.previous = t.recorded) : Chained delta debounce initial (levels ++ [e]) := by
  obtain ⟨hchange, hlater⟩ := Tracked.accepts_eq_true_iff.mp haccepts
  rw [← hprevious] at hchange
  refine ⟨fun d hd => ?_, List.isChain_append.mpr ⟨h.next, .singleton e, ?_⟩, fun d hd => ?_⟩
  · cases levels with
    | nil =>
      obtain rfl : e = d := by simpa using hd
      exact hprevious.trans hrecorded
    | cons first rest => exact h.first d hd
  · intro d hd d' hd'
    obtain rfl : e = d' := by simpa using hd'
    rw [Option.mem_def] at hd
    rw [hd] at hrecorded hmoment
    exact ⟨hprevious.trans hrecorded, hlater d.captured hmoment⟩
  · rcases List.mem_append.mp hd with hd | hd
    · exact h.changed d hd
    · obtain rfl := List.mem_singleton.mp hd
      exact hchange

/-! ## One sample -/

theorem Level.observed_cases (h : s.observed x = some (value, now)) :
    (s = .volume ∧ ∃ time volume, x = .volume time volume now ∧ value = .ofNat volume) ∨
      (s = .rate ∧ ∃ time, x = .rate time value now) := by
  cases s <;> cases x <;> simp only [Level.observed, reduceCtorEq, Option.some.injEq,
    Prod.mk.injEq] at h
  · obtain ⟨rfl, rfl⟩ := h
    exact .inl ⟨rfl, _, _, rfl, rfl⟩
  · obtain ⟨rfl, rfl⟩ := h
    exact .inr ⟨rfl, _, rfl⟩

theorem Sample.Sane.isFinite {x : Sample} (h : x.Sane) (hx : s.observed x = some (value, now)) :
    value.isFinite = true := by
  obtain ⟨rfl, time, volume, rfl, hvalue⟩ | ⟨rfl, time, rfl⟩ := Level.observed_cases hx
  · rw [hvalue]
    exact isFinite_ofNat (Nat.le_trans h (by decide))
  · exact h

namespace Recorder

structure Notes (r : Recorder) (s : Level) (value : Binary64) (now : Timestamp)
    (r' : Recorder) : Prop where
  tracked : s.tracked r' = ⟨value, some now⟩
  added : ∃ e, r'.events = r.events ++ [e] ∧ e.kind = s.kind ∧ e.value = value ∧
    e.previous = (s.tracked r).recorded ∧ e.captured = now

theorem observeVolume_of_accepts {time : Seconds} {volume : Nat} (hvalue : value = .ofNat volume)
    (h : r.volume.accepts value r.sampling.volumeDelta r.sampling.volumeDebounce now = true) :
    r.observeVolume time volume now =
      { r with volume := ⟨value, some now⟩ }.push .volume time value r.volume.recorded now := by
  rw [hvalue] at h ⊢
  unfold observeVolume
  dsimp only
  rw [if_pos h]

theorem observeRate_of_accepts {time : Seconds} {rate : Binary64}
    (h : r.rate.accepts rate r.sampling.speedDelta r.sampling.speedDebounce now = true) :
    r.observeRate time rate now =
      { r with liveRate := rate, rate := ⟨rate, some now⟩ }.push .speed time rate
        r.rate.recorded now := by
  unfold observeRate
  dsimp only
  rw [if_pos h]

/-- A sample of the level that is accepted. -/
theorem observe_accepted (h : s.observed x = some (value, now))
    (haccepts : (s.tracked r).accepts value (s.delta r.sampling) (s.debounce r.sampling) now =
      true) : r.Notes s value now (r.observe x) := by
  obtain ⟨rfl, time, volume, rfl, hvalue⟩ | ⟨rfl, time, rfl⟩ := Level.observed_cases h
  · simp only [Level.tracked, Level.delta, Level.debounce] at haccepts
    rw [observe, observeVolume_of_accepts hvalue haccepts]
    exact ⟨rfl, _, rfl, rfl, rfl, by simp only [Level.tracked], rfl⟩
  · simp only [Level.tracked, Level.delta, Level.debounce] at haccepts
    rw [observe, observeRate_of_accepts haccepts]
    exact ⟨rfl, _, rfl, rfl, rfl, by simp only [Level.tracked], rfl⟩

structure Skips (r : Recorder) (s : Level) (r' : Recorder) : Prop where
  tracked : s.tracked r' = s.tracked r
  events : eventsOf s.kind r'.events = eventsOf s.kind r.events

theorem skips_push {q : Recorder} {kind : EventKind} {time : Seconds} {value previous : Binary64}
    (hkind : kind ≠ s.kind) (h : r.Skips s q) :
    r.Skips s (q.push kind time value previous now) where
  tracked := by
    rw [← h.tracked]
    cases s <;> rfl
  events := by
    rw [push, eventsOf_concat, if_neg hkind, h.events]

theorem settleValue_events (q : Recorder) (i : Nat) (value : Binary64) :
    (q.settleValue i value).events = revalued q.events i value := rfl

theorem skips_settle {q : Recorder} {i : Nat} {kind : EventKind} (hkind : kind ≠ s.kind)
    (hat : q.kinds[i]? = some kind) (h : r.Skips s q) (value : Binary64) :
    r.Skips s (q.settleValue i value) where
  tracked := by
    rw [← h.tracked]
    cases s <;> rfl
  events := by
    rw [← h.events, settleValue_events, eventsOf_revalued]
    intro e he
    rw [kinds_getElem? hat he]
    exact hkind

theorem skips_closePause {q : Recorder} (hq : ∀ b, q.openPause = some b →
    q.kinds[b.index]? = some .pause) (h : r.Skips s q) (now : Timestamp) :
    r.Skips s (q.closePause now) := by
  unfold closePause
  split
  · rename_i b hb
    have hclosed : r.Skips s { q with openPause := none } := by
      refine ⟨?_, h.events⟩
      rw [← h.tracked]
      cases s <;> rfl
    exact skips_settle (q := { q with openPause := none }) s.kind_ne.2.1 (hq b hb) hclosed _
  · exact h

theorem Skips.of_tracked {q : Recorder} (htracked : s.tracked q = s.tracked r)
    (hevents : q.events = r.events) : r.Skips s q := ⟨htracked, by rw [hevents]⟩

/-- A sample of the level that is not accepted. -/
theorem observe_passed (h : s.observed x = some (value, now))
    (haccepts : ¬ (s.tracked r).accepts value (s.delta r.sampling) (s.debounce r.sampling) now =
      true) : r.Skips s (r.observe x) := by
  obtain ⟨rfl, time, volume, rfl, hvalue⟩ | ⟨rfl, time, rfl⟩ := Level.observed_cases h
  · simp only [Level.tracked, Level.delta, Level.debounce] at haccepts
    rw [hvalue] at haccepts
    simp only [observe, observeVolume, if_neg haccepts]
    exact .of_tracked rfl rfl
  · simp only [Level.tracked, Level.delta, Level.debounce] at haccepts
    simp only [observe, observeRate, if_neg haccepts]
    exact .of_tracked rfl rfl

/-- A sample of something else. -/
theorem observe_unobserved (hm : r.Marked) (h : s.observed x = none) :
    r.Skips s (r.observe x) := by
  obtain ⟨hseek, hpause, hmanual⟩ := s.kind_ne
  have hself {q : Recorder} (hvolume : q.volume = r.volume) (hrate : q.rate = r.rate)
      (hevents : q.events = r.events) : r.Skips s q := by
    refine .of_tracked ?_ hevents
    cases s
    · exact hvolume
    · exact hrate
  cases x with
  | volume time volume now =>
    cases s with
    | volume => cases h
    | rate =>
      rw [observe]
      rcases r.observeVolume_eq time volume now with heq | ⟨value, heq⟩ <;> rw [heq]
      · exact hself rfl rfl rfl
      · exact skips_push nofun (.of_tracked rfl rfl)
  | rate time rate now =>
    cases s with
    | rate => cases h
    | volume =>
      rw [observe]
      rcases r.observeRate_eq time rate now with heq | heq <;> rw [heq]
      · exact hself rfl rfl rfl
      · exact skips_push nofun (.of_tracked rfl rfl)
  | position time now =>
    rw [observe]
    rcases r.observePosition_eq time now with ⟨_, _, heq⟩ | ⟨_, ⟨b, hb, _, heq⟩ | ⟨_, heq⟩⟩ <;>
      rw [heq]
    · exact hself rfl rfl rfl
    · exact skips_settle (q := { r with position := time, positionSeen := now }) hseek
        (hm.seek b hb).1 (hself rfl rfl rfl) time
    · exact skips_push hseek (hself rfl rfl rfl)
  | state time state now =>
    rw [observe]
    rcases r.observeState_eq time state now with heq | ⟨_, heq⟩ | ⟨_, heq⟩ <;> rw [heq]
    · exact hself rfl rfl rfl
    · exact skips_push hpause (hself rfl rfl rfl)
    · exact skips_closePause (q := r.turn false time now) hm.pause (hself rfl rfl rfl) now
  | mark time now => exact skips_push hmanual (hself rfl rfl rfl)

theorem observe_sampling (r : Recorder) (x : Sample) : (r.observe x).sampling = r.sampling := by
  cases x with
  | volume time volume now =>
    rw [observe]
    rcases r.observeVolume_eq time volume now with heq | ⟨value, heq⟩ <;> rw [heq]
    rfl
  | rate time rate now =>
    rw [observe]
    rcases r.observeRate_eq time rate now with heq | heq <;> rw [heq]
    rfl
  | position time now =>
    rw [observe]
    rcases r.observePosition_eq time now with ⟨_, _, heq⟩ | ⟨_, ⟨b, _, _, heq⟩ | ⟨_, heq⟩⟩ <;>
      rw [heq] <;> rfl
  | state time state now =>
    rw [observe]
    rcases r.observeState_eq time state now with heq | ⟨_, heq⟩ | ⟨_, heq⟩ <;> rw [heq]
    · rfl
    · exact (closePause_rest _ now).1
  | mark time now => rfl

/-! ## Runs -/

/-- What is tracked of the level is its last event, and its events are a chain. -/
structure Tracks (r : Recorder) (s : Level) (initial : Binary64) : Prop where
  chained : Chained (s.delta r.sampling) (s.debounce r.sampling) initial (eventsOf s.kind r.events)
  recorded : (s.tracked r).recorded = lastValue s.kind initial r.events
  changed : (s.tracked r).changed =
    (eventsOf s.kind r.events).getLast?.map RecordedEvent.captured

theorem Tracks.skip {r' : Recorder} (h : r.Tracks s initial) (hsampling : r'.sampling = r.sampling)
    (hskips : r.Skips s r') : r'.Tracks s initial where
  chained := by
    rw [hsampling, hskips.events]
    exact h.chained
  recorded := by
    rw [hskips.tracked, h.recorded, lastValue, lastValue, hskips.events]
  changed := by rw [hskips.tracked, h.changed, hskips.events]

theorem Tracks.note {r' : Recorder} (h : r.Tracks s initial) (hsampling : r'.sampling = r.sampling)
    (haccepts : (s.tracked r).accepts value (s.delta r.sampling) (s.debounce r.sampling) now =
      true) (hnotes : r.Notes s value now r') :
    r'.Tracks s initial ∧ lastValue s.kind initial r'.events = value := by
  obtain ⟨e, hevents, hkind, rfl, hprevious, rfl⟩ := hnotes.added
  have hlevels : eventsOf s.kind r'.events = eventsOf s.kind r.events ++ [e] := by
    rw [hevents, eventsOf_concat, if_pos hkind]
  have hlast : lastValue s.kind initial r'.events = e.value := by
    rw [hevents, lastValue_concat, if_pos hkind]
  refine ⟨⟨?_, ?_, ?_⟩, hlast⟩
  · rw [hsampling, hlevels]
    exact h.chained.concat h.recorded h.changed haccepts hprevious
  · rw [hlast, hnotes.tracked]
  · rw [hlevels, hnotes.tracked, List.getLast?_concat]
    rfl

theorem Tracks.observe (h : r.Tracks s initial) (hm : r.Marked) (x : Sample) :
    (r.observe x).Tracks s initial := by
  cases hobserved : s.observed x with
  | none => exact h.skip (r.observe_sampling x) (observe_unobserved hm hobserved)
  | some level =>
    obtain ⟨value, now⟩ := level
    by_cases haccepts : (s.tracked r).accepts value (s.delta r.sampling) (s.debounce r.sampling) now
    · exact (h.note (r.observe_sampling x) haccepts (observe_accepted hobserved haccepts)).1
    · exact h.skip (r.observe_sampling x) (observe_passed hobserved haccepts)

/-- When the debounce is over, a sample leaves the last level close to what it shows. -/
theorem Tracks.close (h : r.Tracks s initial) (hobserved : s.observed x = some (value, now))
    (hvalue : value.isFinite = true) (hdelta : 0 < s.delta r.sampling)
    (hlate : ∀ e ∈ (eventsOf s.kind r.events).getLast?,
      e.captured.Apart now (s.debounce r.sampling)) :
    (value - lastValue s.kind initial (r.observe x).events).abs < s.delta r.sampling := by
  by_cases haccepts : (s.tracked r).accepts value (s.delta r.sampling) (s.debounce r.sampling) now
  · have hnotes := observe_accepted hobserved haccepts
    rw [(h.note (r.observe_sampling x) haccepts hnotes).2]
    exact Tracked.distance_self hvalue hdelta
  · have hsame := (observe_passed hobserved haccepts).events
    rw [lastValue, hsame, ← lastValue, ← h.recorded]
    refine Tracked.distance_lt_of_slack ?_
    by_contra hfar
    refine haccepts (Tracked.accepts_eq_true_iff.mpr ⟨hfar, fun since hsince => ?_⟩)
    rw [h.changed] at hsince
    obtain ⟨e, he, rfl⟩ := Option.mem_map.mp hsince
    exact hlate e he

theorem marked_start (c : Sampling) (id : Uuid) (document : Int) (first : Snapshot)
    (now : Timestamp) : (start c id document first now).Marked := ⟨nofun, nofun⟩

theorem tracks_start (c : Sampling) (id : Uuid) (document : Int) (first : Snapshot)
    (now : Timestamp) (s : Level) :
    (start c id document first now).Tracks s (s.initial first) where
  chained := .nil
  recorded := by
    have hnil : (start c id document first now).events = [] := rfl
    rw [hnil, lastValue_nil]
    cases s <;> simp only [start, Level.tracked, Level.initial]
  changed := by cases s <;> rfl

theorem after_concat (r : Recorder) (samples : List Sample) (x : Sample) :
    r.after (samples ++ [x]) = (r.after samples).observe x := by
  simp [after]

theorem after_sampling (r : Recorder) (samples : List Sample) :
    (r.after samples).sampling = r.sampling := by
  induction samples using List.reverseRecOn with
  | nil => rfl
  | append_singleton samples x ih => rw [after_concat, observe_sampling, ih]

theorem Marked.after (h : r.Marked) (samples : List Sample) : (r.after samples).Marked := by
  induction samples using List.reverseRecOn with
  | nil => exact h
  | append_singleton samples x ih =>
    rw [after_concat]
    exact ih.observe x

theorem Tracks.after (h : r.Tracks s initial) (hm : r.Marked) (samples : List Sample) :
    (r.after samples).Tracks s initial := by
  induction samples using List.reverseRecOn with
  | nil => exact h
  | append_singleton samples x ih =>
    rw [after_concat]
    exact ih.observe (hm.after samples) x

/-- The events of a level are a chain: each one goes on from the one before it by a
change that is large enough, the debounce later at the earliest. And no change is lost: a sample
that comes when the debounce is over leaves the last level less than the least change away. -/
theorem levels_chained (c : Sampling) (id : Uuid) (document : Int) (first : Snapshot)
    (began : Timestamp) (samples : List Sample) (s : Level) (hdelta : 0 < s.delta c)
    (hsane : ∀ x ∈ samples, x.Sane) :
    Chained (s.delta c) (s.debounce c) (s.initial first)
        (eventsOf s.kind ((start c id document first began).after samples).events) ∧
      (∀ duration now,
        eventsOf s.kind (((start c id document first began).after samples).stop duration now).events =
          eventsOf s.kind ((start c id document first began).after samples).events) ∧
      ∀ before x later value now, samples = before ++ x :: later →
        s.observed x = some (value, now) →
        (∀ e ∈ (eventsOf s.kind ((start c id document first began).after before).events).getLast?,
          e.captured.Apart now (s.debounce c)) →
        (value - lastValue s.kind (s.initial first)
          ((start c id document first began).after (before ++ [x])).events).abs < s.delta c := by
  have hstart := tracks_start c id document first began s
  have hmarked := marked_start c id document first began
  refine ⟨?_, fun duration now => ?_, fun before x later value now hsplit hobserved hlate => ?_⟩
  · have hchained := (hstart.after hmarked samples).chained
    rw [after_sampling] at hchained
    exact hchained
  · exact (skips_closePause (hmarked.after samples).pause (.of_tracked rfl rfl) now).events
  · have hx : x ∈ samples := by simp [hsplit]
    have hclose := (hstart.after hmarked before).close hobserved ((hsane x hx).isFinite hobserved)
    rw [after_sampling] at hclose
    rw [after_concat]
    exact hclose hdelta hlate

def loud : Snapshot := ⟨0, 100, 1, .playing⟩

def falling : List Sample :=
  [.volume 1 60 (.ofMillis 1000), .volume 1.25 30 (.ofMillis 1250), .mark 1.25 (.ofMillis 1250),
    .rate 1.5 1.25 (.ofMillis 1500), .volume 1.5 30 (.ofMillis 1500)]

theorem falling_chained :
    let r := (start {} ⟨0⟩ 1 loud (.ofMillis 0)).after falling
    (eventsOf .volume r.events).map (fun e => (e.value, e.previous)) = [(60, 100), (30, 60)] ∧
      Chained 1 500 100 (eventsOf .volume r.events) ∧
      (30 - lastValue .volume 100 r.events).abs < 1 := by
  have hsane : ∀ x ∈ falling, x.Sane := by decide +kernel
  obtain ⟨hchained, _, hclose⟩ := levels_chained {} ⟨0⟩ 1 loud (.ofMillis 0) falling .volume
    (by decide +kernel) hsane
  refine ⟨by decide +kernel, hchained, ?_⟩
  exact hclose (falling.take 4) (.volume 1.5 30 (.ofMillis 1500)) [] 30 (.ofMillis 1500) rfl rfl
    (by decide +kernel)

/-- A change of the rate that is smaller than the least one by more than the slack, as doubles and
as exact numbers. It is recorded, because its sum with the slack is rounded up to the least one. -/
theorem sliver_recorded :
    let r := (start { speedDelta := 1.0000000005 } ⟨0⟩ 1 ⟨0, 100, 0, .playing⟩ (.ofMillis 0)).after
      [.rate 0 0.9999999995 (.ofMillis 1000)]
    r.events.map (fun e => (e.kind, e.value, e.previous)) = [(.speed, 0.9999999995, 0)] ∧
      ((0.9999999995 : Binary64) - 0).abs < 1.0000000005 - 1e-9 ∧
      1000000000 * (0.9999999995 : Binary64).units + unity <
        1000000000 * (1.0000000005 : Binary64).units := by
  refine ⟨by decide +kernel, by decide +kernel, by decide +kernel⟩

end Recorder

end PlaybackCues
