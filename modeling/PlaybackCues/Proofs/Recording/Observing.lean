import PlaybackCues.Proofs.Recording.Looks
import PlaybackCues.Recording.Recorder

set_option autoImplicit false

/-!
# How a recorder reports its looks

The report of a recorder grows with what the recorder makes of its samples: a new event rests on the
look of its sample, a seek also on the last look before it, and a sample that moves a seek is its
new arrival. The times in the report are those of the recorder's events, and the recorder predicts
positions from the report's last look, so a sample takes a report that holds to one that holds.
-/
namespace PlaybackCues

open Binary64

/-! ## The bookmarks of a recorder -/

def RecordedEvent.track (e : RecordedEvent) : Seconds × Seconds × Bool :=
  (e.time, e.resumption, e.kind = .seek)

def Sighting.track (s : Sighting) : Seconds × Seconds × Bool :=
  (s.time, s.arrived.position, s.seek)

namespace Recorder

def kinds (r : Recorder) : List EventKind := r.events.map fun e => e.kind

variable {r : Recorder}

theorem push_kinds (r : Recorder) (kind : EventKind) (time : Seconds) (value previous : Binary64)
    (now : Timestamp) : (r.push kind time value previous now).kinds = r.kinds ++ [kind] := by
  simp [push, kinds]

theorem settleValue_kinds (r : Recorder) (i : Nat) (value : Binary64) :
    (r.settleValue i value).kinds = r.kinds := by
  refine List.ext_getElem? fun j => ?_
  simp only [settleValue, kinds, List.getElem?_map, List.getElem?_modify]
  cases r.events[j]? with
  | none => rfl
  | some e =>
    by_cases hij : i = j
    · simp [hij]
    · simp [hij]

theorem push_events (r : Recorder) (kind : EventKind) (time : Seconds)
    (value previous : Binary64) (now : Timestamp) :
    ∃ e, (r.push kind time value previous now).events = r.events ++ [e] ∧ e.kind = kind ∧
      e.time = time ∧ e.value = value := ⟨_, rfl, rfl, rfl, rfl⟩

structure Marked (r : Recorder) : Prop where
  seek : ∀ b, r.lastSeek = some b →
    r.kinds[b.index]? = some .seek ∧ ∀ i, b.index < i → r.kinds[i]? ≠ some .seek
  pause : ∀ b, r.openPause = some b → r.kinds[b.index]? = some .pause

/-- The recorder has kept its bookmarks, and its events but for the values. -/
theorem Marked.keep (h : r.Marked) {r' : Recorder} (hkinds : r'.kinds = r.kinds)
    (hseek : r'.lastSeek = r.lastSeek) (hpause : r'.openPause = r.openPause ∨ r'.openPause = none) :
    r'.Marked where
  seek b hb := hkinds ▸ h.seek b (hseek ▸ hb)
  pause b hb := by
    rcases hpause with hpause | hpause
    · exact hkinds ▸ h.pause b (hpause ▸ hb)
    · rw [hpause] at hb
      cases hb

/-- The recorder has an event more, and a bookmark at it if it is a seek. -/
theorem Marked.add (h : r.Marked) {r' : Recorder} {kind : EventKind}
    (hkinds : r'.kinds = r.kinds ++ [kind])
    (hseek : kind ≠ .seek ∧ r'.lastSeek = r.lastSeek ∨
      kind = .seek ∧ r'.lastSeek.map Bookmark.index = some r.events.length)
    (hpause : r'.openPause = r.openPause ∨
      kind = .pause ∧ r'.openPause.map Bookmark.index = some r.events.length) :
    r'.Marked := by
  have hlen : r.kinds.length = r.events.length := List.length_map _
  have hold {i : Nat} {k : EventKind} (hi : r.kinds[i]? = some k) : r'.kinds[i]? = some k := by
    obtain ⟨hlt, _⟩ := List.getElem?_eq_some_iff.mp hi
    rw [hkinds, List.getElem?_append_left hlt, hi]
  have hnew : r'.kinds[r.events.length]? = some kind := by
    rw [hkinds, ← hlen, List.getElem?_concat_length]
  constructor
  · intro b hb
    rcases hseek with ⟨hne, hsame⟩ | ⟨rfl, hindex⟩
    · obtain ⟨hat, hlater⟩ := h.seek b (hsame ▸ hb)
      refine ⟨hold hat, fun i hi hat' => ?_⟩
      rw [hkinds, List.getElem?_append] at hat'
      split at hat'
      · exact hlater i hi hat'
      · exact hne (List.mem_singleton.mp (List.mem_of_getElem? hat')).symm
    · rw [hb] at hindex
      have hindex : b.index = r.events.length := Option.some.inj hindex
      rw [hindex]
      refine ⟨hnew, fun i hi hat' => ?_⟩
      obtain ⟨hlt, _⟩ := List.getElem?_eq_some_iff.mp hat'
      rw [hkinds, List.length_append, List.length_singleton] at hlt
      omega
  · intro b hb
    rcases hpause with hsame | ⟨rfl, hindex⟩
    · exact hold (h.pause b (hsame ▸ hb))
    · rw [hb] at hindex
      have hindex : b.index = r.events.length := Option.some.inj hindex
      rw [hindex]
      exact hnew

theorem closePause_kinds (r : Recorder) (now : Timestamp) :
    (r.closePause now).kinds = r.kinds := by
  unfold closePause
  split
  · exact settleValue_kinds _ _ _
  · rfl

theorem closePause_bookmarks (r : Recorder) (now : Timestamp) :
    (r.closePause now).lastSeek = r.lastSeek ∧ (r.closePause now).openPause = none := by
  unfold closePause
  split
  · exact ⟨rfl, rfl⟩
  · rename_i hnone
    exact ⟨rfl, hnone⟩

/-- A volume is noted or passed over. -/
theorem observeVolume_eq (r : Recorder) (time : Seconds) (volume : Nat) (now : Timestamp) :
    r.observeVolume time volume now = r ∨ ∃ value : Binary64,
      r.observeVolume time volume now =
        { r with volume := ⟨value, some now⟩ }.push .volume time value r.volume.recorded now := by
  unfold observeVolume
  dsimp only
  split
  · exact .inr ⟨_, rfl⟩
  · exact .inl rfl

theorem closePause_rest (r : Recorder) (now : Timestamp) :
    (r.closePause now).sampling = r.sampling ∧ (r.closePause now).liveRate = r.liveRate ∧
      (r.closePause now).position = r.position ∧
      (r.closePause now).positionSeen = r.positionSeen ∧ (r.closePause now).paused = r.paused := by
  unfold closePause
  split <;> exact ⟨rfl, rfl, rfl, rfl, rfl⟩

theorem Marked.observe (h : r.Marked) (s : Sample) : (r.observe s).Marked := by
  cases s with
  | volume time volume now =>
    change (r.observeVolume time volume now).Marked
    rcases r.observeVolume_eq time volume now with heq | ⟨value, heq⟩
    · rw [heq]
      exact h
    · rw [heq]
      exact h.add (push_kinds _ .volume _ _ _ _) (.inl ⟨nofun, rfl⟩) (.inl rfl)
  | rate time rate now =>
    change (r.observeRate time rate now).Marked
    unfold observeRate
    dsimp only
    split
    · exact h.add (push_kinds _ .speed _ _ _ _) (.inl ⟨nofun, rfl⟩) (.inl rfl)
    · exact h.keep rfl rfl (.inl rfl)
  | position time now =>
    change (r.observePosition time now).Marked
    unfold observePosition
    dsimp only
    split
    · exact h.keep rfl rfl (.inl rfl)
    · split
      · exact h.keep (settleValue_kinds _ _ _) rfl (.inl rfl)
      · exact h.add (push_kinds _ .seek _ _ _ _) (.inr ⟨rfl, rfl⟩) (.inl rfl)
  | state time state now =>
    change (r.observeState time state now).Marked
    unfold observeState
    split
    · split
      · exact h
      · exact h.add (push_kinds _ .pause _ _ _ _) (.inl ⟨nofun, rfl⟩) (.inr ⟨rfl, rfl⟩)
    · obtain ⟨hseek, hpause⟩ := closePause_bookmarks
        { r with paused := false, pauseChanged := some now, position := time, positionSeen := now }
        now
      exact h.keep (closePause_kinds _ _) hseek (.inr hpause)
    · exact h
  | mark time now => exact h.add (push_kinds _ .manual _ _ _ _) (.inl ⟨nofun, rfl⟩) (.inl rfl)

/-! ## Looks and samples -/

def moved? (r : Recorder) : Sample → Option Nat
  | .position time now =>
    if (time - r.expected now).abs ≤ r.sampling.seekDelta then none
    else (r.recentSeek? now).map Bookmark.index
  | _ => none

/-- Positions are predicted from the sample from now on. -/
def anchors (r : Recorder) (s : Sample) : Bool :=
  match s with
  | .position _ _ => true
  | .state _ _ _ => (r.observe s).paused != r.paused
  | _ => false

end Recorder

/-- What a sample that a look has given adds to the report of a recorder. -/
def Report.see (w : Report) (r : Recorder) (s : Sample) (ℓ : Look) : Report where
  last := if r.anchors s then ℓ else w.last
  rows :=
    match r.moved? s with
    | some i => w.rows.modify i fun row => { row with arrived := ℓ }
    | none => w.rows ++ ((r.observe s).events.drop r.events.length).map fun e =>
        ⟨e.time, e.kind = .seek, if e.kind = .seek then w.last else ℓ, ℓ⟩
  departures := w.departures

def Sample.Of (ℓ : Look) : Sample → Prop
  | .volume time _ now => time = ℓ.position ∧ now = Timestamp.ofMillis ℓ.time
  | .rate time x now => time = ℓ.position ∧ now = Timestamp.ofMillis ℓ.time ∧
    x.within minRate maxRate = true
  | .position time now => time = ℓ.position ∧ now = Timestamp.ofMillis ℓ.time
  | .state time _ now => time = ℓ.position ∧ now = Timestamp.ofMillis ℓ.time
  | .mark time now => time = ℓ.position ∧ now = Timestamp.ofMillis ℓ.time

/-- The recorder has the events of the report, and predicts positions from its last look. -/
structure Recorder.Follows (r : Recorder) (w : Report) : Prop where
  sampling : r.sampling = {}
  rate : r.liveRate.within minRate maxRate = true
  position : r.position = w.last.position
  seen : r.positionSeen = Timestamp.ofMillis w.last.time
  tracks : r.events.map RecordedEvent.track = w.rows.map Sighting.track
  marked : r.Marked

namespace Recorder

variable {r : Recorder} {w : Report} {p : SimulatedPlayer} {ℓ : Look}

theorem see_of_kept {s : Sample} (hmoved : r.moved? s = none)
    (hevents : (r.observe s).kinds = r.kinds) :
    w.see r s ℓ = if r.anchors s then w.anchor ℓ else w := by
  have hlen := congrArg List.length hevents
  simp only [kinds, List.length_map] at hlen
  unfold Report.see Report.anchor
  rw [hmoved, List.drop_of_length_le (Nat.le_of_eq hlen)]
  cases r.anchors s <;> simp

theorem see_of_add {s : Sample} {e : RecordedEvent} (hmoved : r.moved? s = none)
    (hevents : (r.observe s).events = r.events ++ [e]) (hlevel : e.kind ≠ .seek)
    (htime : e.time = ℓ.position) :
    w.see r s ℓ = if r.anchors s then (w.note ℓ).anchor ℓ else w.note ℓ := by
  unfold Report.see Report.anchor Report.note
  rw [hmoved, hevents, List.drop_left]
  cases r.anchors s <;> simp [hlevel, htime]

theorem see_of_seek {s : Sample} {e : RecordedEvent} (hmoved : r.moved? s = none)
    (hevents : (r.observe s).events = r.events ++ [e]) (hseek : e.kind = .seek)
    (hanchors : r.anchors s = true) : w.see r s ℓ = w.arrive e.time ℓ := by
  unfold Report.see Report.arrive
  rw [hmoved, hevents, List.drop_left, hanchors]
  simp [hseek]

theorem see_of_move {s : Sample} {i : Nat} (hmoved : r.moved? s = some i)
    (hanchors : r.anchors s = true) : w.see r s ℓ = w.move i ℓ := by
  unfold Report.see Report.move
  rw [hmoved, hanchors]
  simp

/-! ## Following a report -/

theorem kinds_getElem? {i : Nat} {kind : EventKind} {e : RecordedEvent}
    (h : r.kinds[i]? = some kind) (he : r.events[i]? = some e) : e.kind = kind := by
  rw [kinds, List.getElem?_map, he] at h
  exact Option.some.inj h

/-- The value of a pause is not part of its track. -/
theorem settleValue_tracks {i : Nat} (h : r.kinds[i]? = some .pause) (value : Binary64) :
    (r.settleValue i value).events.map RecordedEvent.track =
      r.events.map RecordedEvent.track := by
  refine List.ext_getElem? fun j => ?_
  simp only [settleValue, List.getElem?_map, List.getElem?_modify]
  cases he : r.events[j]? with
  | none => rfl
  | some e =>
    by_cases hij : i = j
    · subst hij
      have hkind := kinds_getElem? h he
      simp [RecordedEvent.track, RecordedEvent.resumption, hkind]
    · simp [hij]

theorem closePause_tracks (h : r.Marked) (now : Timestamp) :
    (r.closePause now).events.map RecordedEvent.track = r.events.map RecordedEvent.track := by
  unfold closePause
  split
  · rename_i b hb
    exact settleValue_tracks (h.pause b hb) _
  · rfl

theorem tracks_add {events : List RecordedEvent} {rows : List Sighting} {e : RecordedEvent}
    {s : Sighting} (h : events.map RecordedEvent.track = rows.map Sighting.track)
    (hes : e.track = s.track) :
    (events ++ [e]).map RecordedEvent.track = (rows ++ [s]).map Sighting.track := by
  rw [List.map_append, List.map_append, h, List.map_singleton, List.map_singleton, hes]

/-- A new destination of a seek is a new arrival. -/
theorem tracks_move (h : r.events.map RecordedEvent.track = w.rows.map Sighting.track) {i : Nat}
    (hseek : r.kinds[i]? = some .seek) :
    (r.settleValue i ℓ.position).events.map RecordedEvent.track =
      (w.move i ℓ).rows.map Sighting.track := by
  refine List.ext_getElem? fun j => ?_
  have hj : r.events[j]?.map RecordedEvent.track = w.rows[j]?.map Sighting.track := by
    rw [← List.getElem?_map, ← List.getElem?_map, h]
  simp only [settleValue, Report.move, List.getElem?_map, List.getElem?_modify]
  cases he : r.events[j]? with
  | none =>
    rw [he] at hj
    simp [Option.map_eq_none_iff.mp hj.symm]
  | some e =>
    rw [he] at hj
    obtain ⟨s, hs, htrack⟩ := Option.map_eq_some_iff.mp hj.symm
    rw [hs]
    by_cases hij : i = j
    · subst hij
      have hkind := kinds_getElem? hseek he
      simp only [RecordedEvent.track, Sighting.track, Prod.mk.injEq] at htrack
      simp [RecordedEvent.track, RecordedEvent.resumption, Sighting.track, hkind, htrack]
    · simp [hij, htrack]

/-- The rows of the seek at the bookmark and of what comes after it. -/
theorem Follows.rows_seek (h : r.Follows w) {i : Nat} {s : Sighting} (hs : w.rows[i]? = some s) :
    s.seek = true ↔ r.kinds[i]? = some .seek := by
  have hi : r.events[i]?.map RecordedEvent.track = w.rows[i]?.map Sighting.track := by
    rw [← List.getElem?_map, ← List.getElem?_map, h.tracks]
  rw [hs] at hi
  obtain ⟨e, he, htrack⟩ := Option.map_eq_some_iff.mp hi
  simp only [RecordedEvent.track, Sighting.track, Prod.mk.injEq] at htrack
  rw [kinds, List.getElem?_map, he, ← htrack.2.2]
  simp

theorem track_of_level {e : RecordedEvent} (hlevel : e.kind ≠ .seek) (htime : e.time = ℓ.position) :
    e.track = Sighting.track ⟨ℓ.position, false, ℓ, ℓ⟩ := by
  have hres : e.resumption = e.time := by
    unfold RecordedEvent.resumption
    split
    · rename_i hseek
      exact absurd hseek hlevel
    · rfl
  simp [RecordedEvent.track, Sighting.track, hres, hlevel, htime]

structure Predicts (r r' : Recorder) : Prop where
  sampling : r'.sampling = r.sampling
  position : r'.position = r.position
  seen : r'.positionSeen = r.positionSeen

/-- A sample that adds an event other than a seek. -/
theorem Follows.note (h : r.Follows w) (hw : w.Holds p) (hs : ℓ.Shows p)
    (hgap : p.anchored ≤ w.last.time + 300) {s : Sample} {q : Recorder} {kind : EventKind}
    {value previous : Binary64} {now : Timestamp}
    (hobs : r.observe s = q.push kind ℓ.position value previous now) (hmoved : r.moved? s = none)
    (hanchors : r.anchors s = false) (hsame : r.Predicts q)
    (hrate : q.liveRate.within minRate maxRate = true) (hkept : q.events = r.events)
    (hlevel : kind ≠ .seek) :
    (r.observe s).Follows (w.see r s ℓ) ∧ (w.see r s ℓ).Holds p := by
  obtain ⟨e, hevents, hkind, htime, _⟩ := push_events q kind ℓ.position value previous now
  rw [← hobs, hkept] at hevents
  have hlevel : e.kind ≠ .seek := hkind ▸ hlevel
  have hmarked := h.marked.observe s
  rw [see_of_add hmoved hevents hlevel htime, hanchors, if_neg nofun]
  rw [hobs] at hevents hmarked ⊢
  refine ⟨⟨hsame.sampling.trans h.sampling, hrate, hsame.position.trans h.position,
    hsame.seen.trans h.seen, ?_, hmarked⟩, hw.note hs hgap⟩
  rw [hevents]
  exact tracks_add h.tracks (track_of_level hlevel htime)

/-- A sample that changes no event and no prediction but the rate. -/
theorem Follows.pass (h : r.Follows w) (hw : w.Holds p) {s : Sample} {q : Recorder}
    (hobs : r.observe s = q) (hmoved : r.moved? s = none) (hanchors : r.anchors s = false)
    (hsame : r.Predicts q) (hrate : q.liveRate.within minRate maxRate = true)
    (hkept : q.events = r.events) :
    (r.observe s).Follows (w.see r s ℓ) ∧ (w.see r s ℓ).Holds p := by
  have hmarked := h.marked.observe s
  rw [see_of_kept hmoved (by rw [hobs, kinds, hkept, kinds]), hanchors, if_neg nofun]
  rw [hobs] at hmarked ⊢
  exact ⟨⟨hsame.sampling.trans h.sampling, hrate, hsame.position.trans h.position,
    hsame.seen.trans h.seen, hkept ▸ h.tracks, hmarked⟩, hw⟩

theorem Follows.observe_volume (h : r.Follows w) (hw : w.Holds p) (hs : ℓ.Shows p)
    (hgap : p.anchored ≤ w.last.time + 300) (volume : Nat) (now : Timestamp) :
    (r.observe (.volume ℓ.position volume now)).Follows
        (w.see r (.volume ℓ.position volume now) ℓ) ∧
      (w.see r (.volume ℓ.position volume now) ℓ).Holds p := by
  rcases r.observeVolume_eq ℓ.position volume now with heq | ⟨value, heq⟩
  · exact h.pass hw heq rfl rfl ⟨rfl, rfl, rfl⟩ h.rate rfl
  · exact h.note hw hs hgap heq rfl rfl ⟨rfl, rfl, rfl⟩ h.rate rfl nofun

theorem observeRate_eq (r : Recorder) (time : Seconds) (rate : Binary64) (now : Timestamp) :
    r.observeRate time rate now = { r with liveRate := rate } ∨
      r.observeRate time rate now =
        { r with liveRate := rate, rate := ⟨rate, some now⟩ }.push .speed time rate
          r.rate.recorded now := by
  unfold observeRate
  dsimp only
  split
  · exact .inr rfl
  · exact .inl rfl

theorem Follows.observe_rate (h : r.Follows w) (hw : w.Holds p) (hs : ℓ.Shows p)
    (hgap : p.anchored ≤ w.last.time + 300) {rate : Binary64}
    (hrate : rate.within minRate maxRate = true) (now : Timestamp) :
    (r.observe (.rate ℓ.position rate now)).Follows (w.see r (.rate ℓ.position rate now) ℓ) ∧
      (w.see r (.rate ℓ.position rate now) ℓ).Holds p := by
  rcases r.observeRate_eq ℓ.position rate now with heq | heq
  · exact h.pass hw heq rfl rfl ⟨rfl, rfl, rfl⟩ hrate rfl
  · exact h.note hw hs hgap heq rfl rfl ⟨rfl, rfl, rfl⟩ hrate rfl nofun

theorem Follows.observe_mark (h : r.Follows w) (hw : w.Holds p) (hs : ℓ.Shows p)
    (hgap : p.anchored ≤ w.last.time + 300) (now : Timestamp) :
    (r.observe (.mark ℓ.position now)).Follows (w.see r (.mark ℓ.position now) ℓ) ∧
      (w.see r (.mark ℓ.position now) ℓ).Holds p := by
  have hobs : r.observe (.mark ℓ.position now) = r.push .manual ℓ.position 0 0 now := rfl
  exact h.note hw hs hgap hobs rfl rfl ⟨rfl, rfl, rfl⟩ h.rate rfl nofun

def turn (r : Recorder) (paused : Bool) (time : Seconds) (now : Timestamp) : Recorder :=
  { r with paused, pauseChanged := some now, position := time, positionSeen := now }

/-- A pause begins, or one ends, or neither. -/
theorem observeState_eq (r : Recorder) (time : Seconds) (state : PlayerState) (now : Timestamp) :
    r.observeState time state now = r ∨
      (r.paused = false ∧ r.observeState time state now =
        { r.turn true time now with openPause := some ⟨r.events.length, now⟩ }.push .pause
          time 0 0 now) ∨
      (r.paused = true ∧ r.observeState time state now =
        (r.turn false time now).closePause now) := by
  unfold observeState
  split
  · rename_i hpaused
    split
    · exact .inl rfl
    · exact .inr (.inl ⟨hpaused, rfl⟩)
  · rename_i hpaused
    exact .inr (.inr ⟨hpaused, rfl⟩)
  · exact .inl rfl

theorem Follows.observe_state (h : r.Follows w) (hw : w.Holds p) (hs : ℓ.Shows p)
    (hgap : p.anchored ≤ w.last.time + 300) (state : PlayerState) :
    (r.observe (.state ℓ.position state (.ofMillis ℓ.time))).Follows
        (w.see r (.state ℓ.position state (.ofMillis ℓ.time)) ℓ) ∧
      (w.see r (.state ℓ.position state (.ofMillis ℓ.time)) ℓ).Holds p := by
  have hmarked := h.marked.observe (.state ℓ.position state (.ofMillis ℓ.time))
  have hanchors : r.anchors (.state ℓ.position state (.ofMillis ℓ.time)) =
    ((r.observe (.state ℓ.position state (.ofMillis ℓ.time))).paused != r.paused) := rfl
  rcases r.observeState_eq ℓ.position state (.ofMillis ℓ.time) with
    heq | ⟨hpaused, heq⟩ | ⟨hpaused, heq⟩
  · have hobs : r.observe (.state ℓ.position state (.ofMillis ℓ.time)) = r := heq
    rw [hobs, bne_self_eq_false] at hanchors
    exact h.pass hw hobs rfl hanchors ⟨rfl, rfl, rfl⟩ h.rate rfl
  · have hobs : r.observe (.state ℓ.position state (.ofMillis ℓ.time)) = _ := heq
    obtain ⟨e, hevents, hkind, htime, _⟩ := push_events
      { r.turn true ℓ.position (.ofMillis ℓ.time) with
        openPause := some ⟨r.events.length, .ofMillis ℓ.time⟩ }
      .pause ℓ.position 0 0 (.ofMillis ℓ.time)
    rw [← hobs] at hevents
    have hlevel : e.kind ≠ .seek := by
      rw [hkind]
      nofun
    have htracks := tracks_add h.tracks (track_of_level hlevel htime)
    rw [hobs, hpaused] at hanchors
    rw [see_of_add rfl hevents hlevel htime, hanchors]
    rw [hobs] at hmarked hevents ⊢
    refine ⟨⟨h.sampling, h.rate, rfl, rfl, ?_, hmarked⟩, (hw.note hs hgap).anchor hs⟩
    rw [hevents]
    exact htracks
  · have hobs : r.observe (.state ℓ.position state (.ofMillis ℓ.time)) = _ := heq
    have hturn : (r.turn false ℓ.position (.ofMillis ℓ.time)).Marked :=
      ⟨h.marked.seek, h.marked.pause⟩
    have htracks := closePause_tracks hturn (.ofMillis ℓ.time)
    obtain ⟨hsampling, hrate, hposition, hseen, hstill⟩ := closePause_rest
      (r.turn false ℓ.position (.ofMillis ℓ.time)) (.ofMillis ℓ.time)
    rw [hobs, hstill, hpaused] at hanchors
    rw [see_of_kept rfl (by rw [hobs, closePause_kinds]; rfl), hanchors]
    rw [hobs] at hmarked ⊢
    refine ⟨⟨hsampling.trans h.sampling, ?_, hposition, hseen, htracks.trans h.tracks, hmarked⟩,
      hw.anchor hs⟩
    rw [hrate]
    exact h.rate

/-! ## Samples of the position -/

theorem totalNanos_ofMillis (ms : Nat) : (Timestamp.ofMillis ms).totalNanos = ms * 1000000 := by
  simp only [Timestamp.totalNanos, Timestamp.ofMillis, Timestamp.nanosPerSecond]
  omega

theorem leapSeconds_ofMillis (a b : Nat) :
    (Timestamp.ofMillis a).leapSeconds (Timestamp.ofMillis b) = 0 := by
  have hleap : ∀ ms : Nat, (Timestamp.ofMillis ms).inLeapSecond = false := by
    intro ms
    refine decide_eq_false ?_
    simp only [Timestamp.ofMillis, Timestamp.nanosPerSecond]
    omega
  simp [Timestamp.leapSeconds, hleap]

theorem elapsed_ofMillis (a b : Nat) :
    Seconds.ofNanos ((Timestamp.ofMillis a).elapsed (Timestamp.ofMillis b)) =
      Seconds.ofMillis (b - a) := by
  have hnanos : (Timestamp.ofMillis a).elapsed (Timestamp.ofMillis b) = (b - a) * 1000000 := by
    rw [Timestamp.elapsed, totalNanos_ofMillis, totalNanos_ofMillis, leapSeconds_ofMillis]
    omega
  rw [hnanos, Seconds.ofMillis]

/-- The predicted position is one that the player can have reached since the last look. -/
theorem Follows.expected_moves (h : r.Follows w) (hreach : Reachable w.last.position) {now : Nat}
    (hgap : now ≤ w.last.time + 300) :
    Moves 300 w.last.position (r.expected (.ofMillis now)) := by
  unfold expected
  rw [h.position]
  split
  · exact .refl _ _
  · rw [h.seen, elapsed_ofMillis]
    exact (moves_add hreach (by omega) h.rate).mono (by omega)

theorem foreseen_of_moves {a b : Seconds} (h : Moves 300 a b) (ha : Reachable a) :
    Foreseen a (b.max 0) := by
  have hlim : 0 < limit := limit_pos
  rcases h.reachable ha with hnan | hpos
  · rw [eq_nan hnan, nan_max]
    exact .inl ⟨h.isNaN_eq.trans hnan, rfl⟩
  · rw [max_eq (isNaN_of_le hpos).2 isNaN_zero]
    split
    · exact .inr h
    · rename_i hnot
      -- then the position is a zero, of either sign
      obtain ⟨x, y, hx, hy, hxy⟩ := le_iff.mp hpos
      obtain rfl := Option.some.inj (position_zero.symm.trans hx)
      rw [lt_iff_of_position position_zero hy] at hnot
      have hb := isFinite_of_position hy (by omega)
      have ha := h.isFinite_iff.mpr hb
      obtain ⟨_, hle, hm⟩ := h.bounds ha
      have hb0 := units_of_position hy
      have hzero := units_zero
      exact .inr (.inr ⟨ha, isFinite_zero, by omega, by omega⟩)

theorem near_of_moves {a b c : Seconds} (ha : a.isFinite = true) (hb : Moves 300 a b)
    (hc : Moves 300 a c) : (b - c).abs ≤ leap := by
  have hleap : leap.AtLeast leap.units := .inr ⟨leap_isFinite, Int.le_refl _⟩
  have hunits := leap_units
  obtain ⟨hb, hab, hb3⟩ := hb.bounds ha
  obtain ⟨hc, hac, hc3⟩ := hc.bounds ha
  exact hleap.distance_le hb hc (by omega)

/-- While no seek has come since the last look, a position is far from the predicted one only if the
last look shows none that is finite. -/
theorem Follows.far (h : r.Follows w) (hw : w.Holds p) (hreach : Reachable w.last.position)
    (hgap : p.anchored ≤ w.last.time + 300)
    (hfar : ¬ (p.position - r.expected (.ofMillis p.anchored)).abs ≤ r.sampling.seekDelta)
    (hseeks : w.last.seeks = p.seeks) : ¬ w.last.position.isFinite = true := by
  intro hfin
  obtain ⟨hmove, _⟩ := hw.last.moves hseeks
  rw [h.sampling] at hfar
  exact hfar (near_of_moves hfin (hmove.mono (by omega)) (h.expected_moves hreach hgap))

/-- A sample of the position shows a seek, or moves a recent one, or neither. -/
theorem observePosition_eq (r : Recorder) (time : Seconds) (now : Timestamp) :
    ((time - r.expected now).abs ≤ r.sampling.seekDelta ∧
      r.moved? (.position time now) = none ∧
      r.observePosition time now = { r with position := time, positionSeen := now }) ∨
    ¬ (time - r.expected now).abs ≤ r.sampling.seekDelta ∧
      ((∃ b, r.lastSeek = some b ∧ r.moved? (.position time now) = some b.index ∧
        r.observePosition time now =
          { r with position := time, positionSeen := now }.settleValue b.index time) ∨
      (r.moved? (.position time now) = none ∧
        r.observePosition time now =
          { r with
            position := time
            positionSeen := now
            lastSeek := some ⟨r.events.length, now⟩ }.push .seek ((r.expected now).max 0) time
              ((r.expected now).max 0) now)) := by
  unfold observePosition moved?
  dsimp only
  by_cases hnear : (time - r.expected now).abs ≤ r.sampling.seekDelta
  · rw [if_pos hnear, if_pos hnear]
    exact .inl ⟨hnear, rfl, rfl⟩
  · rw [if_neg hnear, if_neg hnear]
    refine .inr ⟨hnear, ?_⟩
    have hrecent : { r with position := time, positionSeen := now }.recentSeek? now =
      r.recentSeek? now := rfl
    rw [hrecent]
    cases hseek : r.recentSeek? now with
    | none => exact .inr ⟨rfl, rfl⟩
    | some b => exact .inl ⟨b, (Option.filter_eq_some_iff.mp hseek).1, rfl, rfl⟩

theorem Follows.observe_position (h : r.Follows w) (hw : w.Holds p) (hs : ℓ.Shows p)
    (hreach : Reachable w.last.position) (hgap : p.anchored ≤ w.last.time + 300) :
    (r.observe (.position ℓ.position (.ofMillis ℓ.time))).Follows
        (w.see r (.position ℓ.position (.ofMillis ℓ.time)) ℓ) ∧
      (w.see r (.position ℓ.position (.ofMillis ℓ.time)) ℓ).Holds p := by
  have hmarked := h.marked.observe (.position ℓ.position (.ofMillis ℓ.time))
  have hanchors : r.anchors (.position ℓ.position (.ofMillis ℓ.time)) = true := rfl
  have hfar := h.far hw hreach hgap
  have hgap' : ℓ.time ≤ w.last.time + 300 := hs.time ▸ hgap
  rw [← hs.position, ← hs.time] at hfar
  rcases r.observePosition_eq ℓ.position (.ofMillis ℓ.time) with
    ⟨_, hmoved, heq⟩ | ⟨hnot, ⟨b, hb, hmoved, heq⟩ | ⟨hmoved, heq⟩⟩
  · have hobs : r.observe (.position ℓ.position (.ofMillis ℓ.time)) = _ := heq
    rw [see_of_kept hmoved (by rw [hobs]; rfl), if_pos hanchors]
    rw [hobs] at hmarked ⊢
    exact ⟨⟨h.sampling, h.rate, rfl, rfl, h.tracks, hmarked⟩, hw.anchor hs⟩
  · have hobs : r.observe (.position ℓ.position (.ofMillis ℓ.time)) = _ := heq
    obtain ⟨hat, hlater⟩ := h.marked.seek b hb
    rw [see_of_move hmoved hanchors]
    rw [hobs] at hmarked ⊢
    refine ⟨⟨h.sampling, h.rate, rfl, rfl, tracks_move h.tracks hat, hmarked⟩,
      hw.move hs hgap (fun s hs => (h.rows_seek hs).mpr hat) (fun s hs => ?_) (hfar hnot)⟩
    exact Bool.eq_false_iff.mpr fun hseek =>
      hlater _ (Nat.lt_succ_self _) ((h.rows_seek hs).mp hseek)
  · have hobs : r.observe (.position ℓ.position (.ofMillis ℓ.time)) = _ := heq
    obtain ⟨e, hevents, hkind, htime, hvalue⟩ := push_events
      { r with
        position := ℓ.position
        positionSeen := .ofMillis ℓ.time
        lastSeek := some ⟨r.events.length, .ofMillis ℓ.time⟩ }
      .seek ((r.expected (.ofMillis ℓ.time)).max 0) ℓ.position
      ((r.expected (.ofMillis ℓ.time)).max 0) (.ofMillis ℓ.time)
    have hforeseen := foreseen_of_moves (h.expected_moves hreach hgap') hreach
    rw [← htime] at hforeseen
    have htrack : e.track = Sighting.track ⟨e.time, true, w.last, ℓ⟩ := by
      simp [RecordedEvent.track, RecordedEvent.resumption, Sighting.track, hkind, hvalue]
    have htracks := tracks_add h.tracks htrack
    rw [← hobs] at hevents
    rw [see_of_seek hmoved hevents hkind hanchors]
    rw [hobs] at hmarked hevents ⊢
    refine ⟨⟨h.sampling, h.rate, rfl, rfl, ?_, hmarked⟩, hw.arrive hs hgap hforeseen (hfar hnot)⟩
    rw [hevents]
    exact htracks

/-- What a look shows the recorder goes into the report. -/
theorem Follows.observe (h : r.Follows w) (hw : w.Holds p) (hs : ℓ.Shows p)
    (hreach : Reachable w.last.position) (hgap : p.anchored ≤ w.last.time + 300) {s : Sample}
    (hof : s.Of ℓ) : (r.observe s).Follows (w.see r s ℓ) ∧ (w.see r s ℓ).Holds p := by
  cases s with
  | volume time volume now =>
    obtain ⟨rfl, rfl⟩ := hof
    exact h.observe_volume hw hs hgap volume _
  | rate time rate now =>
    obtain ⟨rfl, rfl, hrate⟩ := hof
    exact h.observe_rate hw hs hgap hrate _
  | position time now =>
    obtain ⟨rfl, rfl⟩ := hof
    exact h.observe_position hw hs hreach hgap
  | state time state now =>
    obtain ⟨rfl, rfl⟩ := hof
    exact h.observe_state hw hs hgap state
  | mark time now =>
    obtain ⟨rfl, rfl⟩ := hof
    exact h.observe_mark hw hs hgap _

end Recorder

end PlaybackCues
