import PlaybackCues.Proofs.Resolver.Jumps
import PlaybackCues.Proofs.Resolver.Sending

set_option autoImplicit false

/-!
# Transport commands that are lost

Levels that the player did not take are sent again at the next tick. A pause, a resume and the seek
of a jump are not: each is sent for a change of state that has already been made. A tick that finds
the player where it was before sends such a command again only if it is the seek of a jump, the cue
jumped to is over there already, and that cue jumps to the very same time.
-/
namespace PlaybackCues

def Directive.isTransport : Directive → Bool
  | .pause | .play | .seek _ .engine => true
  | _ => false

def Snapshot.SamePlace (s l : Snapshot) : Prop := l.time = s.time ∧ l.state = s.state

namespace Resolver

variable {t : Tolerances} {r : Resolver} {s l : Snapshot}

theorem pause_notMem_of_idle (h : r.active = none) (s : Snapshot) :
    .pause ∉ (r.tick s).directives := by
  intro hd
  obtain ⟨c, seconds, he, _⟩ := tick_pauses_iff.mp hd
  rw [(activeCue?_some (expiring?_activeCue? he)).2] at h
  cases h

/-! ## After a pause -/

/-- The resolver waits for the end of a pause, and has last seen the player at `s`. -/
structure Halted (t : Tolerances) (s : Snapshot) (r : Resolver) : Prop where
  tolerances_eq : r.tolerances = t
  active : r.active = none
  awaiting : r.awaiting = true
  flight : r.flight = none
  last : r.last = s.time

theorem Halted.tick (h : Halted t s r) (hs : s.state ≠ .ended) (hfin : s.time.isFinite = true)
    (hseek : 0 ≤ t.seek) (hl : s.SamePlace l) : Halted t s (r.tick l).resolver := by
  have hpos := Binary64.atLeast_zero hseek
  have hzero : s.time.units - s.time.units ≤ 0 := by omega
  have hdist : ((s.time.units - s.time.units).natAbs : Int) ≤ 0 := by omega
  have hrest : r.restarted l.time = false := by
    unfold restarted
    rw [h.tolerances_eq, h.last, hl.1, Bool.and_eq_false_iff]
    exact .inr (decide_eq_false (Binary64.not_lt_of_le (hpos.sub_le hfin hfin hzero)))
  have hmoved : r.moved l.time = false := by
    unfold moved
    rw [h.tolerances_eq, h.last, hl.1]
    exact decide_eq_false (Binary64.not_lt_of_le (hpos.distance_le hfin hfin hdist))
  have hsettle : r.settle l.time = .done r := by simp [settle, h.flight]
  have hactive : (r.detect l.time).resolver.continueActive l = .idle ⟨r, []⟩ := by
    simp [detect_still hrest hmoved, continueActive, h.active]
  obtain ⟨defaults, restore, hidle⟩ :=
    idle_resolver ((r.detect l.time).directives ++ []).isEmpty l r
  rw [if_pos h.awaiting] at hidle
  rw [tick_done (by rw [hl.2]; exact hs) hsettle, evaluate_idle hactive,
    Response.andThen_resolver, hidle]
  exact ⟨h.tolerances_eq, h.active, h.awaiting, h.flight, hl.1⟩

theorem Halted.pause_notMem (h : Halted t s r) (hs : s.state ≠ .ended)
    (hfin : s.time.isFinite = true) (hseek : 0 ≤ t.seek) {looks : List Snapshot}
    (hlooks : ∀ l ∈ looks, s.SamePlace l) :
    ∀ m ∈ r.history (looks.map .tick), .pause ∉ m.after.directives := by
  induction looks generalizing r with
  | nil => simp [history]
  | cons l looks ih =>
    intro m hm
    have hl := hlooks l List.mem_cons_self
    rcases List.mem_cons.mp hm with rfl | hm
    · exact pause_notMem_of_idle h.active l
    · exact ih (h.tick hs hfin hseek hl) (fun k hk => hlooks k (List.mem_cons_of_mem l hk)) m hm

/-! ## After a jump -/

/-- A player that is still where a jump began has not landed. -/
theorem tick_at_origin {f : Flight} (hf : r.flight = some f)
    (hw : f.waited < r.tolerances.settleTicks)
    (hs : l.state ≠ .ended) (ho : l.time = f.origin) (hfin : f.origin.isFinite = true)
    (hseek : 0 ≤ r.tolerances.seek) :
    r.tick l = ⟨{ r with flight := some { f with waited := f.waited + 1 } }, []⟩ := by
  have hpos := Binary64.atLeast_zero hseek
  have hzero : ((f.origin.units - f.origin.units).natAbs : Int) ≤ 0 := by omega
  have hnear : (l.time - f.origin).abs ≤ r.tolerances.seek := by
    rw [ho]
    exact hpos.distance_le hfin hfin hzero
  have hself : ¬ (l.time - f.target).abs < (l.time - f.origin).abs := by
    rw [ho]
    exact Binary64.not_lt_distance_self (Binary64.not_abs_lt_zero _)
  have hl : r.landed f l.time = false := by
    simp [landed, hnear, hself]
  exact tick_waiting hs (settle_waiting hf hl hnear hw)

theorem silent_at_origin {f : Flight} (hf : r.flight = some f) (ho : f.origin = s.time)
    (hs : s.state ≠ .ended) (hfin : s.time.isFinite = true) (hseek : 0 ≤ r.tolerances.seek)
    {looks : List Snapshot} (hlooks : ∀ l ∈ looks, s.SamePlace l)
    (hlen : f.waited + looks.length ≤ r.tolerances.settleTicks) :
    ∀ m ∈ r.history (looks.map .tick), m.after.directives = [] := by
  induction looks generalizing r f with
  | nil => simp [history]
  | cons l looks ih =>
    intro m hm
    obtain ⟨htime, hstate⟩ := hlooks l List.mem_cons_self
    rw [List.length_cons] at hlen
    have htick := tick_at_origin hf (by omega) (by rw [hstate]; exact hs)
      (by rw [htime, ho]) (by rw [ho]; exact hfin) hseek
    rcases List.mem_cons.mp hm with rfl | hm
    · change (r.tick l).directives = []
      rw [htick]
    · change m ∈ (r.tick l).resolver.history (looks.map .tick) at hm
      rw [htick] at hm
      have hlen : f.waited + 1 + looks.length ≤ r.tolerances.settleTicks := by omega
      exact ih (r := { r with flight := some { f with waited := f.waited + 1 } }) rfl ho hseek
        (fun k hk => hlooks k (List.mem_cons_of_mem l hk)) hlen m hm

/-! ## The next ticks -/

theorem play_notMem_history (r : Resolver) (looks : List Snapshot) :
    ∀ m ∈ r.history (looks.map .tick), .play ∉ m.after.directives := by
  induction looks generalizing r with
  | nil => simp [history]
  | cons l looks ih =>
    intro m hm
    rcases List.mem_cons.mp hm with rfl | hm
    · exact tick_play_notMem r l
    · exact ih (r.tick l).resolver m hm

/-- A transport command is sent again by the next tick exactly when it is the seek of a jump, and
that tick finds the cue jumped to over and jumps from it to the same time. With a seek tolerance
that is not negative no tick at the same place sends it again, however many there are; of a jump
this holds as long as its seek is waited for. -/
theorem lost_transport_resent_iff (hr : Reachable t r) {a : Action}
    (ha : a = .tick s ∨ a = .resumeDue) {d : Directive} (hd : d ∈ (r.act a).directives)
    (ht : d.isTransport = true) :
    (∀ l, d ∈ ((r.act a).resolver.tick l).directives ↔
      ∃ c next, d = .seek next.start .engine ∧ (r.act a).resolver.expiring? l = some c ∧
        c.mode = .jump ∧ ((r.act a).resolver.finish c).successor? c = some next) ∧
    (s.time.isFinite = true → 0 ≤ t.seek → ∀ looks : List Snapshot,
      (∀ l ∈ looks, s.SamePlace l) → (d.isJump = true → looks.length ≤ t.settleTicks) →
      ∀ m ∈ (r.act a).resolver.history (looks.map .tick), d ∉ m.after.directives) := by
  cases d with
  | setVolume volume => cases ht
  | setRate rate => cases ht
  | resumeAfter seconds => cases ht
  | play =>
    refine ⟨fun l => iff_of_false (tick_play_notMem _ l) (by simp), ?_⟩
    intro _ _ looks _ _
    exact play_notMem_history _ looks
  | pause =>
    rcases ha with rfl | rfl
    · obtain ⟨hactive, hawaiting, hflight, hlast⟩ := tick_of_pauses hd
      obtain ⟨c, seconds, he, _⟩ := tick_pauses_iff.mp hd
      have hs := (expiring?_eq_some_iff.mp he).1
      have htol := (hr.coherent.tick s).tolerances_eq
      refine ⟨fun l => iff_of_false (pause_notMem_of_idle hactive l) (by simp), ?_⟩
      intro hfin hseek looks hlooks _
      exact Halted.pause_notMem ⟨htol, hactive, hawaiting, hflight, hlast⟩ hs hfin hseek hlooks
    · cases eq_play_of_resumeDue hd
  | seek target origin =>
    cases origin with
    | user => cases ht
    | engine =>
      rcases ha with rfl | rfl
      · obtain ⟨hs, hflight, htol⟩ := tick_of_jumps hd
        rw [hr.coherent.tolerances_eq] at htol
        refine ⟨fun l => ?_, ?_⟩
        · rw [tick_jumps_iff]
          constructor
          · rintro ⟨c, next, he, hm, hn, rfl⟩
            exact ⟨c, next, rfl, he, hm, hn⟩
          · rintro ⟨c, next, hd, he, hm, hn⟩
            cases hd
            exact ⟨c, next, he, hm, hn, rfl⟩
        · intro hfin hseek looks hlooks hlen m hm
          have hlen := hlen rfl
          rw [← htol] at hseek hlen
          rw [silent_at_origin hflight rfl hs hfin hseek hlooks (by simpa using hlen) m hm]
          exact List.not_mem_nil
      · cases eq_play_of_resumeDue hd

def halfway (c d : CueSpec) : Resolver :=
  run { tolerances := {}, cues := [c.rounded.place 0 0, d.rounded.place 1 0] }
    [.tick ⟨1, 100, 1, .playing⟩]

theorem halfway_reachable {c d : CueSpec}
    (h : Built [c.rounded.place 0 0, d.rounded.place 1 0]) : Reachable {} (halfway c d) :=
  (Reachable.loaded {} h (List.pairwise_pair.mpr (Nat.zero_le 1))).run fun a ha => by
    rw [List.mem_singleton.mp ha]
    trivial

def oneToTwoPausing : CueSpec := ⟨1, 2, 30, 1, .pause 3⟩

/-- A pause that the player does not carry out is not sent a second time, and neither is a jump
while its seek is waited for. -/
theorem lost_pause_and_jump :
    let late : Snapshot := ⟨2.125, 30, 1, .playing⟩
    let pausing := halfway oneToTwoPausing eightToNine
    let jumping := halfway oneToTwo eightToNine
    (.pause ∈ (pausing.tick late).directives ∧
      .pause ∉ ((pausing.tick late).resolver.tick late).directives) ∧
    (.seek 8 .engine ∈ (jumping.tick late).directives ∧
      ∀ m ∈ (jumping.tick late).resolver.history ((List.replicate 10 late).map .tick),
        .seek 8 .engine ∉ m.after.directives) := by
  intro late pausing jumping
  have hreach : ∀ c : CueSpec, c.rounded.check.toOption = some () →
      (c.rounded.place 0 0).id ≠ (eightToNine.rounded.place 1 0).id →
      Reachable {} (halfway c eightToNine) :=
    fun c hc hid => halfway_reachable (built_pair hc (by decide +kernel) hid)
  have hpause : .pause ∈ (pausing.tick late).directives := by decide +kernel
  have hjump : .seek 8 .engine ∈ (jumping.tick late).directives := by decide +kernel
  obtain ⟨hnext, _⟩ := lost_transport_resent_iff (s := late) (a := .tick late)
    (hreach oneToTwoPausing (by decide +kernel) (by decide +kernel)) (.inl rfl) hpause rfl
  obtain ⟨_, hlooks⟩ := lost_transport_resent_iff (s := late) (a := .tick late)
    (hreach oneToTwo (by decide +kernel) (by decide +kernel)) (.inl rfl) hjump rfl
  refine ⟨⟨hpause, fun h => ?_⟩, hjump, ?_⟩
  · obtain ⟨c, next, hd, _⟩ := (hnext late).mp h
    cases hd
  · refine hlooks (by decide +kernel) (by decide +kernel) _ (fun l hl => ?_) fun _ => ?_
    · rw [List.eq_of_mem_replicate hl]
      exact ⟨rfl, rfl⟩
    · exact Nat.le_of_eq List.length_replicate

end Resolver

end PlaybackCues
