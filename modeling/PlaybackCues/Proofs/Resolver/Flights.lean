import PlaybackCues.Proofs.Resolver.Coherence

set_option autoImplicit false

/-!
# How long a seek is in flight

A tick that meets a seek in flight either waits for it, which only counts the tick, or brings it to
its end: the seek has landed, is given up, or is forgotten with the pass at the end of the media.
Every tick that waits brings the count nearer to the number allowed, whatever time the player shows,
so the seek comes to its end with the first tick after that number at the latest. The end of the
media forgets it because nothing is in flight without an active cue, which holds after every run.
-/
namespace PlaybackCues

def Flight.counted (f : Flight) : Flight := { f with waited := f.waited + 1 }

def Response.Launches (a : Response) (now : Seconds) : Prop :=
  ∀ g, a.resolver.flight = some g →
    g.origin = now ∧ g.waited = 0 ∧ a.resolver.active ≠ none ∧ .seek g.target .engine ∈ a.directives

namespace Resolver

def Tethered (r : Resolver) : Prop := r.active = none → r.flight = none

inductive Ending where
  | landed
  | expired
  | cleared

/-- How a seek in flight fares at a tick: it is waited for, or comes to its end. -/
inductive Fares (r : Resolver) (f : Flight) (s : Snapshot) : Option Ending → Response → Prop where
  | waits : s.state ≠ .ended → r.landed f s.time = false →
      (s.time - f.origin).abs ≤ r.tolerances.seek → f.waited < r.tolerances.settleTicks →
      Fares r f s none ⟨{ r with flight := some f.counted }, []⟩
  | lands : s.state ≠ .ended → r.landed f s.time = true →
      Fares r f s (some .landed) (evaluate s { r with flight := none, last := s.time })
  | expires : s.state ≠ .ended → r.landed f s.time = false →
      ((s.time - f.origin).abs ≤ r.tolerances.seek → r.tolerances.settleTicks ≤ f.waited) →
      Fares r f s (some .expired) (evaluate s { r with flight := none })
  | clears : s.state = .ended → Fares r f s (some .cleared) r.reset

section Step

variable {r : Resolver} {s : Snapshot}

/-! ## What is in flight after a tick -/

theorem launches_none {a : Response} {now : Seconds} (h : a.resolver.flight = none) :
    a.Launches now := by
  intro g hg
  rw [h] at hg
  cases hg

theorem launches_chain (r : Resolver) (c next : Cue) (now : Seconds) (ds : List Directive) :
    let a := r.chain c next now
    Response.Launches ⟨a.resolver, ds ++ a.directives⟩ now := by
  intro a g hg
  cases hg
  refine ⟨rfl, rfl, Option.some_ne_none next.id, List.mem_append_right ds ?_⟩
  exact List.mem_append_right _ (List.mem_singleton_self _)

theorem launches_evaluate (hf : r.flight = none) (s : Snapshot) :
    (r.evaluate s).Launches s.time := by
  have hd := Coherent.detect_flight hf s.time
  have hp := (r.detect s.time).resolver.passage s
  generalize ho : (r.detect s.time).resolver.continueActive s = o at hp
  have hidle : ∀ rest, o = .idle rest → rest.resolver.flight = none →
      (r.evaluate s).Launches s.time := by
    intro rest hrest hnone
    rw [evaluate_idle (ho.trans hrest)]
    exact launches_none ((idle_flight _ s _).trans hnone)
  cases hp with
  | hold c hc hcov =>
    rw [evaluate_stop ho]
    exact launches_none hd
  | jump c next hc hcov hm hn =>
    rw [evaluate_stop ho]
    exact launches_chain _ c next s.time _
  | pause c seconds hc hcov hm =>
    rw [evaluate_stop ho]
    exact launches_none hd
  | finish c hc hcov hm => exact hidle _ rfl hd
  | lost id ha hc => exact hidle _ rfl hd
  | rest ha => exact hidle _ rfl hd

theorem tethered_of_launches {a : Response} {now : Seconds} (h : a.Launches now) :
    a.resolver.Tethered := by
  intro ha
  cases hf : a.resolver.flight with
  | none => rfl
  | some g => exact absurd ha (h g hf).2.2.1

theorem Tethered.fares (h : r.Tethered) {f : Flight} (hf : r.flight = some f) (s : Snapshot) :
    ∃ e, Fares r f s e (r.tick s) := by
  by_cases hs : s.state = .ended
  · have hactive : r.active.isSome = true := by
      cases ha : r.active with
      | none => simp [h ha] at hf
      | some id => rfl
    refine ⟨some .cleared, ?_⟩
    rw [tick_ended hs, tickEnded, if_pos (by rw [hactive, Bool.true_or])]
    exact .clears hs
  · have hset := r.settled s.time
    generalize hq : r.settle s.time = o at hset
    cases hset with
    | still hnone => simp [hnone] at hf
    | landed g hg hl =>
      cases hf.symm.trans hg
      rw [tick_done hs hq]
      exact ⟨_, .lands hs hl⟩
    | waiting g hg hl hn hw =>
      cases hf.symm.trans hg
      rw [tick_waiting hs hq]
      exact ⟨_, .waits hs hl hn hw⟩
    | givenUp g hg hl hw =>
      cases hf.symm.trans hg
      rw [tick_done hs hq]
      exact ⟨_, .expires hs hl hw⟩

theorem Fares.launches {f : Flight} {e : Ending} {a : Response} (h : Fares r f s (some e) a) :
    a.Launches s.time := by
  cases h with
  | lands hs hl => exact launches_evaluate rfl s
  | expires hs hl hw => exact launches_evaluate rfl s
  | clears hs => exact launches_none rfl

end Step

namespace Tethered

variable {r : Resolver}

/-! ## Along a run -/

theorem new (t : Tolerances) : Tethered { tolerances := t } := fun _ => rfl

theorem of_none (h : r.flight = none) : r.Tethered := fun _ => h

theorem waiting (h : r.Tethered) {f : Flight} (hf : r.flight = some f) (n : Nat) :
    Tethered { r with flight := some { f with waited := n } } := by
  intro ha
  rw [h ha] at hf
  cases hf

theorem tick (h : r.Tethered) (s : Snapshot) : (r.tick s).resolver.Tethered := by
  have ht := r.ticked s
  generalize r.tick s = a at ht ⊢
  cases ht with
  | renewed => exact of_none rfl
  | finished => exact h
  | waiting f hs hq hf => exact h.waiting hf (f.waited + 1)
  | evaluated q hs hq => exact tethered_of_launches (launches_evaluate (settle_flight hq) s)

theorem load (h : r.Tethered) (cues : List Cue) : (r.load cues).resolver.Tethered := by
  by_cases ha : r.active.all (knows cues) = true
  · rw [load_kept ha]
    exact h
  · rw [load_lost ha]
    exact of_none rfl

theorem act (h : r.Tethered) (a : Action) : (r.act a).resolver.Tethered := by
  cases a with
  | load cues => exact h.load cues
  | tick s => exact h.tick s
  | userSeek target => exact of_none (leave_flight _)
  | resumeDue =>
    change r.resumeDue.resolver.Tethered
    rw [resumeDue_resolver]
    exact h
  | reset => exact of_none rfl
  | endOfMedia => exact of_none rfl

theorem run (h : r.Tethered) (as : List Action) : (r.run as).Tethered := by
  induction as generalizing r with
  | nil => exact h
  | cons a as ih => exact ih (h.act a)

end Tethered

/-! ## The ticks that wait -/

def Moment.OnlyCounts (m : Moment) : Prop :=
  m.after = ⟨{ m.before with flight := m.before.flight.map Flight.counted }, []⟩

/-- A seek in flight is waited for by some ticks, and comes to its end with the next one. -/
structure Ends (r : Resolver) (f : Flight) (waits : List Snapshot) (s : Snapshot)
    (ending : Ending) : Prop where
  count : waits.length ≤ r.tolerances.settleTicks - f.waited
  frozen : ∀ m ∈ r.history (waits.map .tick), m.OnlyCounts
  waited : r.run (waits.map .tick) =
    { r with flight := some { f with waited := f.waited + waits.length } }
  fares : Fares (r.run (waits.map .tick)) { f with waited := f.waited + waits.length } s
    (some ending) ((r.run (waits.map .tick)).tick s)

theorem Ends.cons {r q : Resolver} {f : Flight} {waits : List Snapshot} {l s : Snapshot}
    {ending : Ending} (hf : r.flight = some f) (hw : f.waited < r.tolerances.settleTicks)
    (hq : q = { r with flight := some f.counted }) (hl : r.tick l = ⟨q, []⟩)
    (h : q.Ends f.counted waits s ending) : r.Ends f (l :: waits) s ending := by
  have hrun : r.run ((l :: waits).map .tick) = q.run (waits.map .tick) := by
    change (r.tick l).resolver.run (waits.map .tick) = _
    rw [hl]
  have hsum : f.counted.waited + waits.length = f.waited + (l :: waits).length := by
    change f.waited + 1 + waits.length = f.waited + (waits.length + 1)
    omega
  have hcount := h.count
  have hwaited := h.waited
  have hfares := h.fares
  rw [hsum] at hwaited hfares
  refine ⟨?_, ?_, ?_, ?_⟩
  · rw [hq] at hcount
    change waits.length ≤ r.tolerances.settleTicks - (f.waited + 1) at hcount
    rw [List.length_cons]
    omega
  · intro m hm
    rcases List.mem_cons.mp hm with rfl | hm
    · change r.tick l = ⟨{ r with flight := r.flight.map Flight.counted }, []⟩
      rw [hl, hq, hf]
      rfl
    · change m ∈ (r.tick l).resolver.history (waits.map .tick) at hm
      rw [hl] at hm
      exact h.frozen m hm
  · rw [hrun, hwaited, hq]
    rfl
  · rw [hrun]
    exact hfares

/-- Each tick that waits counts one more, so those still allowed run out. -/
theorem Tethered.ends {r : Resolver} (h : r.Tethered) {f : Flight} (hf : r.flight = some f)
    {seen : List Snapshot} (hlen : r.tolerances.settleTicks - f.waited < seen.length) :
    ∃ waits s rest ending, seen = waits ++ s :: rest ∧ r.Ends f waits s ending := by
  induction seen generalizing r f with
  | nil => exact absurd hlen (Nat.not_lt_zero _)
  | cons l seen ih =>
    obtain ⟨e, he⟩ := h.fares hf l
    generalize hl : r.tick l = a at he
    cases e with
    | some ending =>
      refine ⟨[], l, seen, ending, rfl, Nat.zero_le _, by simp [history], ?_, ?_⟩
      · change r = { r with flight := some f }
        rw [← hf]
      · rw [← hl] at he
        exact he
    | none =>
      cases he with
      | waits hs hland hn hw =>
        have hlen : r.tolerances.settleTicks - (f.waited + 1) < seen.length := by
          rw [List.length_cons] at hlen
          omega
        obtain ⟨waits, s, rest, ending, rfl, hend⟩ := ih (h.waiting hf (f.waited + 1)) rfl hlen
        exact ⟨l :: waits, s, rest, ending, rfl, .cons hf hw rfl hl hend⟩

/-- Whatever has been done and whatever the player shows: of as many ticks as a seek may be in
flight and one more, one brings the seek in flight to its end, and all before it do nothing but
count. What is in flight afterwards was sent by that tick. -/
theorem flight_ends_in_time {t : Tolerances} {before : List Action} {r : Resolver}
    (hr : r = run { tolerances := t } before) {f : Flight} (hf : r.flight = some f)
    {seen : List Snapshot} (hlen : seen.length = r.tolerances.settleTicks + 1) :
    ∃ waits s rest ending, seen = waits ++ s :: rest ∧ r.Ends f waits s ending ∧
      ((r.run (waits.map .tick)).tick s).Launches s.time := by
  have htethered : r.Tethered := by
    rw [hr]
    exact (Tethered.new t).run before
  have hless : r.tolerances.settleTicks - f.waited < seen.length := by omega
  obtain ⟨waits, s, rest, ending, hseen, hend⟩ := htethered.ends hf hless
  exact ⟨waits, s, rest, ending, hseen, hend, hend.fares.launches⟩

theorem jumping_eq : jumping = run { tolerances := {} }
    [.load [oneToTwo.rounded.place 0 0, eightToNine.rounded.place 1 0],
      .tick ⟨1, 100, 1, .playing⟩, .tick ⟨2.125, 30, 1, .playing⟩,
      .tick ⟨2.25, 70, 1, .playing⟩] := by
  have hsorted : [oneToTwo.rounded.place 0 0, eightToNine.rounded.place 1 0].Pairwise
      fun c d => c.index ≤ d.index := List.pairwise_pair.mpr (Nat.zero_le 1)
  simp only [jumping, run, act, load_new {} hsorted]

/-- A player that stays where the jump began is waited for in nine more ticks, and not in the
tenth. -/
theorem stuck_ends_in_time :
    let stuck : Snapshot := ⟨2.125, 70, 1, .buffering⟩
    jumping.flight = some ⟨2.125, 8, 1⟩ ∧
      (jumping.run ((List.replicate 9 stuck).map .tick)).phase = .chaining ∧
      (jumping.run ((List.replicate 10 stuck).map .tick)).phase = .idle ∧
      ∃ waits s rest ending, List.replicate 11 stuck = waits ++ s :: rest ∧
        jumping.Ends ⟨2.125, 8, 1⟩ waits s ending ∧
        ((jumping.run (waits.map .tick)).tick s).Launches s.time := by
  intro stuck
  have hevaluated : jumping.flight = some ⟨2.125, 8, 1⟩ ∧ jumping.tolerances.settleTicks = 10 ∧
      (jumping.run ((List.replicate 9 stuck).map .tick)).phase = .chaining ∧
      (jumping.run ((List.replicate 10 stuck).map .tick)).phase = .idle := by decide +kernel
  obtain ⟨hflight, hticks, hwaiting, hleft⟩ := hevaluated
  refine ⟨hflight, hwaiting, hleft, ?_⟩
  exact flight_ends_in_time jumping_eq hflight (by rw [hticks, List.length_replicate])

end Resolver

end PlaybackCues
