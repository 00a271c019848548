import PlaybackCues.Proofs.Number.Order
import PlaybackCues.Proofs.Resolver.Forward

set_option autoImplicit false

/-!
# When a cue is found over

A tick that gets as far as the active cue finds it over in two cases: the time is past its end, or
it is before its start by more than the activation tolerance. In both the cue is executed and its
end is acted on, so the second case carries out the end of a cue that has not been played to it.
-/
namespace PlaybackCues.Resolver

/-- The tick examines the cue that is active: the media is not over, no jump is waited for, and the
player has not been displaced. -/
def Examines (r : Resolver) (s : Snapshot) : Prop :=
  s.state ≠ .ended ∧
    ∃ q, r.settle s.time = .done q ∧ q.restarted s.time = false ∧ q.moved s.time = false

theorem examines_still {r : Resolver} {s : Snapshot} (hs : s.state ≠ .ended)
    (hf : r.flight = none) (hr : r.restarted s.time = false) (hm : r.moved s.time = false) :
    r.Examines s := by
  refine ⟨hs, r, ?_, hr, hm⟩
  simp [settle, hf]

theorem expiring?_iff_covers {r : Resolver} {s : Snapshot} {c : Cue}
    (hc : r.activeCue? = some c) :
    r.expiring? s = some c ↔ r.Examines s ∧ r.covers c s.time = false := by
  rw [expiring?_eq_some_iff]
  constructor
  · rintro ⟨hs, q, hq, hr, hm, _, hcov⟩
    obtain ⟨last, rfl⟩ := settle_done hq
    exact ⟨⟨hs, _, hq, hr, hm⟩, hcov⟩
  · rintro ⟨⟨hs, q, hq, hr, hm⟩, hcov⟩
    obtain ⟨last, rfl⟩ := settle_done hq
    exact ⟨hs, _, hq, hr, hm, hc, hcov⟩

theorem covers_eq_false_iff {r : Resolver} {c : Cue} {now : Seconds}
    (hstop : c.stop.isFinite = true) (hnow : now.isFinite = true) :
    r.covers c now = false ↔ c.stop < now ∨ ¬ c.start - r.tolerances.activation ≤ now := by
  unfold covers
  rw [Bool.and_eq_false_iff, decide_eq_false_iff_not, decide_eq_false_iff_not,
    Binary64.not_le_of_isFinite hnow hstop]

def endDirectives (r : Resolver) (c : Cue) : List Directive :=
  match c.mode with
  | .natural => r.defaults.directives
  | .jump =>
    match (r.finish c).successor? c with
    | some next => next.levels.directives ++ [.seek next.start .engine]
    | none => r.defaults.directives
  | .pause seconds => r.defaults.directives ++ [.pause, .resumeAfter seconds]

theorem endDirectives_expire (r : Resolver) (c : Cue) (s : Snapshot) :
    r.endDirectives c <+: (afterExpiry s (r.expire c s.time)).directives := by
  rw [expire_eq]
  unfold endDirectives
  cases c.mode with
  | natural => exact List.prefix_append _ _
  | jump =>
    cases (r.finish c).successor? c with
    | some next => exact List.prefix_rfl
    | none => exact List.prefix_append _ _
  | pause seconds => exact List.prefix_rfl

structure EndsAt (r : Resolver) (c : Cue) (s : Snapshot) : Prop where
  executed : c.id ∈ (r.tick s).resolver.executed
  left : (r.tick s).resolver.active ≠ some c.id
  sent : r.endDirectives c <+: (r.tick s).directives

theorem endsAt_of_expiring {t : Tolerances} {r : Resolver} (h : Coherent t r) {s : Snapshot}
    {c : Cue} (he : r.expiring? s = some c) : r.EndsAt c s where
  executed := expiring?_executed he
  left := fun ha => (h.tick s).active_fresh c.id ha (expiring?_executed he)
  sent := by
    obtain ⟨last, ht⟩ := tick_expiring he
    rw [ht]
    exact endDirectives_expire { r with flight := none, last := last } c s

/-- A tick ends the active cue exactly when it examines it past its end, or further before its
start than the activation tolerance; the latter are the ends that come before the end of the cue,
and a small rewind to before the start of the cue brings one about exactly from there on. -/
theorem expiring?_iff {t : Tolerances} {r : Resolver} (hr : Reachable t r) {c : Cue}
    (hc : r.activeCue? = some c) {s : Snapshot} (hs : s.time.isFinite = true) :
    (r.expiring? s = some c ↔
      r.Examines s ∧ (c.stop < s.time ∨ ¬ c.start - t.activation ≤ s.time)) ∧
    (r.expiring? s = some c → r.EndsAt c s) ∧
    ((r.expiring? s = some c → c.stop < s.time) ↔
      ¬ (r.Examines s ∧ ¬ c.start - t.activation ≤ s.time ∧ s.time ≤ c.stop)) ∧
    (s.state ≠ .ended → r.flight = none → r.restarted s.time = false → r.moved s.time = false →
      s.time < c.start →
      (r.expiring? s = some c ↔ ¬ c.start - t.activation ≤ s.time)) := by
  have h := hr.coherent
  obtain ⟨hstart, hstop, _, hle⟩ := h.built.window (activeCue?_some hc).1
  have hlt : c.start < c.stop := (Binary64.not_le_of_isFinite hstop hstart).mp hle
  have hiff : r.expiring? s = some c ↔
      r.Examines s ∧ (c.stop < s.time ∨ ¬ c.start - t.activation ≤ s.time) := by
    rw [expiring?_iff_covers hc, covers_eq_false_iff hstop hs, h.tolerances_eq]
  refine ⟨hiff, endsAt_of_expiring h, ?_, ?_⟩
  · rw [hiff]
    constructor
    · rintro hearly ⟨hex, hbefore, hle⟩
      exact (Binary64.not_le_of_isFinite hs hstop).mpr (hearly ⟨hex, .inr hbefore⟩) hle
    · rintro hnot ⟨hex, hover | hbefore⟩
      · exact hover
      · exact (Binary64.not_le_of_isFinite hs hstop).mp fun hle => hnot ⟨hex, hbefore, hle⟩
  · intro hstate hflight hrest hmoved hbefore
    rw [hiff]
    constructor
    · rintro ⟨_, hover | hearly⟩
      · exact absurd (Binary64.lt_trans (Binary64.lt_trans hbefore hlt) hover)
          (Binary64.not_lt_self s.time)
      · exact hearly
    · intro hearly
      exact ⟨examines_still hstate hflight hrest hmoved, .inr hearly⟩

def tenToTwenty : CueSpec := ⟨10, 20, 50, 1, .jump⟩

def fortyToFifty : CueSpec := ⟨40, 50, 60, 1, .natural⟩

def justStarted : Resolver :=
  run { tolerances := {}, cues := [tenToTwenty.rounded.place 0 0, fortyToFifty.rounded.place 1 0] }
    [.tick ⟨10, 100, 1, .playing⟩]

theorem justStarted_reachable : Reachable {} justStarted :=
  (Reachable.loaded {} (built_pair (by decide +kernel) (by decide +kernel) (by decide +kernel))
    (by decide)).run fun a ha => by
      rw [List.mem_singleton.mp ha]
      trivial

/-- A second before its start the cue is over, and its jump is carried out. -/
theorem expiring?_small_rewind :
    let c := tenToTwenty.rounded.place 0 0
    let s : Snapshot := ⟨9, 50, 1, .playing⟩
    justStarted.activeCue? = some c ∧ s.time < c.start ∧ justStarted.expiring? s = some c ∧
      justStarted.EndsAt c s := by
  have hc : justStarted.activeCue? = some (tenToTwenty.rounded.place 0 0) := by decide +kernel
  have hiff := expiring?_iff justStarted_reachable hc (s := ⟨9, 50, 1, .playing⟩) (by decide +kernel)
  have he := (hiff.2.2.2 (by decide) (by decide +kernel) (by decide +kernel) (by decide +kernel)
    (by decide +kernel)).mpr (by decide +kernel)
  exact ⟨hc, by decide +kernel, he, hiff.2.1 he⟩

end PlaybackCues.Resolver
