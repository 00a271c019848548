import Mathlib.Data.List.Nodup
import PlaybackCues.Clock.EventLoop

set_option autoImplicit false

/-!
# What is kept while a loop runs

A loop is at rest between two rounds, and busy while its owner handles the inbox of one. A regime is
a property of the loop at rest and one of the busy loop that lead to each other: firing makes the
loop busy, handling an event keeps it so, an empty inbox brings it to rest, and the clock may move
up to the next deadline. Two rounds at one instant must leave nothing that is due. A regime then
outlasts any movement of the clock.
-/
namespace PlaybackCues

namespace Timers

variable {κ ε : Type}

theorem inOrder_eq_self {ts : Timers κ ε} (h : ts.Pairwise fun t u => t.deadline ≤ u.deadline) :
    inOrder ts = ts := by
  induction ts with
  | nil => rfl
  | cons t ts ih =>
    obtain ⟨ht, hts⟩ := List.pairwise_cons.mp h
    change insert t (inOrder ts) = t :: ts
    rw [ih hts]
    cases ts with
    | nil => rfl
    | cons u us => exact if_pos (ht u List.mem_cons_self)

/-- Timers that are not late fire in the order of arming. -/
theorem firing_eq_filter {lag now : Nat} {ts : Timers κ ε} (h : ∀ t ∈ ts, now ≤ t.due lag) :
    firing lag now ts = ts.filter fun t => t.due lag ≤ now := by
  refine inOrder_eq_self (List.pairwise_of_forall_mem_list fun t ht u hu => ?_)
  obtain ⟨ht, htn⟩ := List.mem_filter.mp ht
  obtain ⟨hu, _⟩ := List.mem_filter.mp hu
  have hle := of_decide_eq_true htn
  have hge := h u hu
  simp only [Timer.due] at hle hge
  omega

theorem nextDue?_eq_some {lag n : Nat} {ts : Timers κ ε} (h : nextDue? lag ts = some n) :
    (∃ t ∈ ts, t.due lag = n) ∧ ∀ t ∈ ts, n ≤ t.due lag := by
  obtain ⟨hmem, hle⟩ := List.min?_eq_some_iff.mp h
  refine ⟨by simpa using hmem, fun t ht => hle _ (List.mem_map_of_mem ht)⟩

theorem nextDue?_eq_none {lag : Nat} {ts : Timers κ ε} (h : nextDue? lag ts = none) : ts = [] := by
  simpa [nextDue?] using h

structure Steady (lag now : Nat) (ts : Timers κ ε) : Prop where
  distinct : (ts.map fun t => t.key).Nodup
  punctual : ∀ t ∈ ts, now ≤ t.due lag
  moving : ∀ t ∈ ts, t.period ≠ some 0

namespace Steady

variable {lag now : Nat} {ts : Timers κ ε}

theorem eq_of_key (h : Steady lag now ts) {t u : Timer κ ε} (ht : t ∈ ts) (hu : u ∈ ts)
    (hkey : t.key = u.key) : t = u :=
  List.inj_on_of_nodup_map h.distinct ht hu hkey

theorem mem_firing (h : Steady lag now ts) {t : Timer κ ε} :
    t ∈ firing lag now ts ↔ t ∈ ts ∧ t.due lag = now := by
  rw [firing_eq_filter h.punctual, List.mem_filter, decide_eq_true_eq]
  refine and_congr_right fun ht => ?_
  have := h.punctual t ht
  omega

theorem mem_afterFiring (h : Steady lag now ts) {t : Timer κ ε} :
    t ∈ afterFiring lag now ts ↔
      (t ∈ ts ∧ now < t.due lag) ∨ ∃ u ∈ ts, u.due lag = now ∧ u.again lag now = some t := by
  rw [afterFiring, List.mem_append, List.mem_filter, decide_eq_true_eq, List.mem_filterMap]
  simp only [h.mem_firing, and_assoc]

theorem again_key {t u : Timer κ ε} (h : u.again lag now = some t) :
    t.key = u.key ∧ t.event = u.event ∧ t.period = u.period := by
  unfold Timer.again at h
  cases hp : u.period with
  | none => simp [hp] at h
  | some p =>
    rw [hp] at h
    cases h
    exact ⟨rfl, rfl, rfl⟩

theorem distinct_afterFiring (h : Steady lag now ts) :
    ((afterFiring lag now ts).map fun t => t.key).Nodup := by
  have hkeys : ∀ {p : Timer κ ε → Bool}, ((ts.filter p).map fun t => t.key).Nodup :=
    fun {p} => h.distinct.sublist (List.filter_sublist.map _)
  -- tickers keep their keys
  have hagain :
      (((firing lag now ts).filterMap fun t => t.again lag now).map fun t => t.key).Nodup := by
    rw [firing_eq_filter h.punctual]
    refine (hkeys (p := fun t => t.due lag ≤ now)).sublist ?_
    generalize ts.filter (fun t => t.due lag ≤ now) = us
    induction us with
    | nil => exact List.Sublist.refl _
    | cons u us ih =>
      rw [List.filterMap_cons]
      cases hu : u.again lag now with
      | none => exact ih.cons _
      | some t =>
        simp only [List.map_cons, (again_key hu).1]
        exact ih.cons_cons _
  rw [afterFiring, List.map_append]
  refine List.nodup_append.mpr ⟨hkeys, hagain, ?_⟩
  rintro _ hl _ hr rfl
  obtain ⟨t, ht, hkey⟩ := List.mem_map.mp hl
  obtain ⟨v, hv, hkey'⟩ := List.mem_map.mp hr
  obtain ⟨u, hu, huv⟩ := List.mem_filterMap.mp hv
  obtain ⟨ht, hlate⟩ := List.mem_filter.mp ht
  obtain ⟨hu, hdue⟩ := h.mem_firing.mp hu
  have heq := h.eq_of_key ht hu (hkey.trans (hkey'.symm.trans (again_key huv).1))
  subst heq
  have := of_decide_eq_true hlate
  omega

theorem late_of_again (h : Steady lag now ts) {t u : Timer κ ε} (hu : u ∈ ts)
    (ht : u.again lag now = some t) : now < t.due lag :=
  Timer.deadline_again ht (h.moving u hu)

theorem afterFiring (h : Steady lag now ts) : Steady lag now (afterFiring lag now ts) where
  distinct := h.distinct_afterFiring
  punctual := by
    intro t ht
    rcases h.mem_afterFiring.mp ht with ⟨_, hlt⟩ | ⟨u, hu, _, hut⟩
    · exact Nat.le_of_lt hlt
    · exact Nat.le_of_lt (h.late_of_again hu hut)
  moving := by
    intro t ht
    rcases h.mem_afterFiring.mp ht with ⟨ht, _⟩ | ⟨u, hu, _, hut⟩
    · exact h.moving t ht
    · rw [(again_key hut).2.2]
      exact h.moving u hu

theorem wait (h : Steady lag now ts) {later : Nat} (hdue : ∀ t ∈ ts, later ≤ t.due lag) :
    Steady lag later ts :=
  { h with punctual := hdue }

theorem cancel [DecidableEq κ] (h : Steady lag now ts) (key : κ) :
    Steady lag now (cancel ts key) where
  distinct := h.distinct.sublist (List.filter_sublist.map _)
  punctual := fun t ht => h.punctual t (List.mem_filter.mp ht).1
  moving := fun t ht => h.moving t (List.mem_filter.mp ht).1

theorem arm (h : Steady lag now ts) {t : Timer κ ε} (hkey : ∀ u ∈ ts, u.key ≠ t.key)
    (hdue : now ≤ t.due lag) (hmove : t.period ≠ some 0) : Steady lag now (arm ts t) where
  distinct := by
    rw [Timers.arm, List.map_append]
    refine List.nodup_append.mpr ⟨h.distinct, List.nodup_singleton _, ?_⟩
    rintro _ hu _ ht rfl
    obtain ⟨u, hu, hkey'⟩ := List.mem_map.mp hu
    exact hkey u hu (hkey'.trans (List.mem_singleton.mp ht))
  punctual := by
    intro u hu
    rcases List.mem_append.mp hu with hu | hu
    · exact h.punctual u hu
    · rw [List.mem_singleton.mp hu]
      exact hdue
  moving := by
    intro u hu
    rcases List.mem_append.mp hu with hu | hu
    · exact h.moving u hu
    · rw [List.mem_singleton.mp hu]
      exact hmove

end Steady

end Timers

namespace EventLoop

variable {κ ε σ : Type} {handle : Handler κ ε σ}

def heed (handle : Handler κ ε σ) (l : EventLoop κ ε σ) (e : ε) : EventLoop κ ε σ :=
  { l with
    owner := (handle l.now e (l.owner, l.timers)).1
    timers := (handle l.now e (l.owner, l.timers)).2 }

def round (handle : Handler κ ε σ) (l : EventLoop κ ε σ) : EventLoop κ ε σ := l.fire.drain handle

theorem drain_nil {l : EventLoop κ ε σ} (h : l.inbox = []) : l.drain handle = l := by
  cases l
  cases h
  rfl

theorem drain_cons {l : EventLoop κ ε σ} {e : ε} {es : List ε} (h : l.inbox = e :: es) :
    l.drain handle = { l.heed handle e with inbox := es }.drain handle := by
  cases l
  cases h
  rfl

theorem drain_inbox (l : EventLoop κ ε σ) : (l.drain handle).inbox = [] := rfl

/-- What handling an event keeps, handling the whole inbox does. -/
theorem drain_keeps {P : EventLoop κ ε σ → Prop}
    (heed : ∀ {l e es}, P l → l.inbox = e :: es → P { l.heed handle e with inbox := es })
    {l : EventLoop κ ε σ} (h : P l) : P (l.drain handle) := by
  generalize hes : l.inbox = es
  induction es generalizing l with
  | nil =>
    rw [drain_nil hes]
    exact h
  | cons e es ih =>
    rw [drain_cons hes]
    exact ih (heed h hes) rfl

theorem quiet_iff {l : EventLoop κ ε σ} :
    l.quiet = true ↔ l.inbox = [] ∧ ∀ t ∈ l.timers, l.now < t.due l.lag := by
  simp [quiet]

theorem settleFor_of_quiet {l : EventLoop κ ε σ} (h : l.quiet = true) (k : Nat) :
    settleFor handle k l = l := by
  cases k with
  | zero => rfl
  | succ k => simp [settleFor, h]

/-- A movement of the clock begins with what can run before. -/
theorem approach_settle {l : EventLoop κ ε σ} (h : (l.settle handle).quiet = true) (ms : Nat) :
    (l.settle handle).approach handle ms = l.approach handle ms := by
  have hsame : (l.settle handle).settle handle = l.settle handle := settleFor_of_quiet h _
  unfold approach
  rw [hsame]

theorem advance_settle {l : EventLoop κ ε σ} (h : (l.settle handle).quiet = true) (ms : Nat) :
    (l.settle handle).advance handle ms = l.advance handle ms := by
  rw [advance, advance, approach_settle h]

/-- If two rounds leave nothing that is due, then settling does. -/
theorem settle_quiet {l : EventLoop κ ε σ}
    (h : ((l.round handle).round handle).quiet = true) : (l.settle handle).quiet = true := by
  change (settleFor handle (l.inbox.length + l.timers.length + 1 + 1) l).quiet = true
  unfold settleFor
  split
  · assumption
  · unfold settleFor
    split
    · assumption
    · change (settleFor handle _ ((l.round handle).round handle)).quiet = true
      rw [settleFor_of_quiet h]
      exact h

/-! ## What is due -/

/-- An event is timed for an instant, or that instant has come and the event is in the inbox. -/
def Awaits (l : EventLoop κ ε σ) (key : κ) (e : ε) (instant : Nat) : Prop :=
  (∃ t ∈ l.timers, t.key = key ∧ t.event = e ∧ t.period = none ∧ t.due l.lag = instant) ∨
    (e ∈ l.inbox ∧ l.now = instant)

namespace Awaits

variable {l : EventLoop κ ε σ} {key : κ} {e : ε} {instant : Nat}

theorem fire (h : l.Awaits key e instant) (hs : Timers.Steady l.lag l.now l.timers) :
    l.fire.Awaits key e instant := by
  rcases h with ⟨t, ht, hkey, he, hp, hdue⟩ | ⟨he, hnow⟩
  · by_cases hlt : l.now < t.due l.lag
    · exact .inl ⟨t, hs.mem_afterFiring.mpr (.inl ⟨ht, hlt⟩), hkey, he, hp, hdue⟩
    · have hnow := Nat.le_antisymm (hs.punctual t ht) (Nat.le_of_not_lt hlt)
      have hfire := hs.mem_firing.mpr ⟨ht, hnow.symm⟩
      exact .inr ⟨List.mem_append_right _ (he ▸ List.mem_map_of_mem hfire), hnow.trans hdue⟩
  · exact .inr ⟨List.mem_append_left _ he, hnow⟩

theorem timer (h : l.Awaits key e instant) (he : e ∉ l.inbox) :
    ∃ t ∈ l.timers, t.key = key ∧ t.event = e ∧ t.period = none ∧ t.due l.lag = instant :=
  h.resolve_right fun h => he h.1

theorem wait (h : l.Awaits key e instant) (he : e ∉ l.inbox) (later : Nat) :
    Awaits { l with now := later } key e instant :=
  .inl (h.timer he)

theorem post (h : l.Awaits key e instant) (d : ε) : (l.post d).Awaits key e instant :=
  h.imp id fun ⟨he, hnow⟩ => ⟨List.mem_append_left _ he, hnow⟩

theorem le (h : l.Awaits key e instant) (hs : Timers.Steady l.lag l.now l.timers) :
    l.now ≤ instant := by
  rcases h with ⟨t, ht, _, _, _, hdue⟩ | ⟨_, hnow⟩
  · exact hdue ▸ hs.punctual t ht
  · exact Nat.le_of_eq hnow

theorem lt_of_quiet (h : l.Awaits key e instant) (hq : l.quiet = true) : l.now < instant := by
  obtain ⟨hinbox, hdue⟩ := quiet_iff.mp hq
  obtain ⟨t, ht, _, _, _, hinst⟩ := h.timer (by simp [hinbox])
  exact hinst ▸ hdue t ht

end Awaits

/-! ## Regimes -/

/-- A property of the loop at rest and one of the busy loop that lead to each other. -/
structure Regime (handle : Handler κ ε σ) (Rest Busy : EventLoop κ ε σ → Prop) : Prop where
  fire : ∀ {l}, Rest l → Busy l.fire
  heed : ∀ {l e es}, Busy l → l.inbox = e :: es → Busy { l.heed handle e with inbox := es }
  drained : ∀ {l}, Busy l → l.inbox = [] → Rest l
  wait : ∀ {l t}, Rest l → l.inbox = [] → l.now ≤ t → (∀ u ∈ l.timers, t ≤ u.due l.lag) →
    Rest { l with now := t }
  quiet : ∀ {l}, Rest l → ((l.round handle).round handle).quiet = true

namespace Regime

variable {Rest Busy : EventLoop κ ε σ → Prop} {l : EventLoop κ ε σ}

theorem drain (g : Regime handle Rest Busy) (h : Busy l) : Rest (l.drain handle) :=
  g.drained (drain_keeps g.heed h) (drain_inbox l)

theorem round (g : Regime handle Rest Busy) (h : Rest l) : Rest (l.round handle) :=
  g.drain (g.fire h)

theorem settleFor (g : Regime handle Rest Busy) (h : Rest l) (k : Nat) :
    Rest (EventLoop.settleFor handle k l) := by
  induction k generalizing l with
  | zero => exact h
  | succ k ih =>
    unfold EventLoop.settleFor
    split
    · exact h
    · exact ih (g.round h)

theorem settle (g : Regime handle Rest Busy) (h : Rest l) :
    Rest (l.settle handle) ∧ (l.settle handle).quiet = true :=
  ⟨g.settleFor h _, settle_quiet (g.quiet h)⟩

/-- Each instant that is visited is later than the one before, so as many visits as milliseconds
reach the end. -/
theorem visit (g : Regime handle Rest Busy) {stop k : Nat} (h : Rest l) (hq : l.quiet = true)
    (hnow : l.now ≤ stop) (hk : stop ≤ l.now + k) :
    Rest (visit handle stop k l) ∧ (visit handle stop k l).inbox = [] ∧
      (visit handle stop k l).now ≤ stop ∧
      ∀ t ∈ (visit handle stop k l).timers, stop ≤ t.due (visit handle stop k l).lag := by
  induction k generalizing l with
  | zero =>
    obtain ⟨hinbox, hdue⟩ := quiet_iff.mp hq
    exact ⟨h, hinbox, hnow, fun t ht => Nat.le_trans hk (Nat.le_of_lt (hdue t ht))⟩
  | succ k ih =>
    obtain ⟨hinbox, hdue⟩ := quiet_iff.mp hq
    unfold EventLoop.visit
    split
    · rename_i n hn
      obtain ⟨⟨t, ht, hnt⟩, hle⟩ := Timers.nextDue?_eq_some hn
      have hlt : l.now < n := hnt ▸ hdue t ht
      have hmax : Nat.max l.now n = n := Nat.max_eq_right (Nat.le_of_lt hlt)
      split
      · rename_i hstop
        rw [hmax]
        have hrest := g.settle (g.wait h hinbox (Nat.le_of_lt hlt) hle)
        refine ih hrest.1 hrest.2 ?_ ?_
        · rw [settle_now]
          exact Nat.le_of_lt hstop
        · rw [settle_now]
          change stop ≤ n + k
          omega
      · exact ⟨h, hinbox, hnow, fun t ht => Nat.le_trans (by omega) (hle t ht)⟩
    · rename_i hn
      exact ⟨h, hinbox, hnow, by simp [Timers.nextDue?_eq_none hn]⟩

theorem approach (g : Regime handle Rest Busy) (h : Rest l) (ms : Nat) :
    Rest (l.approach handle ms) := by
  obtain ⟨hrest, hq⟩ := g.settle h
  obtain ⟨hrest, hinbox, hnow, hdue⟩ :=
    g.visit (k := ms) hrest hq (Nat.le_add_right (l.settle handle).now ms) (Nat.le_refl _)
  exact g.wait hrest hinbox hnow hdue

theorem advance (g : Regime handle Rest Busy) (h : Rest l) (ms : Nat) :
    Rest (l.advance handle ms) ∧ (l.advance handle ms).quiet = true :=
  g.settle (g.approach h ms)

/-- A regime that holds lets a further one rely on it. -/
theorem refine (g : Regime handle Rest Busy) {Rest' Busy' : EventLoop κ ε σ → Prop}
    (fire : ∀ {l}, Rest l → Rest' l → Busy' l.fire)
    (heed : ∀ {l e es}, Busy l → Busy' l → l.inbox = e :: es →
      Busy' { l.heed handle e with inbox := es })
    (drained : ∀ {l}, Busy l → Busy' l → l.inbox = [] → Rest' l)
    (wait : ∀ {l t}, Rest l → Rest' l → l.inbox = [] → l.now ≤ t →
      (∀ u ∈ l.timers, t ≤ u.due l.lag) → Rest' { l with now := t }) :
    Regime handle (fun l => Rest l ∧ Rest' l) (fun l => Busy l ∧ Busy' l) where
  fire h := ⟨g.fire h.1, fire h.1 h.2⟩
  heed h hes := ⟨g.heed h.1 hes, heed h.1 h.2 hes⟩
  drained h hes := ⟨g.drained h.1 hes, drained h.1 h.2 hes⟩
  wait h hes hle hdue := ⟨g.wait h.1 hes hle hdue, wait h.1 h.2 hes hle hdue⟩
  quiet h := g.quiet h.1

end Regime

end EventLoop

end PlaybackCues
