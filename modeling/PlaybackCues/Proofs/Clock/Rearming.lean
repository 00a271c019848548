import Mathlib.Data.List.Induction
import PlaybackCues.Clock.Desk
import PlaybackCues.Proofs.Clock.Regimes

set_option autoImplicit false

/-!
# An alarm that is armed again and again

A run arms the alarm of a desk, calls it off, cancels the whole desk and moves the clock, in any
order. The clock stops at every deadline on its way. An act disturbs the alarm, or something runs in
it, but never both. What a desk does in a run is what the alarm does by itself: at most one arming
is pending, and those that were called off are still there until they are polled.
-/
namespace PlaybackCues

variable {ε : Type}

inductive AlarmAct (ε : Type) where
  | arm (delay : Nat) (event : ε)
  | disarm
  | cancelAll
  /-- What can run at this instant does. -/
  | settle
  | advance (ms : Nat)
  /-- The clock moves, but what is due at the new time has yet to run. -/
  | approach (ms : Nat)
  deriving DecidableEq

namespace AlarmAct

def span : AlarmAct ε → Nat
  | .advance ms | .approach ms => ms
  | _ => 0

def disturbs : AlarmAct ε → Bool
  | .arm .. | .disarm | .cancelAll => true
  | .settle | .advance _ | .approach _ => false

def isArm : AlarmAct ε → Bool
  | .arm .. => true
  | _ => false

/-- An alarm that is due at the given instant rings in the act, which starts at `now`. -/
def reaches (now due : Nat) : AlarmAct ε → Bool
  | .settle => due ≤ now
  | .advance ms => due ≤ now + ms
  | .approach ms => due ≤ now || due < now + ms
  | _ => false

theorem disturbs_of_reaches {a : AlarmAct ε} {now due : Nat} (h : a.reaches now due = true) :
    a.disturbs = false := by
  cases a <;> first | rfl | cases h

end AlarmAct

namespace Desk

def act (d : Desk ε) : AlarmAct ε → Desk ε
  | .arm delay event => d.execute (.arm delay event)
  | .disarm => d.execute .disarm
  | .cancelAll => d.execute .cancelAll
  | .settle => d.settle
  | .advance ms => d.execute (.advance ms)
  | .approach ms => d.approach ms

/-- A run of a desk whose alarm makes the given choices, by the number of the arming. -/
def run (choice : Nat → Bool) (acts : List (AlarmAct ε)) : Desk ε :=
  acts.foldl act
    { timerFirst := fun key => match key with | .alarm number => choice number | .child _ => false }

end Desk

/-! ## The alarm by itself -/

structure Arming (ε : Type) where
  number : Nat
  due : Nat
  event : ε

def Arming.timer (a : Arming ε) : Timer TimerKey ε := ⟨.alarm a.number, a.due, a.event, none⟩

def Arming.note (a : Arming ε) : Nat × ε := (a.due, a.event)

/-- The alarm of a desk without its timers: what is pending, and what was posted. -/
structure AlarmState (ε : Type) where
  now : Nat := 0
  armings : Nat := 0
  /-- What was called off and has not been polled since, the oldest first. -/
  off : List (Arming ε) := []
  pending : Option (Arming ε) := none
  posted : List (Nat × ε) := []
  cancelled : Bool := false
  /-- The newest arming was not called off, whether it has rung or not. -/
  held : Bool := false

namespace AlarmState

def callOff (s : AlarmState ε) : AlarmState ε :=
  { s with off := s.off ++ s.pending.toList, pending := none, held := false }

def arm (s : AlarmState ε) (delay : Nat) (e : ε) : AlarmState ε :=
  let a : Arming ε := ⟨s.armings, s.now + delay, e⟩
  if s.cancelled then
    { s.callOff with armings := s.armings + 1, off := s.callOff.off ++ [a] }
  else { s.callOff with armings := s.armings + 1, pending := some a, held := true }

def late (choice : Nat → Bool) (s : AlarmState ε) : List (Arming ε) :=
  s.off.filter fun a => a.due ≤ s.now && choice a.number

def poll (choice : Nat → Bool) (s : AlarmState ε) : AlarmState ε :=
  { s with off := [], posted := s.posted ++ (s.late choice).map Arming.note }

def ring (s : AlarmState ε) (reached : Nat → Bool) : AlarmState ε :=
  match s.pending with
  | some a =>
    if reached a.due then { s with pending := none, posted := s.posted ++ [a.note] } else s
  | none => s

def elapse (s : AlarmState ε) (a : AlarmAct ε) : AlarmState ε :=
  { s.ring fun due => a.reaches s.now due with now := s.now + a.span }

def act (choice : Nat → Bool) (s : AlarmState ε) (a : AlarmAct ε) : AlarmState ε :=
  match a with
  | .arm delay e => s.arm delay e
  | .disarm => s.callOff
  | .cancelAll => { s.callOff with cancelled := true }
  | .settle | .advance _ | .approach _ => (s.poll choice).elapse a

def run (choice : Nat → Bool) (acts : List (AlarmAct ε)) : AlarmState ε :=
  acts.foldl (act choice) {}

theorem run_concat (choice : Nat → Bool) (acts : List (AlarmAct ε)) (a : AlarmAct ε) :
    run choice (acts ++ [a]) = (run choice acts).act choice a := by
  simp only [run, List.foldl_append, List.foldl_cons, List.foldl_nil]

def timers (s : AlarmState ε) : Timers TimerKey ε := (s.off ++ s.pending.toList).map Arming.timer

def loop (s : AlarmState ε) : EventLoop TimerKey ε (Receiver ε) :=
  { now := s.now, timers := s.timers, owner := { posted := s.posted } }

def Punctual (s : AlarmState ε) : Prop := ∀ a ∈ s.off ++ s.pending.toList, s.now ≤ a.due

variable {s : AlarmState ε} {choice : Nat → Bool}

theorem Punctual.pending (h : s.Punctual) {a : Arming ε} (ha : s.pending = some a) :
    s.now ≤ a.due :=
  h a (by simp [ha])

theorem ring_of_pending {a : Arming ε} (h : s.pending = some a) (reached : Nat → Bool) :
    s.ring reached =
      if reached a.due then { s with pending := none, posted := s.posted ++ [a.note] } else s := by
  simp only [ring, h]

theorem ring_of_idle (h : s.pending = none) (reached : Nat → Bool) : s.ring reached = s := by
  simp only [ring, h]

theorem ring_keeps (s : AlarmState ε) (reached : Nat → Bool) :
    (s.ring reached).now = s.now ∧ (s.ring reached).armings = s.armings ∧
      (s.ring reached).off = s.off ∧ (s.ring reached).cancelled = s.cancelled ∧
      (s.ring reached).held = s.held := by
  unfold ring
  split
  · split <;> exact ⟨rfl, rfl, rfl, rfl, rfl⟩
  · exact ⟨rfl, rfl, rfl, rfl, rfl⟩

theorem ring_pending {reached : Nat → Bool} {a : Arming ε} :
    (s.ring reached).pending = some a ↔ s.pending = some a ∧ reached a.due = false := by
  cases hp : s.pending with
  | none => simp [ring_of_idle hp, hp]
  | some b =>
    rw [ring_of_pending hp]
    cases hr : reached b.due with
    | true =>
      refine iff_of_false nofun ?_
      rintro ⟨hb, hlate⟩
      cases hb
      cases hr.symm.trans hlate
    | false =>
      simp only [Bool.false_eq_true, if_false, hp, Option.some.injEq]
      exact ⟨fun hb => ⟨hb, hb ▸ hr⟩, And.left⟩

theorem ring_at (s : AlarmState ε) (instant : Nat) (reached : Nat → Bool) :
    ({ s with now := instant } : AlarmState ε).ring reached =
      { s.ring reached with now := instant } := by
  obtain ⟨now, armings, off, pending, posted, cancelled, held⟩ := s
  cases pending with
  | none => rfl
  | some a =>
    simp only [ring]
    split <;> rfl

theorem ring_ring (s : AlarmState ε) (reached reached' : Nat → Bool) :
    (s.ring reached).ring reached' = s.ring fun due => reached due || reached' due := by
  cases hp : s.pending with
  | none => rw [ring_of_idle hp, ring_of_idle hp, ring_of_idle hp]
  | some a =>
    rw [ring_of_pending hp, ring_of_pending hp]
    cases hr : reached a.due with
    | true => simp [ring_of_idle]
    | false => simp [ring_of_pending hp]

/-! ### Running what is due -/

theorem foldl_handler {r : Receiver ε} (h : r.closed = false) (now : Nat) (es : List ε)
    (ts : Timers TimerKey ε) : es.foldl (fun w e => Desk.handler now e w) (r, ts) =
      ({ r with posted := r.posted ++ es.map fun e => (now, e) }, ts) := by
  induction es generalizing r with
  | nil => simp
  | cons e es ih =>
    have htake : r.take now e = { r with posted := r.posted ++ [(now, e)] } := by
      simp [Receiver.take, h]
    have hopen : (r.take now e).closed = false := by rw [htake, h]
    change es.foldl _ (r.take now e, ts) = _
    rw [ih hopen, htake]
    simp

/-- Single timers that are not late: those that are due fire in one round. -/
theorem settle_once {l : EventLoop TimerKey ε (Receiver ε)} (hlag : l.lag = 0)
    (hinbox : l.inbox = []) (hopen : l.owner.closed = false)
    (honce : ∀ t ∈ l.timers, t.period = none) (hpunctual : ∀ t ∈ l.timers, l.now ≤ t.deadline) :
    l.settle Desk.handler =
      { l with
        timers := l.timers.filter fun t => l.now < t.deadline
        owner := { l.owner with posted := l.owner.posted ++
          (l.timers.filter fun t => t.deadline ≤ l.now).map fun t => (l.now, t.event) } } := by
  have hdue : ∀ t : Timer TimerKey ε, t.due l.lag = t.deadline := fun t => by rw [hlag]; rfl
  have hquiet : l.quiet = true ↔ ∀ t ∈ l.timers, l.now < t.deadline := by
    rw [EventLoop.quiet_iff]
    simp only [hinbox, hdue, true_and]
  by_cases hq : ∀ t ∈ l.timers, l.now < t.deadline
  · have hnone : (l.timers.filter fun t => t.deadline ≤ l.now) = [] :=
      List.filter_eq_nil_iff.mpr fun t ht => by simpa using hq t ht
    have hall : (l.timers.filter fun t => l.now < t.deadline) = l.timers :=
      List.filter_eq_self.mpr fun t ht => decide_eq_true (hq t ht)
    rw [EventLoop.settle, EventLoop.settleFor_of_quiet (hquiet.mpr hq), hnone, hall,
      List.map_nil, List.append_nil]
  · have hbusy : l.quiet = false := Bool.eq_false_iff.mpr (hquiet.not.mpr hq)
    have hfiring : l.timers.firing l.lag l.now = l.timers.filter fun t => t.deadline ≤ l.now := by
      rw [Timers.firing_eq_filter fun t ht => by rw [hdue]; exact hpunctual t ht]
      simp only [hdue]
    have hagain : (l.timers.firing l.lag l.now).filterMap (fun t => t.again l.lag l.now) = [] := by
      refine List.filterMap_eq_nil_iff.mpr fun t ht => ?_
      rw [hfiring] at ht
      simp [Timer.again, honce t (List.mem_filter.mp ht).1]
    have hround : l.round Desk.handler =
        { l with
          timers := l.timers.filter fun t => l.now < t.deadline
          owner := { l.owner with posted := l.owner.posted ++
            (l.timers.filter fun t => t.deadline ≤ l.now).map fun t => (l.now, t.event) } } := by
      simp only [EventLoop.round, EventLoop.drain, EventLoop.fire, Timers.afterFiring, hagain]
      simp only [hfiring, hinbox, hdue, List.nil_append, List.append_nil, foldl_handler hopen,
        List.map_map, Function.comp_def]
    have hend : (l.round Desk.handler).quiet = true := by
      rw [hround]
      refine EventLoop.quiet_iff.mpr ⟨hinbox, fun t ht => ?_⟩
      exact (hdue t).symm ▸ of_decide_eq_true (List.mem_filter.mp ht).2
    unfold EventLoop.settle EventLoop.settleFor
    rw [hbusy, if_neg Bool.false_ne_true]
    change EventLoop.settleFor Desk.handler _ (l.round Desk.handler) = _
    rw [EventLoop.settleFor_of_quiet hend, hround]

theorem mem_timers {t : Timer TimerKey ε} :
    t ∈ s.timers ↔ ∃ a ∈ s.off ++ s.pending.toList, a.timer = t := by
  rw [timers, List.mem_map]

/-- What was called off but is due anyway rings, and then what is pending. -/
theorem settle_loop (h : s.Punctual) (hoff : ∀ a ∈ s.off, a.due ≤ s.now) :
    s.loop.settle Desk.handler =
      (({ s with off := [], posted := s.posted ++ s.off.map Arming.note } : AlarmState ε).ring
        fun due => due ≤ s.now).loop := by
  have honce : ∀ t ∈ s.loop.timers, t.period = none := by
    intro t ht
    obtain ⟨a, _, rfl⟩ := mem_timers.mp ht
    rfl
  have hpunctual : ∀ t ∈ s.loop.timers, s.loop.now ≤ t.deadline := by
    intro t ht
    obtain ⟨a, ha, rfl⟩ := mem_timers.mp ht
    exact h a ha
  have hgone : s.off.filter (fun a => s.now < a.due) = [] :=
    List.filter_eq_nil_iff.mpr fun a ha => by simpa using hoff a ha
  have hdue : s.off.filter (fun a => a.due ≤ s.now) = s.off :=
    List.filter_eq_self.mpr fun a ha => decide_eq_true (hoff a ha)
  have hkept : s.timers.filter (fun t => s.now < t.deadline) =
      (s.pending.toList.filter fun a => s.now < a.due).map Arming.timer := by
    rw [timers, List.filter_map, List.filter_append]
    change ((s.off.filter fun a => s.now < a.due) ++ _).map Arming.timer = _
    rw [hgone, List.nil_append]
    rfl
  have hfired : (s.timers.filter fun t => t.deadline ≤ s.now).map (fun t => (s.now, t.event)) =
      (s.off ++ s.pending.toList.filter fun a => a.due ≤ s.now).map Arming.note := by
    rw [timers, List.filter_map, List.filter_append, List.map_map]
    change ((s.off.filter fun a => a.due ≤ s.now) ++
      s.pending.toList.filter fun a => a.due ≤ s.now).map _ = _
    rw [hdue]
    refine List.map_congr_left fun a ha => ?_
    have hnow : s.now = a.due := by
      rcases List.mem_append.mp ha with ha | ha
      · exact Nat.le_antisymm (h a (List.mem_append_left _ ha)) (hoff a ha)
      · obtain ⟨ha, hle⟩ := List.mem_filter.mp ha
        exact Nat.le_antisymm (h a (List.mem_append_right _ ha)) (of_decide_eq_true hle)
    exact Prod.ext hnow rfl
  rw [settle_once rfl rfl rfl honce hpunctual]
  change EventLoop.mk 0 s.now (s.timers.filter fun t => s.now < t.deadline) []
    (Receiver.mk (s.posted ++
      (s.timers.filter fun t => t.deadline ≤ s.now).map fun t => (s.now, t.event)) false) = _
  rw [hkept, hfired]
  cases hp : s.pending with
  | none => simp [ring, loop, timers]
  | some a =>
    rcases Nat.lt_or_ge s.now a.due with hlt | hle
    · simp [ring, loop, timers, hlt, Nat.not_le_of_lt hlt]
    · simp [ring, loop, timers, hle, Nat.not_lt_of_le hle]

theorem settle_pending (h : s.Punctual) (hoff : s.off = []) :
    s.loop.settle Desk.handler = (s.ring fun due => due ≤ s.now).loop := by
  have hsettle := settle_loop h (by simp [hoff])
  obtain ⟨now, armings, off, pending, posted, cancelled, held⟩ := s
  cases hoff
  simpa using hsettle

theorem visit_idle (hoff : s.off = []) (h : s.pending = none) (stop k : Nat) :
    EventLoop.visit Desk.handler stop k s.loop = s.loop := by
  cases k with
  | zero => rfl
  | succ k =>
    have hnext : s.loop.timers.nextDue? s.loop.lag = none := by
      simp [loop, timers, hoff, h, Timers.nextDue?]
    unfold EventLoop.visit
    rw [hnext]

/-- A visit of the instants before `stop` finds the only one at which something is due. -/
theorem visit_loop {a : Arming ε} {stop k : Nat} (hoff : s.off = []) (h : s.pending = some a)
    (hlt : s.now < a.due) (hk : stop ≤ s.now + k) :
    { EventLoop.visit Desk.handler stop k s.loop with now := stop } =
      ({ s.ring (fun due => due < stop) with now := stop } : AlarmState ε).loop := by
  have hnext : s.loop.timers.nextDue? s.loop.lag = some a.due := by
    simp [loop, timers, hoff, h, Timers.nextDue?, Timer.due, Arming.timer]
  rw [ring_of_pending h]
  by_cases hstop : a.due < stop
  · obtain ⟨k, rfl⟩ : ∃ j, k = j + 1 := ⟨k - 1, by omega⟩
    have hmax : Nat.max s.now a.due = a.due := Nat.max_eq_right (Nat.le_of_lt hlt)
    have hthere : ({ s with now := a.due } : AlarmState ε).Punctual := by
      intro b hb
      simp only [hoff, h, List.nil_append, Option.toList_some, List.mem_singleton] at hb
      exact hb ▸ Nat.le_refl _
    have hsettle := settle_pending hthere hoff
    rw [ring_of_pending (s := { s with now := a.due }) h,
      if_pos (decide_eq_true (Nat.le_refl _))] at hsettle
    unfold EventLoop.visit
    rw [hnext]
    dsimp only
    rw [if_pos hstop, if_pos (decide_eq_true hstop)]
    change { EventLoop.visit Desk.handler stop k (EventLoop.settle Desk.handler
      { s.loop with now := Nat.max s.now a.due }) with now := stop } = _
    rw [hmax]
    change { EventLoop.visit Desk.handler stop k (EventLoop.settle Desk.handler
      ({ s with now := a.due } : AlarmState ε).loop) with now := stop } = _
    rw [hsettle]
    exact congrArg (fun l : EventLoop TimerKey ε (Receiver ε) => { l with now := stop })
      (visit_idle (s := { s with now := a.due, pending := none, posted := s.posted ++ [a.note] })
        hoff rfl stop k)
  · rw [if_neg (by simpa using hstop)]
    cases k with
    | zero => rfl
    | succ k =>
      unfold EventLoop.visit
      rw [hnext]
      dsimp only
      rw [if_neg hstop]
      rfl

/-! ### Time that passes -/

theorem elapse_punctual (h : s.Punctual) (hoff : s.off = []) (a : AlarmAct ε)
    (ha : a.disturbs = false) : (s.elapse a).Punctual := by
  intro b hb
  have hb : (s.ring fun due => a.reaches s.now due).pending = some b := by
    rw [elapse, (s.ring_keeps _).2.2.1, hoff, List.nil_append] at hb
    simpa using hb
  obtain ⟨hpend, hlate⟩ := ring_pending.mp hb
  have hnow := h.pending hpend
  cases a with
  | settle => exact hnow
  | advance ms => exact Nat.le_of_lt (Nat.lt_of_not_le (of_decide_eq_false hlate))
  | approach ms =>
    simp only [AlarmAct.reaches, Bool.or_eq_false_iff, decide_eq_false_iff_not] at hlate
    exact Nat.le_of_not_lt hlate.2
  | arm delay e => cases ha
  | disarm => cases ha
  | cancelAll => cases ha

theorem elapse_settle (s : AlarmState ε) :
    s.elapse .settle = s.ring fun due => due ≤ s.now := by
  change ({ s.ring fun due => due ≤ s.now with now := s.now } : AlarmState ε) = _
  rw [← ring_at]

section Elapsing

variable {l : EventLoop TimerKey ε (Receiver ε)} (hoff : s.off = [])
  (hsettle : l.settle Desk.handler = (s.ring fun due => due ≤ s.now).loop)

include hoff hsettle

theorem approach_loop (ms : Nat) :
    l.approach Desk.handler ms = (s.elapse (.approach ms)).loop := by
  change { EventLoop.visit Desk.handler ((l.settle Desk.handler).now + ms) ms
    (l.settle Desk.handler) with now := (l.settle Desk.handler).now + ms } = _
  have hnow : (s.ring fun due => due ≤ s.now).loop.now = s.now := (s.ring_keeps _).1
  have hgone : (s.ring fun due => due ≤ s.now).off = [] := (s.ring_keeps _).2.2.1.trans hoff
  have hvisit : { EventLoop.visit Desk.handler (s.now + ms) ms
      (s.ring fun due => due ≤ s.now).loop with now := s.now + ms } =
        ({ (s.ring fun due => due ≤ s.now).ring (fun due => due < s.now + ms) with
          now := s.now + ms } : AlarmState ε).loop := by
    cases hp : (s.ring fun due => due ≤ s.now).pending with
    | none =>
      rw [visit_idle hgone hp, ring_of_idle hp]
      rfl
    | some a =>
      have hlt : s.now < a.due := Nat.lt_of_not_le (of_decide_eq_false (ring_pending.mp hp).2)
      refine visit_loop hgone hp (Nat.lt_of_le_of_lt (Nat.le_of_eq hnow) hlt) ?_
      exact Nat.add_le_add_right (Nat.le_of_eq hnow.symm) ms
  rw [hsettle, hnow, hvisit, ring_ring]
  rfl

theorem advance_loop (h : s.Punctual) (ms : Nat) :
    l.advance Desk.handler ms = (s.elapse (.advance ms)).loop := by
  have hthere := elapse_punctual h hoff (.approach ms) rfl
  have hgone : (s.elapse (.approach ms)).off = [] := (s.ring_keeps _).2.2.1.trans hoff
  have hreach : (fun due => AlarmAct.reaches s.now due (.approach ms : AlarmAct ε) ||
      decide (due ≤ s.now + ms)) = fun due => decide (due ≤ s.now + ms) := by
    funext due
    rw [Bool.eq_iff_iff]
    simp only [AlarmAct.reaches, Bool.or_eq_true, decide_eq_true_eq]
    omega
  rw [EventLoop.advance, approach_loop hoff hsettle, settle_pending hthere hgone]
  change (({ s.ring _ with now := s.now + ms } : AlarmState ε).ring
    fun due => decide (due ≤ s.now + ms)).loop = _
  rw [ring_at, ring_ring, hreach]
  rfl

end Elapsing

theorem act_punctual (h : s.Punctual) (a : AlarmAct ε) : (s.act choice a).Punctual := by
  have hoff : s.callOff.Punctual := by simpa [Punctual, callOff] using h
  have hpoll : (s.poll choice).Punctual := fun b hb => h b (List.mem_append_right _ hb)
  cases a with
  | arm delay e =>
    intro b hb
    have hb : b ∈ s.callOff.off ∨ b = ⟨s.armings, s.now + delay, e⟩ := by
      cases hc : s.cancelled <;> simpa [act, arm, hc, callOff, or_assoc] using hb
    have hnow : (s.act choice (.arm delay e)).now = s.now := by
      simp only [act, arm]
      split <;> rfl
    rw [hnow]
    rcases hb with hb | rfl
    · exact hoff b (List.mem_append_left _ hb)
    · exact Nat.le_add_right _ _
  | disarm => exact hoff
  | cancelAll => exact hoff
  | settle => exact elapse_punctual hpoll rfl _ rfl
  | advance ms => exact elapse_punctual hpoll rfl _ rfl
  | approach ms => exact elapse_punctual hpoll rfl _ rfl

theorem run_punctual (choice : Nat → Bool) (acts : List (AlarmAct ε)) :
    (run choice acts).Punctual := by
  induction acts using List.reverseRecOn with
  | nil => exact nofun
  | append_singleton acts a ih =>
    rw [run_concat]
    exact act_punctual ih a

end AlarmState

/-! ## The alarm of a desk -/

/-- The desk is in the state of its alarm. A token whose task may still be there is either that of
what is pending, or cancelled. -/
structure Desk.Shows (choice : Nat → Bool) (d : Desk ε) (s : AlarmState ε) : Prop where
  loop_eq : d.loop = s.loop
  armings_eq : d.armings = s.armings
  cancelled_eq : d.cancelled = s.cancelled
  armed_eq : d.armed = s.held
  choices : ∀ number, d.timerFirst (.alarm number) = choice number
  issued : ∀ key ∈ d.pending.toList ++ d.revoked, ∃ number < d.armings, key = .alarm number
  live : ∀ a, s.pending = some a →
    d.pending = some a.timer.key ∧ d.isCancelled a.timer.key = false
  off : ∀ a ∈ s.off, d.isCancelled a.timer.key = true

namespace Desk.Shows

variable {choice : Nat → Bool} {d : Desk ε} {s : AlarmState ε}

theorem disarm (h : d.Shows choice s) : d.disarm.Shows choice s.callOff where
  loop_eq := by
    rw [show d.disarm.loop = s.loop from h.loop_eq]
    simp [AlarmState.loop, AlarmState.timers, AlarmState.callOff]
  armings_eq := h.armings_eq
  cancelled_eq := h.cancelled_eq
  armed_eq := rfl
  choices := h.choices
  issued := h.issued
  live := nofun
  off := by
    intro a ha
    have hmem : d.disarm.isCancelled a.timer.key = true ↔
        d.isCancelled a.timer.key = true ∨ a.timer.key ∈ d.pending.toList := by
      simp [Desk.isCancelled, Desk.disarm, or_assoc, or_comm]
    rw [hmem]
    rcases List.mem_append.mp ha with ha | ha
    · exact .inl (h.off a ha)
    · rw [(h.live a (by simpa using ha)).1]
      exact .inr (List.mem_singleton.mpr rfl)

theorem cancelAll (h : d.Shows choice s) :
    ({ d with cancelled := true } : Desk ε).Shows choice { s.callOff with cancelled := true } where
  loop_eq := by
    rw [show ({ d with cancelled := true } : Desk ε).loop = s.loop from h.loop_eq]
    simp [AlarmState.loop, AlarmState.timers, AlarmState.callOff]
  armings_eq := h.armings_eq
  cancelled_eq := rfl
  armed_eq := by
    cases d.pending <;> simp [Desk.armed, Desk.isCancelled, AlarmState.callOff]
  choices := h.choices
  issued := h.issued
  live := nofun
  off := fun _ _ => rfl

section Arming

variable (h : d.Shows choice s) (delay : Nat) (e : ε)

include h

/-- The token of an arming is new, so only the desk can have cancelled it. -/
theorem isCancelled_arm : (d.arm delay e).isCancelled (.alarm d.armings) = s.cancelled := by
  have hfresh : TimerKey.alarm d.armings ∉ d.disarm.revoked := by
    intro hmem
    obtain ⟨number, hlt, heq⟩ := h.issued _ hmem
    cases heq
    exact Nat.lt_irrefl _ hlt
  rw [← h.cancelled_eq]
  change (d.cancelled || d.disarm.revoked.contains (.alarm d.armings)) = d.cancelled
  simp [hfresh]

theorem loop_arm : (d.arm delay e).loop = (s.arm delay e).loop := by
  have hnow : d.loop.now = s.now := congrArg EventLoop.now h.loop_eq
  change EventLoop.mk _ _ (d.disarm.loop.timers ++ _) _ _ = _
  rw [h.disarm.loop_eq]
  cases hc : s.cancelled <;> simp [AlarmState.arm, AlarmState.loop, AlarmState.timers,
    AlarmState.callOff, hc, Arming.timer, h.armings_eq, hnow]

theorem issued_arm : ∀ key ∈ (d.arm delay e).pending.toList ++ (d.arm delay e).revoked,
    ∃ number < (d.arm delay e).armings, key = .alarm number := by
  intro key hmem
  rcases List.mem_cons.mp hmem with rfl | hmem
  · exact ⟨d.armings, Nat.lt_succ_self _, rfl⟩
  · obtain ⟨number, hlt, heq⟩ := h.issued key hmem
    exact ⟨number, Nat.lt_succ_of_lt hlt, heq⟩

theorem arm : (d.arm delay e).Shows choice (s.arm delay e) := by
  have hkey := h.isCancelled_arm delay e
  have harmed : (d.arm delay e).armed = !s.cancelled := by
    change (!(d.arm delay e).isCancelled (.alarm d.armings)) = _
    rw [hkey]
  have hloop := h.loop_arm delay e
  have hissued := h.issued_arm delay e
  cases hc : s.cancelled with
  | false =>
    rw [hc] at hkey harmed
    have hstate : s.arm delay e = { s.callOff with
        armings := s.armings + 1
        pending := some ⟨s.armings, s.now + delay, e⟩
        held := true } := by simp [AlarmState.arm, hc]
    rw [hstate] at hloop ⊢
    refine ⟨hloop, congrArg (· + 1) h.armings_eq, h.cancelled_eq, harmed, h.choices, hissued,
      fun a ha => ?_, h.disarm.off⟩
    cases ha
    simp only [Arming.timer, ← h.armings_eq]
    exact ⟨rfl, hkey⟩
  | true =>
    rw [hc] at hkey harmed
    have hstate : s.arm delay e = { s.callOff with
        armings := s.armings + 1
        off := s.callOff.off ++ [⟨s.armings, s.now + delay, e⟩] } := by simp [AlarmState.arm, hc]
    rw [hstate] at hloop ⊢
    refine ⟨hloop, congrArg (· + 1) h.armings_eq, h.cancelled_eq, harmed, h.choices, hissued,
      nofun, fun a _ => ?_⟩
    simp [Desk.isCancelled, Desk.arm, Desk.spawn, Desk.setTimers, Desk.disarm, h.cancelled_eq, hc]

end Arming

theorem elapse (h : d.Shows choice s) {l : EventLoop TimerKey ε (Receiver ε)} {a : AlarmAct ε}
    (hl : l = ((s.poll choice).elapse a).loop) :
    ({ d with loop := l } : Desk ε).Shows choice ((s.poll choice).elapse a) := by
  obtain ⟨_, harmings, hgone, hcancelled, hheld⟩ :=
    (s.poll choice).ring_keeps fun due => a.reaches s.now due
  refine ⟨hl, h.armings_eq.trans harmings.symm, h.cancelled_eq.trans hcancelled.symm,
    h.armed_eq.trans hheld.symm, h.choices, h.issued, fun b hb => ?_, fun b hb => ?_⟩
  · exact h.live b (AlarmState.ring_pending.mp hb).1
  · rw [show ((s.poll choice).elapse a).off = [] from hgone] at hb
    cases hb

/-- When the tasks are polled, those that were called off stay for a last time if they ring. -/
theorem poll_loop (h : d.Shows choice s) :
    d.poll.loop = ({ s with off := s.late choice } : AlarmState ε).loop := by
  have hoff : (s.off.map Arming.timer).filterMap d.polled? =
      (s.late choice).map Arming.timer := by
    rw [AlarmState.late, List.filterMap_map, ← List.filterMap_eq_filter, List.map_filterMap]
    refine List.filterMap_congr fun a ha => ?_
    have hdue : a.timer.due d.loop.lag ≤ d.loop.now ↔ a.due ≤ s.now := by rw [h.loop_eq]; rfl
    have hchoice : d.timerFirst a.timer.key = choice a.number := h.choices a.number
    simp only [Function.comp, Desk.polled?, h.off a ha, if_true, hdue, hchoice, Option.guard]
    split <;> rfl
  have hlive : (s.pending.toList.map Arming.timer).filterMap d.polled? =
      s.pending.toList.map Arming.timer := by
    cases hp : s.pending with
    | none => rfl
    | some a => simp [Desk.polled?, (h.live a hp).2]
  change EventLoop.mk d.loop.lag d.loop.now (d.loop.timers.filterMap d.polled?) d.loop.inbox
    d.loop.owner = _
  rw [h.loop_eq]
  change EventLoop.mk 0 s.now ((s.off ++ s.pending.toList).map Arming.timer |>.filterMap _) [] _ = _
  rw [List.map_append, List.filterMap_append, hoff, hlive, ← List.map_append]
  rfl

theorem settle_poll (h : d.Shows choice s) (hs : s.Punctual) : d.poll.loop.settle Desk.handler =
    ((s.poll choice).ring fun due => due ≤ s.now).loop := by
  have hlate : ({ s with off := s.late choice } : AlarmState ε).Punctual := by
    intro a ha
    rcases List.mem_append.mp ha with ha | ha
    · exact hs a (List.mem_append_left _ (List.mem_filter.mp ha).1)
    · exact hs a (List.mem_append_right _ ha)
  rw [h.poll_loop]
  refine AlarmState.settle_loop hlate fun a ha => ?_
  have hdue := (List.mem_filter.mp ha).2
  rw [Bool.and_eq_true] at hdue
  exact of_decide_eq_true hdue.1

theorem act (h : d.Shows choice s) (hs : s.Punctual) (a : AlarmAct ε) :
    (d.act a).Shows choice (s.act choice a) := by
  have hpoll : (s.poll choice).Punctual := fun b hb => hs b (List.mem_append_right _ hb)
  cases a with
  | arm delay e => exact h.arm delay e
  | disarm => exact h.disarm
  | cancelAll => exact h.cancelAll
  | settle => exact h.elapse ((h.settle_poll hs).trans
      (congrArg AlarmState.loop (AlarmState.elapse_settle _).symm))
  | advance ms => exact h.elapse (AlarmState.advance_loop rfl (h.settle_poll hs) hpoll ms)
  | approach ms => exact h.elapse (AlarmState.approach_loop rfl (h.settle_poll hs) ms)

end Desk.Shows

theorem Desk.run_shows (choice : Nat → Bool) (acts : List (AlarmAct ε)) :
    (Desk.run choice acts).Shows choice (AlarmState.run choice acts) := by
  induction acts using List.reverseRecOn with
  | nil => exact ⟨rfl, rfl, rfl, rfl, fun _ => rfl, nofun, nofun, nofun⟩
  | append_singleton acts a ih =>
    rw [AlarmState.run_concat, Desk.run, List.foldl_concat]
    exact ih.act (AlarmState.run_punctual choice acts) a

end PlaybackCues
