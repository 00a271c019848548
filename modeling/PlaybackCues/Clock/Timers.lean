set_option autoImplicit false

/-!
# Timers

A timer has a deadline and an event that it posts when it fires. A ticker is a timer with a period,
which is armed again as it fires; one that fires late skips the deadlines that have passed. A list
of timers is in the order of arming. Timers that fire at one instant do so in the order of their
deadlines, and those of one deadline in the order of arming.

A clock may notice a deadline late by a fixed lag; `due` is the instant at which a timer fires.
-/
namespace PlaybackCues

structure Timer (κ ε : Type) where
  /-- Who armed the timer, and can cancel it. -/
  key : κ
  deadline : Nat
  event : ε
  period : Option Nat := none

namespace Timer

variable {κ ε : Type}

def due (lag : Nat) (t : Timer κ ε) : Nat := t.deadline + lag

/-- A ticker that fires at `now` is armed again for the first deadline of its grid that is not
over. -/
def again (lag now : Nat) (t : Timer κ ε) : Option (Timer κ ε) :=
  t.period.map fun p => { t with deadline := t.deadline + p * ((now - t.due lag) / p + 1) }

theorem deadline_again {lag now : Nat} {t u : Timer κ ε} (h : t.again lag now = some u)
    (hp : t.period ≠ some 0) : now < u.due lag := by
  unfold again at h
  cases hq : t.period with
  | none => simp [hq] at h
  | some p =>
    rw [hq] at h
    simp only [Option.map_some, Option.some.injEq] at h
    subst h
    have hp0 : 0 < p := Nat.pos_of_ne_zero fun h0 => hp (by rw [hq, h0])
    have hlt := Nat.lt_mul_div_succ (now - t.due lag) hp0
    simp only [due] at hlt ⊢
    omega

end Timer

abbrev Timers (κ ε : Type) := List (Timer κ ε)

namespace Timers

variable {κ ε : Type}

def arm (ts : Timers κ ε) (t : Timer κ ε) : Timers κ ε := ts ++ [t]

/-- Drops the timers of a key. It suits an owner for whom a timer that is told too late, and still
posts, makes no difference; otherwise timers need tokens. -/
def cancel [DecidableEq κ] (ts : Timers κ ε) (key : κ) : Timers κ ε :=
  ts.filter fun t => t.key ≠ key

/-- Puts a timer in front of those whose deadline is not earlier. -/
def insert (t : Timer κ ε) : Timers κ ε → Timers κ ε
  | [] => [t]
  | u :: us => if t.deadline ≤ u.deadline then t :: u :: us else u :: insert t us

/-- In the order of the deadlines; timers of one deadline keep their order. -/
def inOrder (ts : Timers κ ε) : Timers κ ε := ts.foldr insert []

/-- The timers that fire at `now`, in the order in which they do. -/
def firing (lag now : Nat) (ts : Timers κ ε) : Timers κ ε :=
  inOrder (ts.filter fun t => t.due lag ≤ now)

/-- The timers that are armed after those due at `now` have fired. -/
def afterFiring (lag now : Nat) (ts : Timers κ ε) : Timers κ ε :=
  (ts.filter fun t => now < t.due lag) ++ (firing lag now ts).filterMap fun t => t.again lag now

def nextDue? (lag : Nat) (ts : Timers κ ε) : Option Nat := (ts.map fun t => t.due lag).min?

end Timers

end PlaybackCues
