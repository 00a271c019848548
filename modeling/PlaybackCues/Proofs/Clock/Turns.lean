import PlaybackCues.Clock.EventLoop

set_option autoImplicit false

/-!
# The turns of an owner

A turn is an event that the owner of a loop has handled, with its time and the state before and
after. A handler that only keeps something beside the state of the owner leads the loop through the
same states as the plain one; the one that records its turns, the newest first, is of this kind.

An alarm is a way to read turns: some open it with a datum, some close it. It is pending as long as
the newest turn that does either has opened it.
-/
namespace PlaybackCues

structure Turn (ε σ : Type) where
  time : Nat
  event : ε
  before : σ
  after : σ

section Recording

variable {κ ε σ τ : Type}

def Handler.turn (handle : Handler κ ε σ) (now : Nat) (e : ε) (w : σ × Timers κ ε) : Turn ε σ :=
  ⟨now, e, w.1, (handle now e w).1⟩

def Handler.recording (handle : Handler κ ε σ) : Handler κ ε (σ × List (Turn ε σ)) :=
  fun now e w =>
    let plain := (w.1.1, w.2)
    (((handle now e plain).1, Handler.turn handle now e plain :: w.1.2), (handle now e plain).2)

/-- The handler does what the plain one does, and keeps something beside it. -/
def Handler.Extends (handle : Handler κ ε (σ × τ)) (plain : Handler κ ε σ) : Prop :=
  ∀ now e w, ((handle now e w).1.1, (handle now e w).2) = plain now e (w.1.1, w.2)

theorem Handler.recording_extends (handle : Handler κ ε σ) : handle.recording.Extends handle :=
  fun _ _ _ => rfl

namespace EventLoop

def bare (l : EventLoop κ ε (σ × τ)) : EventLoop κ ε σ :=
  { lag := l.lag, now := l.now, timers := l.timers, inbox := l.inbox, owner := l.owner.1 }

variable {handle : Handler κ ε (σ × τ)} {plain : Handler κ ε σ} (h : handle.Extends plain)
  (l : EventLoop κ ε (σ × τ))

include h

theorem bare_drain : (l.drain handle).bare = l.bare.drain plain := by
  have hfold : ∀ (es : List ε) (w : (σ × τ) × Timers κ ε),
      ((es.foldl (fun s e => handle l.now e s) w).1.1,
        (es.foldl (fun s e => handle l.now e s) w).2) =
      es.foldl (fun s e => plain l.now e s) (w.1.1, w.2) := by
    intro es
    induction es with
    | nil => exact fun _ => rfl
    | cons e es ih =>
      intro w
      rw [List.foldl_cons, List.foldl_cons, ← h l.now e w]
      exact ih (handle l.now e w)
  have hdrain := hfold l.inbox (l.owner, l.timers)
  unfold drain bare
  simp only [← hdrain]

theorem bare_settleFor (k : Nat) :
    (settleFor handle k l).bare = settleFor plain k l.bare := by
  induction k generalizing l with
  | zero => rfl
  | succ k ih =>
    have hquiet : l.bare.quiet = l.quiet := rfl
    unfold settleFor
    rw [hquiet]
    split
    · rfl
    · rw [ih, bare_drain h]
      rfl

theorem bare_settle : (l.settle handle).bare = l.bare.settle plain :=
  bare_settleFor h l _

theorem bare_visit (stop k : Nat) :
    (visit handle stop k l).bare = visit plain stop k l.bare := by
  induction k generalizing l with
  | zero => rfl
  | succ k ih =>
    have hnext : l.bare.timers.nextDue? l.bare.lag = l.timers.nextDue? l.lag := rfl
    unfold visit
    rw [hnext]
    split
    · split
      · rw [ih, bare_settle h]
        rfl
      · rfl
    · rfl

theorem bare_approach (ms : Nat) :
    (l.approach handle ms).bare = l.bare.approach plain ms := by
  have hnow : (l.settle handle).now = (l.bare.settle plain).now := by
    rw [settle_now, settle_now]
    rfl
  change ({ bare (visit handle ((l.settle handle).now + ms) ms
    (l.settle handle)) with
      now := (l.settle handle).now + ms } : EventLoop κ ε σ) = _
  rw [bare_visit h, bare_settle h, hnow]
  rfl

theorem bare_advance (ms : Nat) :
    (l.advance handle ms).bare = l.bare.advance plain ms := by
  unfold advance
  rw [bare_settle h, bare_approach h]

end EventLoop

end Recording

/-! ## Reading turns -/

section Alarms

variable {τ α : Type}

def Throughout (P : τ → List τ → Prop) : List τ → Prop
  | [] => True
  | x :: xs => P x xs ∧ Throughout P xs

theorem Throughout.split {P : τ → List τ → Prop} {xs later earlier : List τ} {x : τ}
    (h : Throughout P xs) (heq : xs = later ++ x :: earlier) : P x earlier := by
  subst heq
  induction later with
  | nil => exact h.1
  | cons z later ih => exact ih h.2

structure Alarm (τ α : Type) where
  opens : τ → Option α
  closes : τ → Bool

namespace Alarm

def Passes (a : Alarm τ α) (x : τ) : Prop := a.opens x = none ∧ a.closes x = false

/-- The newest entry that opened the alarm, with its datum, if none has closed it since. -/
def pending? (a : Alarm τ α) : List τ → Option (τ × α)
  | [] => none
  | x :: xs =>
    match a.opens x with
    | some d => some (x, d)
    | none => if a.closes x then none else a.pending? xs

variable {a : Alarm τ α} {x : τ} {xs : List τ}

theorem pending?_opens {d : α} (h : a.opens x = some d) : a.pending? (x :: xs) = some (x, d) := by
  simp [pending?, h]

theorem pending?_closes (ho : a.opens x = none) (hc : a.closes x = true) :
    a.pending? (x :: xs) = none := by
  simp [pending?, ho, hc]

theorem pending?_passes (h : a.Passes x) : a.pending? (x :: xs) = a.pending? xs := by
  simp [pending?, h.1, h.2]

theorem pending?_cons_isSome : (a.pending? (x :: xs)).isSome = true ↔
    (a.opens x).isSome = true ∨ (a.pending? xs).isSome = true ∧ a.closes x = false := by
  cases ho : a.opens x with
  | some d => simp [pending?_opens ho]
  | none =>
    cases hc : a.closes x with
    | true => simp [pending?_closes ho hc]
    | false => simp [pending?_passes ⟨ho, hc⟩]

theorem pending?_eq_some {o : τ} {d : α} (h : a.pending? xs = some (o, d)) :
    ∃ between before, xs = between ++ o :: before ∧ a.opens o = some d ∧
      ∀ y ∈ between, a.Passes y := by
  induction xs with
  | nil => cases h
  | cons x xs ih =>
    cases ho : a.opens x with
    | some e =>
      rw [pending?_opens ho] at h
      cases h
      exact ⟨[], xs, rfl, ho, by simp⟩
    | none =>
      cases hc : a.closes x with
      | true =>
        rw [pending?_closes ho hc] at h
        cases h
      | false =>
        rw [pending?_passes ⟨ho, hc⟩] at h
        obtain ⟨between, before, rfl, hod, hpass⟩ := ih h
        exact ⟨x :: between, before, rfl, hod, List.forall_mem_cons.mpr ⟨⟨ho, hc⟩, hpass⟩⟩

theorem pending?_append {o : τ} {d : α} {between before : List τ} (ho : a.opens o = some d)
    (hpass : ∀ y ∈ between, a.Passes y) :
    a.pending? (between ++ o :: before) = some (o, d) := by
  induction between with
  | nil => exact pending?_opens ho
  | cons y between ih =>
    obtain ⟨hy, hpass⟩ := List.forall_mem_cons.mp hpass
    rw [List.cons_append, pending?_passes hy]
    exact ih hpass

/-- Either nothing has happened to the alarm, or there is a first entry that closes it or opens it
anew. -/
theorem exists_first (a : Alarm τ α) (later : List τ) :
    (∀ y ∈ later, a.Passes y) ∨ ∃ after y between, later = after ++ y :: between ∧
      ¬ a.Passes y ∧ ∀ z ∈ between, a.Passes z := by
  induction later with
  | nil => exact .inl (by simp)
  | cons y later ih =>
    rcases ih with hall | ⟨after, z, between, rfl, hz, hbetween⟩
    · by_cases hy : a.Passes y
      · exact .inl (List.forall_mem_cons.mpr ⟨hy, hall⟩)
      · exact .inr ⟨[], y, later, rfl, hy, hall⟩
    · exact .inr ⟨y :: after, z, between, rfl, hz, hbetween⟩

/-! ### In the order of time -/

/-- Of entries in the order of time, one opens the alarm and the other is the first after it that
opens or closes it. -/
structure Ends (a : Alarm τ α) (ys : List τ) (i j : Nat) : Prop where
  lt : i < j
  opens : ∃ o, ys[i]? = some o ∧ (a.opens o).isSome = true
  ends : ∃ y, ys[j]? = some y ∧ ¬ a.Passes y
  between : ∀ k z, i < k → k < j → ys[k]? = some z → a.Passes z

theorem Ends.right_unique {ys : List τ} {i j k : Nat} (hj : a.Ends ys i j) (hk : a.Ends ys i k) :
    j = k := by
  have hle : ∀ {j k : Nat}, a.Ends ys i j → a.Ends ys i k → j ≤ k := by
    intro j k hj hk
    obtain ⟨z, hz, hpass⟩ := hk.ends
    exact Nat.le_of_not_lt fun h => hpass (hj.between k z hk.lt h hz)
  exact Nat.le_antisymm (hle hj hk) (hle hk hj)

theorem getElem?_reverse_iff {j : Nat} {y : τ} : xs.reverse[j]? = some y ↔
    ∃ later earlier, xs = later ++ y :: earlier ∧ earlier.length = j := by
  constructor
  · intro h
    obtain ⟨hj, hy⟩ := List.getElem?_eq_some_iff.mp h
    refine ⟨(xs.reverse.drop (j + 1)).reverse, (xs.reverse.take j).reverse, ?_, ?_⟩
    · have hsplit : xs.reverse.take j ++ y :: xs.reverse.drop (j + 1) = xs.reverse := by
        rw [← hy, ← List.drop_eq_getElem_cons hj, List.take_append_drop]
      rw [← List.reverse_inj, List.reverse_append, List.reverse_cons, List.reverse_reverse,
        List.reverse_reverse, List.append_assoc, List.singleton_append, hsplit]
    · rw [List.length_reverse, List.length_take]
      omega
  · rintro ⟨later, earlier, rfl, rfl⟩
    simp

theorem ends_of_append {o y : τ} {later between before : List τ} (ho : (a.opens o).isSome = true)
    (hy : ¬ a.Passes y) (hpass : ∀ z ∈ between, a.Passes z) :
    a.Ends (later ++ y :: (between ++ o :: before)).reverse before.length
      (between ++ o :: before).length where
  lt := by
    rw [List.length_append, List.length_cons]
    omega
  opens := ⟨o, getElem?_reverse_iff.mpr ⟨later ++ y :: between, before, by simp, rfl⟩, ho⟩
  ends := ⟨y, getElem?_reverse_iff.mpr ⟨later, _, rfl, rfl⟩, hy⟩
  between := by
    intro k z hk hkj hz
    refine hpass z ?_
    rw [List.length_append, List.length_cons] at hkj
    have hrev : (later ++ y :: (between ++ o :: before)).reverse =
        (before.reverse ++ [o]) ++ (between.reverse ++ (y :: later.reverse)) := by simp
    rw [hrev, List.getElem?_append_right (by simp; omega),
      List.getElem?_append_left (by simp; omega)] at hz
    exact List.mem_reverse.mp (List.mem_of_getElem? hz)

/-- What opens the alarm is pending until the first entry that opens or closes it, if there is
one. -/
theorem ended_or_pending {i : Nat} {o : τ} {d : α} (hi : xs.reverse[i]? = some o)
    (ho : a.opens o = some d) :
    (∃ later y earlier, xs = later ++ y :: earlier ∧ a.pending? earlier = some (o, d) ∧
      a.Ends xs.reverse i earlier.length ∧ ¬ a.Passes y) ∨ a.pending? xs = some (o, d) := by
  obtain ⟨later, before, rfl, rfl⟩ := getElem?_reverse_iff.mp hi
  rcases a.exists_first later with hall | ⟨after, y, between, rfl, hy, hpass⟩
  · exact .inr (pending?_append ho hall)
  · have hsplit :
        after ++ y :: between ++ o :: before = after ++ y :: (between ++ o :: before) := by
      simp
    rw [hsplit]
    exact .inl ⟨after, y, between ++ o :: before, rfl, pending?_append ho hpass,
      ends_of_append (by simp [ho]) hy hpass, hy⟩

/-- An entry that fires comes when the pending opening is due, and no entry comes later. -/
structure OnTime (a : Alarm τ α) (time : τ → Nat) (due : τ → α → Nat) (fires : τ → Bool) (x : τ)
    (earlier : List τ) : Prop where
  fired : fires x = true → ∃ o d, a.pending? earlier = some (o, d) ∧ time x = due o d
  waited : ∀ o d, a.pending? earlier = some (o, d) → time x ≤ due o d

variable {time : τ → Nat} {due : τ → α → Nat} {fires : τ → Bool}

/-- An entry that fires ends an opening that was pending until then, when it is due. -/
theorem fired_on_time {j : Nat} {y : τ} (h : Throughout (a.OnTime time due fires) xs)
    (hj : xs.reverse[j]? = some y) (hfires : fires y = true) (hy : ¬ a.Passes y) :
    ∃ i o d later earlier, xs.reverse[i]? = some o ∧ a.opens o = some d ∧ time y = due o d ∧
      a.Ends xs.reverse i j ∧ xs = later ++ y :: earlier ∧ a.pending? earlier = some (o, d) := by
  obtain ⟨later, earlier, heq, rfl⟩ := getElem?_reverse_iff.mp hj
  obtain ⟨o, d, hpend, htime⟩ := (h.split heq).fired hfires
  obtain ⟨between, before, rfl, ho, hpass⟩ := pending?_eq_some hpend
  have hi : xs.reverse[before.length]? = some o :=
    getElem?_reverse_iff.mpr ⟨later ++ y :: between, before, by simp [heq], rfl⟩
  refine ⟨before.length, o, d, later, _, hi, ho, htime, ?_, heq, hpend⟩
  rw [heq]
  exact ends_of_append (by simp [ho]) hy hpass

/-- What opens the alarm is ended when it is due, or by another entry until then, or is still
pending. -/
theorem ended_on_time {i : Nat} {o : τ} {d : α} (h : Throughout (a.OnTime time due fires) xs)
    (hi : xs.reverse[i]? = some o) (ho : a.opens o = some d) :
    (∃ j y later earlier, xs.reverse[j]? = some y ∧ a.Ends xs.reverse i j ∧ ¬ a.Passes y ∧
      (fires y = true → time y = due o d) ∧ time y ≤ due o d ∧
      xs = later ++ y :: earlier ∧ a.pending? earlier = some (o, d)) ∨
    a.pending? xs = some (o, d) := by
  rcases ended_or_pending hi ho with ⟨later, y, earlier, heq, hpend, hends, hy⟩ | hpend
  · refine .inl ⟨earlier.length, y, later, earlier, ?_, hends, hy, fun hfires => ?_,
      (h.split heq).waited o d hpend, heq, hpend⟩
    · exact getElem?_reverse_iff.mpr ⟨later, earlier, heq, rfl⟩
    · obtain ⟨o', d', hpend', htime⟩ := (h.split heq).fired hfires
      cases hpend.symm.trans hpend'
      exact htime
  · exact .inr hpend

end Alarm

end Alarms

end PlaybackCues
