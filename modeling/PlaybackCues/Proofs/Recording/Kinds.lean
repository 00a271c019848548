import Mathlib.Data.List.Chain
import PlaybackCues.Recording.Basic

set_option autoImplicit false

/-!
# The events of a kind

The events of one kind in a list of events, the value of the last of them, and what stays of them
when an event is added or the value of an event is replaced.
-/
namespace PlaybackCues

def eventsOf (kind : EventKind) (events : List RecordedEvent) : List RecordedEvent :=
  events.filter fun e => e.kind = kind

def lastValue (kind : EventKind) (initial : Binary64) (events : List RecordedEvent) : Binary64 :=
  ((eventsOf kind events).getLast?.map RecordedEvent.value).getD initial

variable {kind : EventKind} {e : RecordedEvent} {es : List RecordedEvent} {v : Binary64} {i : Nat}

theorem eventsOf_concat (kind : EventKind) (es : List RecordedEvent) (e : RecordedEvent) :
    eventsOf kind (es ++ [e]) = if e.kind = kind then eventsOf kind es ++ [e]
      else eventsOf kind es := by
  unfold eventsOf
  rw [List.filter_append]
  split
  · rename_i h
    simp [h]
  · rename_i h
    simp [h]

theorem lastValue_nil : lastValue kind v [] = v := rfl

theorem lastValue_concat (es : List RecordedEvent) (e : RecordedEvent) :
    lastValue kind v (es ++ [e]) = if e.kind = kind then e.value else lastValue kind v es := by
  unfold lastValue
  rw [eventsOf_concat]
  split
  · simp
  · rfl

theorem lastValue_cases (kind : EventKind) (v : Binary64) (es : List RecordedEvent) :
    lastValue kind v es = v ∨ ∃ e ∈ es, e.kind = kind ∧ lastValue kind v es = e.value := by
  unfold lastValue
  cases hlast : (eventsOf kind es).getLast? with
  | none => exact .inl rfl
  | some e =>
    have hmem := List.mem_filter.mp (List.mem_of_getLast? hlast)
    exact .inr ⟨e, hmem.1, of_decide_eq_true hmem.2, rfl⟩

/-! ## Another value for an event -/

def revalued (events : List RecordedEvent) (i : Nat) (value : Binary64) : List RecordedEvent :=
  events.modify i fun e => { e with value }

theorem revalued_cons_zero : revalued (e :: es) 0 v = { e with value := v } :: es := rfl

theorem revalued_cons_succ : revalued (e :: es) (i + 1) v = e :: revalued es i v := rfl

theorem revalued_nil : revalued [] i v = [] := by simp [revalued]

theorem getElem?_revalued (es : List RecordedEvent) (i j : Nat) (v : Binary64) :
    (revalued es i v)[j]? = es[j]?.map fun e => if i = j then { e with value := v } else e := by
  rw [revalued, List.getElem?_modify]
  rfl

def RecordedEvent.unvalued (e : RecordedEvent) : RecordedEvent := { e with value := 0 }

theorem map_unvalued_revalued (es : List RecordedEvent) (i : Nat) (v : Binary64) :
    (revalued es i v).map RecordedEvent.unvalued = es.map RecordedEvent.unvalued := by
  refine List.ext_getElem? fun j => ?_
  rw [List.getElem?_map, List.getElem?_map, getElem?_revalued, Option.map_map]
  refine Option.map_congr fun e _ => ?_
  simp only [Function.comp_apply]
  split <;> rfl

/-- The values of other kinds do not count. -/
theorem eventsOf_revalued (h : ∀ e, es[i]? = some e → e.kind ≠ kind) (v : Binary64) :
    eventsOf kind (revalued es i v) = eventsOf kind es := by
  induction es generalizing i with
  | nil => rw [revalued_nil]
  | cons e es ih =>
    cases i with
    | zero =>
      have hkind : e.kind ≠ kind := h e rfl
      simp [eventsOf, revalued_cons_zero, hkind]
    | succ i =>
      have hrest := ih (i := i) h
      unfold eventsOf at hrest ⊢
      rw [revalued_cons_succ, List.filter_cons, List.filter_cons, hrest]

/-- Another value does not move an event. -/
theorem map_captured_eventsOf_revalued (kind : EventKind) (es : List RecordedEvent) (i : Nat)
    (v : Binary64) :
    (eventsOf kind (revalued es i v)).map RecordedEvent.captured =
      (eventsOf kind es).map RecordedEvent.captured := by
  induction es generalizing i with
  | nil => rw [revalued_nil]
  | cons e es ih =>
    unfold eventsOf at ih ⊢
    cases i with
    | zero =>
      rw [revalued_cons_zero, List.filter_cons, List.filter_cons]
      split <;> rfl
    | succ i =>
      rw [revalued_cons_succ, List.filter_cons, List.filter_cons]
      split <;> simp [ih]

/-! ## The newest event of a kind -/

structure Newest (kind : EventKind) (events : List RecordedEvent) (i : Nat) (e : RecordedEvent) :
    Prop where
  here : events[i]? = some e
  ofKind : e.kind = kind
  last : ∀ j d, i < j → events[j]? = some d → d.kind ≠ kind

namespace Newest

theorem concat (h : Newest kind es i e) {d : RecordedEvent} (hd : d.kind ≠ kind) :
    Newest kind (es ++ [d]) i e where
  here := by
    obtain ⟨hlt, _⟩ := List.getElem?_eq_some_iff.mp h.here
    rw [List.getElem?_append_left hlt, h.here]
  ofKind := h.ofKind
  last := by
    intro j d' hj hd'
    rw [List.getElem?_append] at hd'
    split at hd'
    · exact h.last j d' hj hd'
    · rwa [List.mem_singleton.mp (List.mem_of_getElem? hd')]

theorem added (hkind : e.kind = kind) (es : List RecordedEvent) :
    Newest kind (es ++ [e]) es.length e where
  here := List.getElem?_concat_length
  ofKind := hkind
  last := by
    intro j d hj hd
    obtain ⟨hlt, _⟩ := List.getElem?_eq_some_iff.mp hd
    rw [List.length_append, List.length_singleton] at hlt
    omega

theorem revalued (h : Newest kind es i e) (j : Nat) (v : Binary64) :
    ∃ d, Newest kind (revalued es j v) i d ∧ d.captured = e.captured := by
  refine ⟨if j = i then { e with value := v } else e, ⟨?_, ?_, ?_⟩, ?_⟩
  · rw [getElem?_revalued, h.here]
    rfl
  · split <;> exact h.ofKind
  · intro j' d hj hd
    rw [getElem?_revalued] at hd
    obtain ⟨d', hd', rfl⟩ := Option.map_eq_some_iff.mp hd
    have hkind := h.last j' d' hj hd'
    split <;> exact hkind
  · split <;> rfl

theorem getLast? (h : Newest kind es i e) : (eventsOf kind es).getLast? = some e := by
  induction es using List.reverseRecOn with
  | nil => cases h.here
  | append_singleton es d ih =>
    rw [eventsOf_concat]
    by_cases hi : i = es.length
    · obtain rfl : d = e := by simpa [hi] using h.here
      rw [if_pos h.ofKind, List.getLast?_concat]
    · have hlt : i < es.length := by
        obtain ⟨hlt, _⟩ := List.getElem?_eq_some_iff.mp h.here
        rw [List.length_append, List.length_singleton] at hlt
        omega
      have hd := h.last es.length d hlt List.getElem?_concat_length
      rw [if_neg hd]
      refine ih ⟨?_, h.ofKind, fun j d' hj hd' => ?_⟩
      · rw [← h.here, List.getElem?_append_left hlt]
      · obtain ⟨hj', _⟩ := List.getElem?_eq_some_iff.mp hd'
        exact h.last j d' hj (by rw [List.getElem?_append_left hj', hd'])

end Newest

end PlaybackCues
