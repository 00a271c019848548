import PlaybackCues.Proofs.Cue.Built
import PlaybackCues.Resolver.Tick

set_option autoImplicit false

/-!
# Runs of the resolver

An action is whatever can be done to a resolver. The states that matter are those that actions
reach from a new resolver when every loaded list is `Built`. A history is a run with the state each
action met.
-/
namespace PlaybackCues

inductive Action where
  | load (cues : List Cue)
  | tick (seen : Snapshot)
  | userSeek (target : Seconds)
  | resumeDue
  | reset
  | endOfMedia

def Action.Sound : Action → Prop
  | .load cues => Built cues
  | _ => True

namespace Resolver

def act (r : Resolver) : Action → Response
  | .load cues => r.load cues
  | .tick seen => r.tick seen
  | .userSeek target => r.userSeek target
  | .resumeDue => r.resumeDue
  | .reset => r.reset
  | .endOfMedia => r.endOfMedia

def run (r : Resolver) : List Action → Resolver
  | [] => r
  | a :: as => run (r.act a).resolver as

/-! ## Loading -/

def knows (cues : List Cue) (id : Uuid) : Bool := (byIndex cues).any fun c => c.id = id

theorem mem_byIndex {cues : List Cue} {c : Cue} : c ∈ byIndex cues ↔ c ∈ cues := List.mem_mergeSort

theorem knows_iff {cues : List Cue} {id : Uuid} :
    knows cues id = true ↔ id ∈ cues.map fun c => c.id := by
  simp [knows, mem_byIndex]

theorem load_kept {r : Resolver} {cues : List Cue} (h : r.active.all (knows cues) = true) :
    r.load cues =
      ⟨{ r with executed := r.executed.filter (knows cues), cues := byIndex cues }, []⟩ := by
  exact if_pos h

theorem load_lost {r : Resolver} {cues : List Cue} (h : ¬ r.active.all (knows cues) = true) :
    r.load cues =
      ⟨{ r with
          executed := r.executed.filter (knows cues), cues := byIndex cues
          active := none, flight := none, restore := some r.defaults },
        r.defaults.directives⟩ := by
  exact if_neg h

theorem byIndex_of_sorted {cues : List Cue} (h : cues.Pairwise fun c d => c.index ≤ d.index) :
    byIndex cues = cues :=
  List.mergeSort_of_pairwise (h.imp decide_eq_true)

theorem byIndex_sorted (cues : List Cue) :
    (byIndex cues).Pairwise fun c d => c.index ≤ d.index := by
  have h : (cues.mergeSort fun c d => c.index ≤ d.index).Pairwise
      fun c d => decide (c.index ≤ d.index) = true :=
    List.pairwise_mergeSort
      (fun a b c hab hbc => by simp only [decide_eq_true_eq] at *; omega)
      (fun a b => by simp only [Bool.or_eq_true, decide_eq_true_eq]; omega) cues
  exact h.imp of_decide_eq_true

theorem load_new (t : Tolerances) {cues : List Cue}
    (h : cues.Pairwise fun c d => c.index ≤ d.index) :
    (({ tolerances := t } : Resolver).load cues).resolver = { tolerances := t, cues := cues } := by
  rw [load_kept rfl, byIndex_of_sorted h]
  rfl

def fresh (t : Tolerances) (cues : List Cue) : Resolver :=
  (({ tolerances := t } : Resolver).load cues).resolver

theorem fresh_eq (t : Tolerances) (cues : List Cue) :
    fresh t cues = { tolerances := t, cues := byIndex cues } := by
  rw [fresh, load_kept rfl]
  rfl

/-! ## Runs and histories -/

inductive Reachable (t : Tolerances) : Resolver → Prop where
  | new : Reachable t { tolerances := t }
  | act {r : Resolver} (a : Action) :
      Reachable t r → a.Sound → Reachable t (r.act a).resolver

theorem Reachable.loaded (t : Tolerances) {cues : List Cue} (hb : Built cues)
    (hs : cues.Pairwise fun c d => c.index ≤ d.index) :
    Reachable t { tolerances := t, cues := cues } := by
  have h := Reachable.new (t := t) |>.act (.load cues) hb
  rwa [Resolver.act, load_new t hs] at h

theorem Reachable.run {t : Tolerances} {r : Resolver} {as : List Action} (h : Reachable t r)
    (has : ∀ a ∈ as, a.Sound) : Reachable t (r.run as) := by
  induction as generalizing r with
  | nil => exact h
  | cons a as ih =>
    have ha := has a List.mem_cons_self
    exact ih (h.act a ha) (fun b hb => has b (List.mem_cons_of_mem a hb))

/-- An action of a run and the state it met. -/
structure Moment where
  before : Resolver
  action : Action

def Moment.after (m : Moment) : Response := m.before.act m.action

def history (r : Resolver) : List Action → List Moment
  | [] => []
  | a :: as => ⟨r, a⟩ :: history (r.act a).resolver as

theorem run_append (r : Resolver) (xs ys : List Action) :
    r.run (xs ++ ys) = (r.run xs).run ys := by
  induction xs generalizing r with
  | nil => rfl
  | cons a xs ih => exact ih (r.act a).resolver

theorem history_append (r : Resolver) (xs ys : List Action) :
    r.history (xs ++ ys) = r.history xs ++ (r.run xs).history ys := by
  induction xs generalizing r with
  | nil => rfl
  | cons a xs ih => exact congrArg (⟨r, a⟩ :: ·) (ih (r.act a).resolver)

theorem mem_history {r : Resolver} {as : List Action} {m : Moment} (hm : m ∈ r.history as) :
    ∃ xs ys, as = xs ++ m.action :: ys ∧ m.before = r.run xs := by
  induction as generalizing r with
  | nil => cases hm
  | cons a as ih =>
    rcases List.mem_cons.mp hm with rfl | hm
    · exact ⟨[], as, rfl, rfl⟩
    · obtain ⟨xs, ys, rfl, hb⟩ := ih hm
      exact ⟨a :: xs, ys, rfl, hb⟩

end Resolver

end PlaybackCues
