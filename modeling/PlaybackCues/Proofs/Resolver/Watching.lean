import PlaybackCues.Proofs.Number.Order
import PlaybackCues.Proofs.Resolver.Forward

set_option autoImplicit false

/-!
# Watching an obedient player

A look is a tick together with what it saw. In a watched run the player carries out what each tick
sends, and between two looks playback gets on by at most `stride`. The last time of the resolver
then follows the player: it is the player's time, or the target of a jump that the player reached
at most as many strides ago as ticks have waited for it.
-/
namespace PlaybackCues

def stride : Seconds := 0.2

structure Strides (k : Nat) (a b : Seconds) : Prop where
  finite_left : a.isFinite = true
  finite_right : b.isFinite = true
  le : a ≤ b
  near : b.units - a.units ≤ k * stride.units

instance (k : Nat) (a b : Seconds) : Decidable (Strides k a b) :=
  decidable_of_iff (a.isFinite = true ∧ b.isFinite = true ∧ a ≤ b ∧
      b.units - a.units ≤ k * stride.units)
    ⟨fun ⟨h1, h2, h3, h4⟩ => ⟨h1, h2, h3, h4⟩, fun ⟨h1, h2, h3, h4⟩ => ⟨h1, h2, h3, h4⟩⟩

namespace Strides

variable {a b c : Seconds} {j k : Nat}

theorem stride_nonneg : 0 ≤ stride.units := by decide +kernel

theorem ten_strides : Binary64.rounded ((10 * stride.units).toNat : Int) ≤ (2 : Seconds).units := by
  decide +kernel

theorem refl (h : a.isFinite = true) : Strides 0 a a :=
  ⟨h, h, (Binary64.le_iff_units h h).mpr (Int.le_refl _), by omega⟩

theorem add (hab : Strides j a b) (hbc : Strides k b c) : Strides (j + k) a c where
  finite_left := hab.finite_left
  finite_right := hbc.finite_right
  le := Binary64.le_trans hab.le hbc.le
  near := by
    have h1 := hab.near
    have h2 := hbc.near
    rw [Int.natCast_add, Int.add_mul]
    omega

theorem distance_le (h : Strides k a b) (hk : k ≤ 10) : (b - a).abs ≤ 2 := by
  have hle := (Binary64.le_iff_units h.finite_left h.finite_right).mp h.le
  have hmul : (k : Int) * stride.units ≤ 10 * stride.units :=
    Int.mul_le_mul_of_nonneg_right (Int.ofNat_le.mpr hk) stride_nonneg
  have hnear := h.near
  refine Binary64.distance_le h.finite_right h.finite_left (by decide +kernel) ?_ ten_strides
  omega

end Strides

def Directive.moves : Directive → Bool
  | .seek _ _ => true
  | _ => false

theorem obeyAll_time {ds : List Directive} {p : Snapshot} (h : ∀ d ∈ ds, d.moves = false) :
    (p.obeyAll ds).time = p.time := by
  induction ds generalizing p with
  | nil => rfl
  | cons d ds ih =>
    have hhead := h d List.mem_cons_self
    have hone : (p.obey d).time = p.time := by
      cases d <;> first | rfl | cases hhead
    exact (ih (p := p.obey d) fun e he => h e (List.mem_cons_of_mem d he)).trans hone

theorem LevelsOnly.moves {ds : List Directive} (h : LevelsOnly ds) :
    ∀ d ∈ ds, d.moves = false := by
  intro d hd
  have := h d hd
  cases d <;> first | rfl | cases this

theorem obeyAll_seek (p : Snapshot) (ds : List Directive) (target : Seconds) (o : SeekOrigin) :
    (p.obeyAll (ds ++ [.seek target o])).time = target := by
  unfold Snapshot.obeyAll
  rw [List.foldl_append]
  rfl

namespace Resolver

/-! ## Where a tick leaves the resolver -/

inductive Arrival (r : Resolver) (s : Snapshot) : Response → Prop where
  | waiting (f : Flight) : r.flight = some f → r.landed f s.time = false →
      f.waited < r.tolerances.settleTicks → r.displaced s = false →
      Arrival r s ⟨{ r with flight := some { f with waited := f.waited + 1 } }, []⟩
  | jump (q : Resolver) (c next : Cue) : r.settle s.time = .done q → r.expiring? s = some c →
      (q.finish c).successor? c = some next → Arrival r s ((q.finish c).chain c next s.time)
  | rest (a : Response) : a.resolver.last = s.time → a.resolver.flight = none →
      (∀ d ∈ a.directives, d.moves = false) → Arrival r s a

theorem arrival_idle {r q : Resolver} {s : Snapshot} {rest : Response}
    (ho : (q.detect s.time).resolver.continueActive s = .idle rest)
    (hf : rest.resolver.flight = none) : Arrival r s (q.evaluate s) := by
  have hsent := (evaluate_idle_levelsOnly ho).moves
  rw [evaluate_idle ho] at hsent ⊢
  exact .rest _ rfl ((idle_flight _ s _).trans hf) hsent

theorem tick_arrival (r : Resolver) {s : Snapshot} (hs : s.state ≠ .ended) :
    Arrival r s (r.tick s) := by
  have ht := r.ticked s
  generalize r.tick s = a at ht ⊢
  cases ht with
  | renewed hended => exact absurd hended hs
  | finished hended => exact absurd hended hs
  | waiting f _ hq hf hl hw => exact .waiting f hf hl hw (by simp [displaced, hq])
  | evaluated q _ hq =>
    have hd := q.detect_levelsOnly s.time
    have hf := Coherent.detect_flight (settle_flight hq) s.time
    have hp := (q.detect s.time).resolver.passage s
    generalize ho : (q.detect s.time).resolver.continueActive s = o at hp
    cases hp with
    | hold c hc hcov =>
      rw [evaluate_stop ho]
      exact .rest _ rfl hf (hd.append (correction_levelsOnly _ _ _)).moves
    | jump c next hc hcov hm hn =>
      obtain ⟨hstill, he⟩ := expiring?_of_detect hs hq hc hcov
      rw [evaluate_stop ho, hstill]
      rw [hstill] at hn
      exact .jump q c next hq he hn
    | pause c seconds hc hcov hm =>
      rw [evaluate_stop ho]
      refine .rest _ rfl hf ?_
      intro d hmem
      rcases List.mem_append.mp hmem with hmem | hmem
      · exact hd.moves d hmem
      · rcases List.mem_append.mp hmem with hmem | hmem
        · exact (levelsOnly_directives _).moves d hmem
        · simp only [List.mem_cons, List.not_mem_nil, or_false] at hmem
          rcases hmem with rfl | rfl <;> rfl
    | finish => exact arrival_idle ho hf
    | lost => exact arrival_idle ho hf
    | rest => exact arrival_idle ho hf

/-! ## Looks -/

structure Look where
  before : Resolver
  seen : Snapshot
  deriving DecidableEq

namespace Look

def time (l : Look) : Seconds := l.seen.time

def after (l : Look) : Response := l.before.tick l.seen

def landing (l : Look) : Seconds := (l.seen.obeyAll l.after.directives).time

def displaced (l : Look) : Bool := l.before.displaced l.seen

end Look

def opening (cues : List Cue) : Resolver := (({ tolerances := {} } : Resolver).load cues).resolver

/-- Runs of looks, the newest first, at a player that obeys. From look to look its levels and its
state may be anything but the end of the media, and a pause may be over. -/
inductive Watched (cues : List Cue) : List Look → Prop where
  | first (l : Look) : Built cues → l.before = opening cues → l.seen.state ≠ .ended →
      Strides 1 0 l.time → Watched cues [l]
  | next (k l : Look) (ls : List Look) : Watched cues (l :: ls) →
      k.before = l.after.resolver ∨ k.before = l.after.resolver.resumeDue.resolver →
      k.seen.state ≠ .ended → Strides 1 l.landing k.time → Watched cues (k :: l :: ls)

structure Synced (r : Resolver) (now : Seconds) : Prop where
  coherent : Coherent {} r
  finite : now.isFinite = true
  still : r.flight = none → r.last = now
  flying : ∀ f, r.flight = some f →
    r.last = f.target ∧ f.origin.isFinite = true ∧ Strides f.waited f.target now

namespace Synced

variable {r : Resolver} {now : Seconds} {s : Snapshot}

theorem opening {cues : List Cue} (hb : Built cues) : Synced (opening cues) 0 where
  coherent := (Reachable.new.act (.load cues) hb).coherent
  finite := by decide +kernel
  still := by
    intro _
    rw [Resolver.opening, load_kept rfl]
  flying := by
    intro f hf
    rw [Resolver.opening, load_kept rfl] at hf
    cases hf

theorem resumeDue (h : Synced r now) : Synced r.resumeDue.resolver now := by
  have hc := h.coherent.resumeDue
  rw [resumeDue_resolver] at hc ⊢
  exact ⟨hc, h.finite, h.still, h.flying⟩

theorem tick (h : Synced r now) (hs : s.state ≠ .ended) (hn : Strides 1 now s.time) :
    Synced (r.tick s).resolver (s.obeyAll (r.tick s).directives).time := by
  have hc := h.coherent.tick s
  have ha := tick_arrival r hs
  generalize r.tick s = a at hc ha
  cases ha with
  | waiting f hf hl hw hd =>
    obtain ⟨hlast, horigin, hstr⟩ := h.flying f hf
    refine ⟨hc, hn.finite_right, by simp, ?_⟩
    intro g hg
    cases hg
    exact ⟨hlast, horigin, hstr.add hn⟩
  | jump q c next hq he hnext =>
    have hmem : next ∈ q.cues := List.mem_of_find?_eq_some hnext
    have hfin : next.start.isFinite = true := by
      obtain ⟨last, rfl⟩ := settle_done hq
      exact (h.coherent.built.window hmem).1
    have htime : (s.obeyAll ((q.finish c).chain c next s.time).directives).time = next.start :=
      obeyAll_seek s _ next.start .engine
    rw [htime]
    refine ⟨hc, hfin, by simp [chain], ?_⟩
    intro g hg
    cases hg
    exact ⟨rfl, hn.finite_right, .refl hfin⟩
  | rest a hlast hf hd =>
    rw [obeyAll_time hd]
    refine ⟨hc, hn.finite_right, fun _ => hlast, ?_⟩
    intro f hf'
    rw [hf] at hf'
    cases hf'

end Synced

variable {cues : List Cue} {l k : Look} {ls : List Look}

theorem Watched.met (h : Watched cues (l :: ls)) :
    l.seen.state ≠ .ended ∧ ∃ now, Synced l.before now ∧ Strides 1 now l.time := by
  generalize hm : l :: ls = ms at h
  induction h generalizing l ls with
  | first j hb hj hs hn =>
    cases hm
    refine ⟨hs, _, ?_, hn⟩
    rw [hj]
    exact .opening hb
  | next k j js _ hk hs hn ih =>
    cases hm
    obtain ⟨hj, now, hsync, hnow⟩ := ih rfl
    have hafter : Synced j.after.resolver j.landing := hsync.tick hj hnow
    refine ⟨hs, j.landing, ?_, hn⟩
    rcases hk with hk | hk
    · rw [hk]
      exact hafter
    · rw [hk]
      exact hafter.resumeDue

theorem Watched.synced (h : Watched cues (l :: ls)) : Synced l.after.resolver l.landing := by
  obtain ⟨hs, now, hsync, hn⟩ := h.met
  exact hsync.tick hs hn

theorem resumeDue_keeps (r : Resolver) :
    r.resumeDue.resolver.flight = r.flight ∧ r.resumeDue.resolver.activeCue? = r.activeCue? := by
  rw [resumeDue_resolver]
  exact ⟨rfl, rfl⟩

theorem Watched.step (h : Watched cues (k :: l :: ls)) :
    Watched cues (l :: ls) ∧ k.seen.state ≠ .ended ∧ Strides 1 l.landing k.time ∧
      Synced k.before l.landing ∧ k.before.flight = l.after.resolver.flight ∧
      k.before.activeCue? = l.after.resolver.activeCue? := by
  cases h with
  | next k l ls hw hk hs hn =>
    refine ⟨hw, hs, hn, ?_⟩
    rcases hk with hk | hk
    · rw [hk]
      exact ⟨hw.synced, rfl, rfl⟩
    · rw [hk]
      exact ⟨hw.synced.resumeDue, resumeDue_keeps _⟩

/-! ## Runs that can be computed -/

def Look.onward (l : Look) (time : Seconds) : Look :=
  ⟨l.after.resolver, { l.seen.obeyAll l.after.directives with time }⟩

def onward : List Look → List Seconds → List Look
  | l :: ls, time :: times => onward (l.onward time :: l :: ls) times
  | ls, _ => ls

def paced : List Look → Bool
  | [] => false
  | [l] => l.seen.state ≠ .ended && decide (Strides 1 0 l.time)
  | k :: l :: ls =>
    k.before = l.after.resolver && k.seen.state ≠ .ended && decide (Strides 1 l.landing k.time) &&
      paced (l :: ls)

theorem watched_of_paced (hb : Built cues) (hl : ls.getLast?.all fun l => l.before = opening cues)
    (h : paced ls = true) : Watched cues ls := by
  induction ls with
  | nil => cases h
  | cons k ls ih =>
    cases ls with
    | nil =>
      simp only [paced, Bool.and_eq_true, decide_eq_true_eq] at h
      exact .first k hb (by simpa using hl) h.1 h.2
    | cons l ls =>
      simp only [paced, Bool.and_eq_true, decide_eq_true_eq] at h
      exact .next k l ls (ih (by simpa using hl) h.2) (.inl h.1.1.1) h.1.1.2 h.1.2

end Resolver

end PlaybackCues
