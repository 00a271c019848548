import PlaybackCues.Proofs.Resolver.Coherence

set_option autoImplicit false

/-!
# Execution goes forward

As long as the pass is neither forgotten nor recomputed, a cue that stays loaded goes through its
stages in one direction: it has not started, it is active, it is executed. So it starts at most
once and ends at most once, and what is sent at its end is sent at most once.
-/
namespace PlaybackCues.Resolver

def displaced (r : Resolver) (s : Snapshot) : Bool :=
  match r.settle s.time with
  | .waiting _ => false
  | .done q => q.restarted s.time || q.moved s.time

def keepsPass (r : Resolver) : Action → Bool
  | .load _ | .resumeDue => true
  | .tick s =>
    if s.state = .ended then !(r.active.isSome || !r.executed.isEmpty) else !r.displaced s
  | .userSeek _ | .reset | .endOfMedia => false

namespace Moment

def starts (m : Moment) (id : Uuid) : Bool :=
  m.before.active ≠ some id && m.after.resolver.active = some id

def expires (m : Moment) (id : Uuid) : Bool :=
  match m.action with
  | .tick s => (m.before.expiring? s).any fun c => c.id = id
  | _ => false

def sentAtEnd (m : Moment) (id : Uuid) : List Directive :=
  if m.expires id then m.after.directives else []

end Moment

/-! ## One step -/

structure Advances (id : Uuid) (r q : Resolver) : Prop where
  executed : id ∈ r.executed → id ∈ q.executed
  active : r.active = some id → q.active = some id ∨ id ∈ q.executed

theorem Advances.refl (id : Uuid) (r : Resolver) : Advances id r r := ⟨fun h => h, .inl⟩

theorem Advances.trans {id : Uuid} {r p q : Resolver} (hp : Advances id r p)
    (hq : Advances id p q) : Advances id r q where
  executed h := hq.executed (hp.executed h)
  active h := by
    rcases hp.active h with h | h
    · exact hq.active h
    · exact .inr (hq.executed h)

theorem advances_finish {r : Resolver} {c : Cue} (hc : r.activeCue? = some c) (id : Uuid) :
    Advances id r (r.finish c) where
  executed h := mem_retire.mpr (.inr h)
  active h := by
    rw [(activeCue?_some hc).2] at h
    cases h
    exact .inr (mem_retire.mpr (.inl (List.mem_singleton_self _)))

theorem advances_chain {r : Resolver} (ha : r.active = none) (c next : Cue) (now : Seconds)
    (id : Uuid) : Advances id r (r.chain c next now).resolver where
  executed h := by
    unfold chain
    split
    · exact mem_retire.mpr (.inr h)
    · exact h
  active h := by simp [ha] at h

theorem advances_activate {r : Resolver} (ha : r.active = none) (now : Seconds) (id : Uuid) :
    Advances id r (r.activate now).resolver where
  executed h := by
    have hs := r.started now
    generalize r.activate now = a at hs ⊢
    cases hs with
    | begun => exact mem_retire.mpr (.inr h)
    | still => exact h
  active h := by simp [ha] at h

theorem advances_settle {r q : Resolver} {now : Seconds} (hq : r.settle now = .done q)
    (id : Uuid) : Advances id r q := by
  obtain ⟨last, rfl⟩ := settle_done hq
  exact ⟨fun h => h, .inl⟩

theorem advances_continueActive {r : Resolver}
    (hfound : ∀ id, r.active = some id → ∃ c, r.activeCue? = some c) (s : Snapshot) (id : Uuid) :
    match r.continueActive s with
    | .stop rest => Advances id r rest.resolver
    | .idle rest => Advances id r rest.resolver ∧ rest.resolver.active = none := by
  have hp := r.passage s
  generalize r.continueActive s = o at hp
  cases hp with
  | hold c hc hcov => exact ⟨fun h => h, .inl⟩
  | jump c next hc hcov hm hn =>
    exact (advances_finish hc id).trans (advances_chain rfl c next s.time id)
  | pause c seconds hc hcov hm =>
    have hfin := advances_finish hc id
    exact ⟨hfin.executed, hfin.active⟩
  | finish c hc hcov hm =>
    have hfin := advances_finish hc id
    exact ⟨⟨hfin.executed, hfin.active⟩, rfl⟩
  | lost id ha hc =>
    obtain ⟨c, hc'⟩ := hfound id ha
    rw [hc'] at hc
    cases hc
  | rest ha => exact ⟨.refl id r, ha⟩

theorem advances_idle {r : Resolver} (ha : r.active = none) (quiet : Bool) (s : Snapshot)
    (id : Uuid) : Advances id r (r.idle quiet s).resolver := by
  obtain ⟨defaults, restore, hidle⟩ := idle_resolver quiet s r
  rw [hidle]
  split
  · exact ⟨fun h => h, .inl⟩
  · have hact := advances_activate (r := { r with defaults := defaults, restore := restore })
      ha s.time id
    exact ⟨hact.executed, hact.active⟩

/-- A tick that keeps the pass and finds the active cue does not go back on any cue. -/
theorem advances_tick {r : Resolver}
    (hfound : ∀ id, r.active = some id → ∃ c, r.activeCue? = some c) {s : Snapshot}
    (hk : r.keepsPass (.tick s) = true) (id : Uuid) : Advances id r (r.tick s).resolver := by
  have ht := r.ticked s
  generalize r.tick s = a at ht ⊢
  cases ht with
  | renewed hs hbegun => simp [keepsPass, hs, hbegun] at hk
  | finished => exact ⟨fun h => h, .inl⟩
  | waiting => exact ⟨fun h => h, .inl⟩
  | evaluated q hs hq =>
    have hstill : q.detect s.time = ⟨q, []⟩ := by
      have hd : (q.restarted s.time || q.moved s.time) = false := by
        simpa [keepsPass, hs, displaced, hq] using hk
      exact detect_still (Bool.or_eq_false_iff.mp hd).1 (Bool.or_eq_false_iff.mp hd).2
    have hfound' : ∀ id, q.active = some id → ∃ c, q.activeCue? = some c := by
      obtain ⟨last, rfl⟩ := settle_done hq
      exact hfound
    have hc := advances_continueActive hfound' s id
    have hset := advances_settle hq id
    cases ho : q.continueActive s with
    | stop rest =>
      rw [ho] at hc
      rw [evaluate_stop (by rw [hstill]; exact ho)]
      exact hset.trans hc
    | idle rest =>
      rw [ho] at hc
      rw [evaluate_idle (by rw [hstill]; exact ho)]
      exact (hset.trans hc.1).trans (advances_idle hc.2 _ s id)

theorem advances_load {r : Resolver} {cues : List Cue} {id : Uuid}
    (hid : id ∈ cues.map fun c => c.id) : Advances id r (r.load cues).resolver := by
  have hknown := knows_iff.mpr hid
  have hkeep : id ∈ r.executed → id ∈ r.executed.filter (knows cues) :=
    fun h => List.mem_filter.mpr ⟨h, hknown⟩
  by_cases ha : r.active.all (knows cues) = true
  · rw [load_kept ha]
    exact ⟨hkeep, .inl⟩
  · rw [load_lost ha]
    exact ⟨hkeep, fun h => absurd (by rw [h]; exact hknown) ha⟩

theorem advances_act {t : Tolerances} {r : Resolver} (h : Coherent t r) {a : Action}
    (hk : r.keepsPass a = true) {id : Uuid} (hid : ∀ cues, a = .load cues → id ∈ cues.map fun c => c.id) :
    Advances id r (r.act a).resolver := by
  cases a with
  | load cues => exact advances_load (hid cues rfl)
  | tick s =>
    refine advances_tick (fun id ha => ?_) hk id
    obtain ⟨c, _, _, hc⟩ := h.activeCue?_isSome ha
    exact ⟨c, hc⟩
  | resumeDue =>
    change Advances id r r.resumeDue.resolver
    rw [resumeDue_resolver]
    exact ⟨fun h => h, .inl⟩
  | userSeek target => cases hk
  | reset => cases hk
  | endOfMedia => cases hk

/-! ## Stages along a run -/

/-- Not started, active, or executed. -/
def stage (id : Uuid) (r : Resolver) : Nat :=
  if id ∈ r.executed then 2 else if r.active = some id then 1 else 0

theorem Advances.stage_le {id : Uuid} {r q : Resolver} (h : Advances id r q) :
    stage id r ≤ stage id q := by
  unfold stage
  by_cases hr : id ∈ r.executed
  · exact Nat.le_of_eq ((if_pos hr).trans (if_pos (h.executed hr)).symm)
  · rw [if_neg hr]
    by_cases ha : r.active = some id
    · rw [if_pos ha]
      rcases h.active ha with hq | hq
      · rw [if_pos hq]
        split <;> omega
      · rw [if_pos hq]
        omega
    · rw [if_neg ha]
      exact Nat.zero_le _

/-- A quantity that never falls along a run passes a bound at most once. -/
theorem countP_passing_le {f : Resolver → Nat} {p : Moment → Bool} {k : Nat} {r : Resolver}
    {as : List Action} (hf : ∀ m ∈ r.history as, f m.before ≤ f m.after.resolver)
    (hp : ∀ m ∈ r.history as, p m = true → f m.before ≤ k ∧ k < f m.after.resolver) :
    (r.history as).countP p ≤ if f r ≤ k then 1 else 0 := by
  induction as generalizing r with
  | nil => exact Nat.zero_le _
  | cons a as ih =>
    have hrest := ih (fun m hm => hf m (List.mem_cons_of_mem _ hm))
      (fun m hm => hp m (List.mem_cons_of_mem _ hm))
    have hle : f r ≤ f (r.act a).resolver := hf ⟨r, a⟩ List.mem_cons_self
    have hpass := hp ⟨r, a⟩ List.mem_cons_self
    change ((⟨r, a⟩ : Moment) :: (r.act a).resolver.history as).countP p ≤ _
    rw [List.countP_cons]
    by_cases hpa : p ⟨r, a⟩ = true
    · obtain ⟨hlow, hhigh⟩ := hpass hpa
      change f r ≤ k at hlow
      change k < f (r.act a).resolver at hhigh
      rw [if_neg (by omega)] at hrest
      rw [if_pos hpa, if_pos hlow]
      omega
    · rw [if_neg hpa]
      refine Nat.le_trans hrest ?_
      split
      · exact Nat.le_of_eq (if_pos (by omega)).symm
      · exact Nat.zero_le _

/-! ## Ends -/

theorem expiring?_executed {r : Resolver} {s : Snapshot} {c : Cue}
    (h : r.expiring? s = some c) : c.id ∈ (r.tick s).resolver.executed := by
  obtain ⟨last, ht⟩ := tick_expiring h
  generalize ({ r with flight := none, last := last } : Resolver) = q at ht
  have hfin : c.id ∈ (q.finish c).executed := mem_retire.mpr (.inl (List.mem_singleton_self _))
  have hidle : c.id ∈ (afterExpiry s (.idle (q.finish c).restoreDefaults)).resolver.executed :=
    (advances_idle (r := (q.finish c).restoreDefaults.resolver) rfl _ s c.id).executed hfin
  rw [ht, expire_eq]
  split
  · exact hidle
  · split
    · exact (advances_chain rfl c _ s.time c.id).executed hfin
    · exact hidle
  · exact hfin

/-- While the pass is kept, a tick leaves the active cue only when it finds it over. -/
theorem tick_active {t : Tolerances} {r : Resolver} (h : Coherent t r) {s : Snapshot} {id : Uuid}
    (hk : r.keepsPass (.tick s) = true) (ha : r.active = some id) :
    (r.tick s).resolver.active = some id ∨ ∃ c, r.expiring? s = some c ∧ c.id = id := by
  have ht := r.ticked s
  generalize r.tick s = a at ht ⊢
  cases ht with
  | renewed hs => simp [keepsPass, hs, ha] at hk
  | finished => exact .inl ha
  | waiting => exact .inl ha
  | evaluated q hs hq =>
    have hd : (q.restarted s.time || q.moved s.time) = false := by
      simpa [keepsPass, hs, displaced, hq] using hk
    obtain ⟨hr, hm⟩ := Bool.or_eq_false_iff.mp hd
    obtain ⟨c, _, hid, hc⟩ := h.activeCue?_isSome ha
    obtain ⟨last, hlast⟩ := settle_done hq
    have hqc : q.activeCue? = some c := by rw [hlast]; exact hc
    cases hcov : q.covers c s.time with
    | false => exact .inr ⟨c, expiring?_eq_some_iff.mpr ⟨hs, q, hq, hr, hm, hqc, hcov⟩, hid⟩
    | true =>
      left
      have hqa : q.active = some id := by rw [hlast]; exact ha
      have ho := continueActive_of_activeCue? (s := s) hqc
      rw [if_pos hcov] at ho
      rw [evaluate_stop (by rw [detect_still hr hm]; exact ho)]
      exact hqa

/-! ## Directives of an end -/

theorem countP_levels {ds : List Directive} (h : LevelsOnly ds) {p : Directive → Bool}
    (hp : ∀ d, d.isLevel = true → p d = false) : ds.countP p = 0 := by
  rw [List.countP_eq_zero]
  intro d hd
  simp [hp d (h d hd)]

theorem tick_once (r : Resolver) (s : Snapshot) :
    (r.tick s).directives.countP (·.isJump) ≤ 1 ∧ (r.tick s).directives.count .pause ≤ 1 := by
  have hlevel : ∀ {ds : List Directive}, LevelsOnly ds →
      ds.countP (·.isJump) = 0 ∧ ds.countP (· == .pause) = 0 := by
    intro ds hds
    constructor <;> refine countP_levels hds (fun d hd => ?_) <;> cases d <;> first | rfl | cases hd
  have hs := r.tick_sends s
  generalize r.tick s = a at hs
  cases hs with
  | levels a h =>
    obtain ⟨hj, hp⟩ := hlevel h
    rw [List.count, hj, hp]
    exact ⟨Nat.zero_le 1, Nat.zero_le 1⟩
  | jump q c next he hq hm hn =>
    obtain ⟨hj, hp⟩ := hlevel (levelsOnly_directives next.levels)
    change (next.levels.directives ++ [Directive.seek next.start .engine]).countP _ ≤ 1 ∧
      (next.levels.directives ++ [Directive.seek next.start .engine]).countP _ ≤ 1
    rw [List.countP_append, List.countP_append, hj, hp]
    exact ⟨Nat.le_refl 1, Nat.zero_le 1⟩
  | pause q c seconds he hq hm =>
    obtain ⟨hj, hp⟩ := hlevel (levelsOnly_directives q.defaults)
    rw [List.count, List.countP_append, List.countP_append, hj, hp]
    simp [Directive.isJump]

theorem countP_sentAtEnd {ms : List Moment} {id : Uuid} {p : Directive → Bool}
    (h : ∀ m ∈ ms, m.expires id = true → m.after.directives.countP p ≤ 1) :
    (ms.flatMap fun m => m.sentAtEnd id).countP p ≤ ms.countP fun m => m.expires id := by
  induction ms with
  | nil => exact Nat.le_refl 0
  | cons m ms ih =>
    have hrest := ih (fun n hn => h n (List.mem_cons_of_mem m hn))
    rw [List.flatMap_cons, List.countP_append, List.countP_cons]
    unfold Moment.sentAtEnd at hrest ⊢
    by_cases hm : m.expires id = true
    · have := h m List.mem_cons_self hm
      rw [if_pos hm, if_pos hm]
      omega
    · rw [if_neg hm, if_neg hm]
      exact Nat.le_trans (by simp) (Nat.add_le_add_right hrest 0)

/-! ## A continuation that keeps the pass -/

section Continuation

variable {t : Tolerances} {r : Resolver} {as : List Action} {id : Uuid}

/-- The continuation neither empties the executed ids nor computes them anew. -/
def KeepsPass (r : Resolver) (as : List Action) : Prop :=
  ∀ m ∈ r.history as, m.before.keepsPass m.action = true

def StaysLoaded (id : Uuid) (as : List Action) : Prop :=
  ∀ cues, .load cues ∈ as → id ∈ cues.map fun c => c.id

theorem moment_coherent (hr : Reachable t r) (has : ∀ a ∈ as, a.Sound) {m : Moment}
    (hm : m ∈ r.history as) : Coherent t m.before ∧ Coherent t m.after.resolver ∧ m.action ∈ as := by
  obtain ⟨xs, ys, hsplit, hb⟩ := mem_history hm
  have hmem : m.action ∈ as := by
    rw [hsplit]
    exact List.mem_append_right xs List.mem_cons_self
  have hbefore : Reachable t m.before := by
    rw [hb]
    exact hr.run fun a ha => has a (by rw [hsplit]; exact List.mem_append_left _ ha)
  exact ⟨hbefore.coherent, (hbefore.act m.action (has _ hmem)).coherent, hmem⟩

theorem moment_advances (hr : Reachable t r) (has : ∀ a ∈ as, a.Sound) (hk : KeepsPass r as)
    (hl : StaysLoaded id as) {m : Moment} (hm : m ∈ r.history as) :
    Advances id m.before m.after.resolver := by
  obtain ⟨hc, _, hmem⟩ := moment_coherent hr has hm
  refine advances_act hc (hk m hm) (fun cues h => hl cues ?_)
  rw [← h]
  exact hmem

theorem run_advances (hr : Reachable t r) (has : ∀ a ∈ as, a.Sound) (hk : KeepsPass r as)
    (hl : StaysLoaded id as) : Advances id r (r.run as) := by
  induction as generalizing r with
  | nil => exact .refl id r
  | cons a as ih =>
    have hstep := moment_advances hr has hk hl (m := ⟨r, a⟩) List.mem_cons_self
    exact hstep.trans <| ih (hr.act a (has a List.mem_cons_self))
      (fun b hb => has b (List.mem_cons_of_mem a hb))
      (fun m hm => hk m (List.mem_cons_of_mem _ hm))
      (fun cues h => hl cues (List.mem_cons_of_mem a h))

theorem starts_stage (hr : Reachable t r) (has : ∀ a ∈ as, a.Sound) (hk : KeepsPass r as)
    (hl : StaysLoaded id as) {m : Moment} (hm : m ∈ r.history as) (hst : m.starts id = true) :
    stage id m.before = 0 ∧ stage id m.after.resolver = 1 := by
  have hadv := moment_advances hr has hk hl hm
  obtain ⟨_, hc, _⟩ := moment_coherent hr has hm
  simp only [Moment.starts, Bool.and_eq_true, decide_eq_true_eq] at hst
  have hafter := hc.active_fresh id hst.2
  have hbefore : id ∉ m.before.executed := fun h => hafter (hadv.executed h)
  simp [stage, hafter, hbefore, hst.1, hst.2]

theorem expires_tick {m : Moment} (h : m.expires id = true) :
    ∃ s c, m.action = .tick s ∧ m.before.expiring? s = some c ∧ c.id = id := by
  unfold Moment.expires at h
  split at h
  · rename_i s hs
    cases hc : m.before.expiring? s with
    | none => simp [hc] at h
    | some c => exact ⟨s, c, hs, hc, by simpa [hc] using h⟩
  · cases h

theorem expires_stage (hr : Reachable t r) (has : ∀ a ∈ as, a.Sound) {m : Moment}
    (hm : m ∈ r.history as) (he : m.expires id = true) :
    stage id m.before = 1 ∧ stage id m.after.resolver = 2 := by
  obtain ⟨s, c, hs, hc, rfl⟩ := expires_tick he
  obtain ⟨hcoh, _, _⟩ := moment_coherent hr has hm
  have ha := (activeCue?_some (expiring?_activeCue? hc)).2
  have hex : c.id ∈ m.after.resolver.executed := by
    unfold Moment.after
    rw [hs]
    exact expiring?_executed hc
  simp [stage, hcoh.active_fresh c.id ha, ha, hex]

theorem moment_active (hr : Reachable t r) (has : ∀ a ∈ as, a.Sound) (hk : KeepsPass r as)
    (hl : StaysLoaded id as) {m : Moment} (hm : m ∈ r.history as)
    (ha : m.before.active = some id) :
    m.after.resolver.active = some id ∨ m.expires id = true := by
  obtain ⟨hc, _, hmem⟩ := moment_coherent hr has hm
  have hkeep := hk m hm
  obtain ⟨q, a⟩ := m
  cases a with
  | load cues =>
    have hknown : q.active.all (knows cues) = true := by
      rw [show q.active = some id from ha]
      exact knows_iff.mpr (hl cues hmem)
    left
    change (q.load cues).resolver.active = some id
    rw [load_kept hknown]
    exact ha
  | tick s =>
    rcases tick_active hc hkeep ha with h | ⟨c, he, hid⟩
    · exact .inl h
    · exact .inr (by simp [Moment.expires, he, hid])
  | resumeDue =>
    left
    change q.resumeDue.resolver.active = some id
    rw [resumeDue_resolver]
    exact ha
  | userSeek target => cases hkeep
  | reset => cases hkeep
  | endOfMedia => cases hkeep

theorem load_levelsOnly (r : Resolver) (cues : List Cue) : LevelsOnly (r.load cues).directives := by
  by_cases h : r.active.all (knows cues) = true
  · rw [load_kept h]
    exact levelsOnly_nil
  · rw [load_lost h]
    exact levelsOnly_directives _

theorem isLevel_of_end {d : Directive} (h : d.isJump = true ∨ d = .pause) : d.isLevel = false := by
  rcases h with h | rfl
  · cases d <;> first | rfl | cases h
  · rfl

theorem tick_sent_by_expiring {q : Resolver} {s : Snapshot} {d : Directive}
    (hd : d ∈ (q.tick s).directives) (hend : d.isJump = true ∨ d = .pause) :
    ∃ c, q.expiring? s = some c ∧ (d.isJump = true → c.mode = .jump) ∧
      (d = .pause → ∃ seconds, c.mode = .pause seconds) := by
  have hnot := isLevel_of_end hend
  have hs := q.tick_sends s
  generalize q.tick s = b at hs hd
  cases hs with
  | levels b h => exact absurd hd (h.notMem hnot)
  | jump p c next he hq hm hn =>
    refine ⟨c, he, fun _ => hm, fun h => ?_⟩
    subst h
    rcases List.mem_append.mp hd with hd | hd
    · exact absurd hd ((levelsOnly_directives _).notMem hnot)
    · cases List.mem_singleton.mp hd
  | pause p c seconds he hq hm =>
    refine ⟨c, he, fun h => ?_, fun _ => ⟨seconds, hm⟩⟩
    rcases List.mem_append.mp hd with hd | hd
    · exact absurd hd ((levelsOnly_directives _).notMem hnot)
    · simp only [List.mem_cons, List.not_mem_nil, or_false] at hd
      rcases hd with rfl | rfl <;> cases h

/-- Seeks of the resolver and pauses come from a cue that is over and has that mode. -/
theorem sent_by_expiring {m : Moment} (hk : m.before.keepsPass m.action = true) {d : Directive}
    (hd : d ∈ m.after.directives) (hend : d.isJump = true ∨ d = .pause) :
    ∃ c ∈ m.before.cues, m.expires c.id = true ∧ (d.isJump = true → c.mode = .jump) ∧
      (d = .pause → ∃ seconds, c.mode = .pause seconds) := by
  obtain ⟨q, a⟩ := m
  cases a with
  | load cues => exact absurd hd ((q.load_levelsOnly cues).notMem (isLevel_of_end hend))
  | tick s =>
    obtain ⟨c, he, hmode⟩ := tick_sent_by_expiring (q := q) (s := s) hd hend
    exact ⟨c, (activeCue?_some (expiring?_activeCue? he)).1, by simp [Moment.expires, he], hmode⟩
  | resumeDue =>
    cases eq_play_of_resumeDue hd
    rcases hend with h | h <;> cases h
  | userSeek target => cases hk
  | reset => cases hk
  | endOfMedia => cases hk

structure Forward (id : Uuid) (r : Resolver) (as : List Action) : Prop where
  executed_kept : ∀ xs ys, as = xs ++ ys → id ∈ (r.run xs).executed → id ∈ (r.run as).executed
  starts_once : (r.history as).countP (fun m => m.starts id) ≤ 1
  starts_fresh : ∀ m ∈ r.history as, m.starts id = true →
    id ∉ m.before.executed ∧ id ∉ m.after.resolver.executed
  left_at_end : ∀ m ∈ r.history as, m.before.active = some id →
    m.after.resolver.active = some id ∨ m.expires id = true
  executed_at_end : ∀ m ∈ r.history as, m.expires id = true →
    id ∈ m.after.resolver.executed ∧ m.after.resolver.active ≠ some id
  ends_once : (r.history as).countP (fun m => m.expires id) ≤ 1
  jumps_once : ((r.history as).flatMap fun m => m.sentAtEnd id).countP (·.isJump) ≤ 1
  pauses_once : ((r.history as).flatMap fun m => m.sentAtEnd id).count .pause ≤ 1
  sent_by_mode : ∀ m ∈ r.history as, ∀ d ∈ m.after.directives, d.isJump = true ∨ d = .pause →
    ∃ c ∈ m.before.cues, m.expires c.id = true ∧ (d.isJump = true → c.mode = .jump) ∧
      (d = .pause → ∃ seconds, c.mode = .pause seconds)

theorem forward_of_keepsPass (hr : Reachable t r) (has : ∀ a ∈ as, a.Sound)
    (hk : KeepsPass r as) (hl : StaysLoaded id as) : Forward id r as := by
  have hmono : ∀ m ∈ r.history as, stage id m.before ≤ stage id m.after.resolver :=
    fun m hm => (moment_advances hr has hk hl hm).stage_le
  have hends : (r.history as).countP (fun m => m.expires id) ≤ 1 := by
    refine Nat.le_trans (countP_passing_le (k := 1) hmono fun m hm he => ?_) (by split <;> omega)
    have := expires_stage hr has hm he
    omega
  have hsent : ∀ m : Moment, m.expires id = true →
      m.after.directives.countP (·.isJump) ≤ 1 ∧ m.after.directives.count .pause ≤ 1 := by
    intro m he
    obtain ⟨s, c, hs, _⟩ := expires_tick he
    unfold Moment.after
    rw [hs]
    exact m.before.tick_once s
  constructor
  · rintro xs ys rfl hid
    rw [KeepsPass, history_append] at hk
    rw [run_append]
    refine (run_advances (hr.run fun a ha => has a (List.mem_append_left ys ha))
      (fun a ha => has a (List.mem_append_right xs ha))
      (fun m hm => hk m (List.mem_append_right _ hm))
      (fun cues h => hl cues (List.mem_append_right xs h))).executed hid
  · refine Nat.le_trans (countP_passing_le (k := 0) hmono fun m hm hst => ?_) (by split <;> omega)
    have := starts_stage hr has hk hl hm hst
    omega
  · intro m hm hst
    obtain ⟨hbefore, hafter⟩ := starts_stage hr has hk hl hm hst
    constructor <;> intro h
    · simp [stage, h] at hbefore
    · simp [stage, h] at hafter
  · intro m hm ha
    exact moment_active hr has hk hl hm ha
  · intro m hm he
    obtain ⟨s, c, hs, hc, rfl⟩ := expires_tick he
    have hex : c.id ∈ m.after.resolver.executed := by
      unfold Moment.after
      rw [hs]
      exact expiring?_executed hc
    exact ⟨hex, fun ha => (moment_coherent hr has hm).2.1.active_fresh c.id ha hex⟩
  · exact hends
  · exact Nat.le_trans (countP_sentAtEnd fun m _ he => (hsent m he).1) hends
  · exact Nat.le_trans (countP_sentAtEnd fun m _ he => (hsent m he).2) hends
  · intro m hm d hd hend
    exact sent_by_expiring (hk m hm) hd hend

end Continuation

def backJump : CueSpec := ⟨5, 6, 50, 1, .jump⟩

def earlyPause : CueSpec := ⟨1, 2, 60, 1, .pause 3⟩

def backCues : List Cue := [backJump.rounded.place 0 0, earlyPause.rounded.place 1 0]

def backTicks : List Action :=
  [0, 2, 4, 5, 6, 6.125, 1, 2, 2.125].map fun t => .tick ⟨t, 100, 1, .playing⟩

theorem backCues_built : Built backCues :=
  built_pair (by decide +kernel) (by decide +kernel) (by decide +kernel)

theorem forward_back_jump :
    (∀ a ∈ .load backCues :: backTicks, a.Sound) ∧
      KeepsPass { tolerances := {} } (.load backCues :: backTicks) ∧
      StaysLoaded (backJump.rounded.place 0 0).id (.load backCues :: backTicks) ∧
      Forward (backJump.rounded.place 0 0).id { tolerances := {} }
        (.load backCues :: backTicks) := by
  have hsound : ∀ a ∈ .load backCues :: backTicks, a.Sound := by
    intro a ha
    rcases List.mem_cons.mp ha with rfl | ha
    · exact backCues_built
    · obtain ⟨t, _, rfl⟩ := List.mem_map.mp ha
      trivial
  have hticks : ∀ m ∈ ({ tolerances := {}, cues := backCues } : Resolver).history backTicks,
      m.before.keepsPass m.action = true := by
    decide +kernel
  have hkeep : KeepsPass { tolerances := {} } (.load backCues :: backTicks) := by
    intro m hm
    rcases List.mem_cons.mp hm with rfl | hm
    · rfl
    · rw [act, load_new {} (by decide)] at hm
      exact hticks m hm
  have hloaded : StaysLoaded (backJump.rounded.place 0 0).id (.load backCues :: backTicks) := by
    intro cues hc
    rcases List.mem_cons.mp hc with hc | hc
    · cases hc
      exact List.mem_cons_self
    · obtain ⟨t, _, ht⟩ := List.mem_map.mp hc
      cases ht
  exact ⟨hsound, hkeep, hloaded, forward_of_keepsPass .new hsound hkeep hloaded⟩

end PlaybackCues.Resolver
