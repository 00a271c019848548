import PlaybackCues.Proofs.Resolver.Listing
import PlaybackCues.Proofs.Resolver.Seeking

set_option autoImplicit false

/-!
# Cues that are passed over

A tick that activates a cue retires the cues before it in the notes whose start is behind; a jump
forward retires what starts between the end of one cue and the start of the other. Both rules that
make a cue active pass over what is retired, so while the pass is kept such a cue does not start
again, wherever playback goes. `never_starts_of_passed` needs nothing of the lists that were loaded.
-/
namespace PlaybackCues.Resolver

variable {r : Resolver} {s : Snapshot} {c d next : Cue} {id : Uuid}

/-! ## The two rules that make a cue active -/

def activated? (r : Resolver) (s : Snapshot) : Option Cue :=
  (r.poised? s).bind fun q => if q.awaiting then none else q.due? s.time

def jumped? (r : Resolver) (s : Snapshot) : Option (Cue × Cue) :=
  (r.expiring? s).bind fun c =>
    if c.mode = .jump then ((r.finish c).successor? c).map fun next => (c, next) else none

theorem activated?_eq_some_iff :
    r.activated? s = some c ↔
      ∃ q, r.poised? s = some q ∧ q.awaiting = false ∧ q.due? s.time = some c := by
  unfold activated?
  rw [Option.bind_eq_some_iff]
  refine exists_congr fun q => and_congr_right fun _ => ?_
  cases q.awaiting <;> simp

theorem jumped?_eq_some_iff :
    r.jumped? s = some (c, next) ↔
      r.expiring? s = some c ∧ c.mode = .jump ∧ (r.finish c).successor? c = some next := by
  unfold jumped?
  rw [Option.bind_eq_some_iff]
  constructor
  · rintro ⟨b, he, h⟩
    split at h
    · rename_i hm
      obtain ⟨n, hn, hpair⟩ := Option.map_eq_some_iff.mp h
      cases hpair
      exact ⟨he, hm, hn⟩
    · cases h
  · rintro ⟨he, hm, hn⟩
    refine ⟨c, he, ?_⟩
    rw [if_pos hm, hn]
    rfl

/-- By one of the two rules the action makes the cue active. -/
def Moment.Begins (m : Moment) (id : Uuid) : Prop :=
  ∃ s, m.action = .tick s ∧
    ((∃ c, m.before.activated? s = some c ∧ c.id = id) ∨
      ∃ c next, m.before.jumped? s = some (c, next) ∧ next.id = id)

/-! ## What the rules do -/

/-- A tick that looks for a cue that is due has left its active cue, if it had one. -/
theorem poised?_some {b : Resolver} (h : r.poised? s = some b) : ∃ q rest defaults restore,
    r.settle s.time = .done q ∧ (q.detect s.time).resolver.continueActive s = .idle rest ∧
      b = { rest.resolver with defaults := defaults, restore := restore } := by
  unfold poised? at h
  split at h
  · cases h
  split at h
  · cases h
  rename_i q hq
  split at h
  · cases h
  rename_i rest ho
  cases h
  obtain ⟨defaults, restore, htrack⟩ := rest.resolver.trackDefaults_resolver s
  split
  · exact ⟨q, rest, defaults, restore, hq, ho, htrack⟩
  · exact ⟨q, rest, rest.resolver.defaults, rest.resolver.restore, hq, ho, rfl⟩

theorem poised?_cues {b : Resolver} (h : r.poised? s = some b) : b.cues = r.cues := by
  obtain ⟨q, rest, defaults, restore, hq, ho, rfl⟩ := poised?_some h
  have honward := (q.detect s.time).resolver.continueActive_cues s
  have hfound := q.detect_cues s.time
  rw [ho] at honward
  obtain ⟨last, rfl⟩ := settle_done hq
  exact honward.trans hfound

theorem tick_of_activated (h : r.activated? s = some c) :
    ∃ q : Resolver, q.cues = r.cues ∧
      (r.tick s).resolver = { q.retire (q.overtaken c s.time) with
        active := some c.id, restore := none, last := s.time } := by
  obtain ⟨q, hq, hw, hc⟩ := activated?_eq_some_iff.mp h
  refine ⟨q, poised?_cues hq, ?_⟩
  rw [tick_of_poised hq, hw]
  simp only [Bool.false_eq_true, if_false, activate, hc]

theorem tick_of_jumped (h : r.jumped? s = some (c, next)) :
    ∃ q : Resolver, q.cues = r.cues ∧ r.tick s = q.chain c next s.time := by
  obtain ⟨he, hm, hn⟩ := jumped?_eq_some_iff.mp h
  obtain ⟨last, ht⟩ := tick_expiring he
  have hn : (finish { r with flight := none, last := last } c).successor? c = some next := hn
  refine ⟨finish { r with flight := none, last := last } c, rfl, ?_⟩
  rw [ht, expire_eq, hm]
  simp only [hn, afterExpiry]

theorem overtaken_executed (h : r.activated? s = some c) (hd : d ∈ r.cues)
    (hindex : d.index < c.index) (hstart : d.start < s.time) :
    d.id ∈ (r.tick s).resolver.executed := by
  obtain ⟨q, hcues, ht⟩ := tick_of_activated h
  rw [← hcues] at hd
  rw [ht]
  exact mem_retire.mpr (.inl (mem_overtaken.mpr ⟨d, hd, rfl, hindex, hstart⟩))

theorem skipped_executed (h : r.jumped? s = some (c, next)) (hd : d ∈ r.cues)
    (hother : d.id ≠ next.id) (hafter : c.stop < d.start) (hbefore : d.start < next.start) :
    d.id ∈ (r.tick s).resolver.executed := by
  obtain ⟨q, hcues, ht⟩ := tick_of_jumped h
  rw [← hcues] at hd
  have hskipped : d.id ∈ q.skipped c next := by
    apply List.mem_map_of_mem
    simp [hd, hother, hafter, hbefore]
  rw [ht]
  unfold chain
  rw [if_pos (Binary64.lt_trans hafter hbefore)]
  exact mem_retire.mpr (.inl hskipped)

/-! ## No other way to start -/

theorem activated?_of_idle {q : Resolver} {rest : Response} (hs : s.state ≠ .ended)
    (hq : r.settle s.time = .done q)
    (ho : (q.detect s.time).resolver.continueActive s = .idle rest)
    (h : (r.tick s).resolver.active = some id) :
    ∃ c, r.activated? s = some c ∧ c.id = id := by
  have hrest := (continueActive_idle ho).1
  have hb : ∃ b : Resolver, r.poised? s = some b ∧ b.active = none := by
    obtain ⟨defaults, restore, htrack⟩ := rest.resolver.trackDefaults_resolver s
    unfold poised?
    simp only [if_neg hs, hq, ho]
    split
    · exact ⟨_, rfl, by rw [htrack]; exact hrest⟩
    · exact ⟨_, rfl, hrest⟩
  obtain ⟨b, hb, hidle⟩ := hb
  rw [tick_of_poised hb] at h
  cases hw : b.awaiting with
  | true =>
    simp only [hw, if_true, hidle] at h
    cases h
  | false =>
    cases hdue : b.due? s.time with
    | none =>
      simp only [hw, Bool.false_eq_true, if_false, activate, hdue, hidle] at h
      cases h
    | some c =>
      simp only [hw, Bool.false_eq_true, if_false, activate, hdue] at h
      exact ⟨c, activated?_eq_some_iff.mpr ⟨b, hb, hw, hdue⟩, Option.some.inj h⟩

/-- A tick makes a cue active by one of the two rules only. -/
theorem tick_begins (h : (r.tick s).resolver.active = some id) :
    r.active = some id ∨ (∃ c, r.activated? s = some c ∧ c.id = id) ∨
      ∃ c next, r.jumped? s = some (c, next) ∧ next.id = id := by
  have ht := r.ticked s
  generalize hb : r.tick s = a at ht
  rw [hb] at h
  cases ht with
  | renewed => exact absurd h (by simp [reset, clear, leave_active])
  | finished => exact .inl h
  | waiting => exact .inl h
  | evaluated q hs hq =>
    have hp := (q.detect s.time).resolver.passage s
    generalize ho : (q.detect s.time).resolver.continueActive s = o at hp
    cases hp with
    | hold c hc hcov =>
      rw [evaluate_stop ho] at h
      have h : (q.detect s.time).resolver.active = some id := h
      obtain ⟨hr, hm⟩ := detect_active (by rw [h]; rfl)
      obtain ⟨last, rfl⟩ := settle_done hq
      rw [detect_still hr hm] at h
      exact .inl h
    | jump c next hc hcov hm hn =>
      obtain ⟨hstill, he⟩ := expiring?_of_detect hs hq hc hcov
      rw [evaluate_stop ho] at h
      rw [hstill] at hn
      obtain ⟨last, rfl⟩ := settle_done hq
      exact .inr (.inr ⟨c, next, jumped?_eq_some_iff.mpr ⟨he, hm, hn⟩, Option.some.inj h⟩)
    | pause c seconds hc hcov hm =>
      rw [evaluate_stop ho] at h
      cases h
    | finish => exact .inr (.inl (activated?_of_idle hs hq ho (hb ▸ h)))
    | lost => exact .inr (.inl (activated?_of_idle hs hq ho (hb ▸ h)))
    | rest => exact .inr (.inl (activated?_of_idle hs hq ho (hb ▸ h)))

theorem begins_of_starts {m : Moment} (h : m.starts id = true) : m.Begins id := by
  obtain ⟨q, a⟩ := m
  simp only [Moment.starts, Bool.and_eq_true, decide_eq_true_eq] at h
  obtain ⟨hbefore, hafter⟩ := h
  have hnone {p : Resolver} (hp : p.active = none) : p.active ≠ some id := by
    rw [hp]
    exact (Option.some_ne_none id).symm
  cases a with
  | load cues =>
    change (q.load cues).resolver.active = some id at hafter
    by_cases ha : q.active.all (knows cues) = true
    · rw [load_kept ha] at hafter
      exact absurd hafter hbefore
    · rw [load_lost ha] at hafter
      cases hafter
  | tick s =>
    rcases tick_begins hafter with h | h
    · exact absurd h hbefore
    · exact ⟨s, rfl, h⟩
  | userSeek target => exact absurd hafter (hnone (leave_active _))
  | resumeDue =>
    change q.resumeDue.resolver.active = some id at hafter
    rw [resumeDue_resolver] at hafter
    exact absurd hafter hbefore
  | reset => exact absurd hafter (hnone (leave_active q))
  | endOfMedia => exact absurd hafter (hnone (leave_active q))

/-! ## Executed cues do not start -/

theorem Listed.found (h : r.Listed) (ha : r.active = some id) : ∃ c, r.activeCue? = some c := by
  obtain ⟨c, _, _, hc⟩ := exists_activeCue (h.active id ha) ha
  exact ⟨c, hc⟩

/-- While the pass is kept, a tick has lost none of the executed cues when it looks for one. -/
theorem executed_of_poised {b : Resolver} (h : r.Listed) (hk : r.keepsPass (.tick s) = true)
    (hb : r.poised? s = some b) (hid : id ∈ r.executed) : id ∈ b.executed := by
  obtain ⟨q, rest, defaults, restore, hq, ho, rfl⟩ := poised?_some hb
  have hs : s.state ≠ .ended := by
    intro hs
    simp [poised?, hs] at hb
  have hstill : q.detect s.time = ⟨q, []⟩ := by
    have hd : (q.restarted s.time || q.moved s.time) = false := by
      simpa [keepsPass, hs, displaced, hq] using hk
    exact detect_still (Bool.or_eq_false_iff.mp hd).1 (Bool.or_eq_false_iff.mp hd).2
  obtain ⟨last, rfl⟩ := settle_done hq
  have hq' : Listed { r with flight := none, last := last } := h.keep rfl rfl rfl
  have honward := advances_continueActive (fun _ ha => hq'.found ha) s id
  rw [hstill] at ho
  rw [ho] at honward
  exact honward.1.executed hid

theorem not_begins {m : Moment} (h : m.before.Listed) (hk : m.before.keepsPass m.action = true)
    (hid : id ∈ m.before.executed) : ¬ m.Begins id := by
  rintro ⟨s, hs, ⟨c, hc, rfl⟩ | ⟨c, next, hj, rfl⟩⟩
  · rw [hs] at hk
    obtain ⟨b, hb, _, hdue⟩ := activated?_eq_some_iff.mp hc
    exact (due?_some hdue).2.2 (executed_of_poised h hk hb hid)
  · obtain ⟨_, _, hn⟩ := jumped?_eq_some_iff.mp hj
    exact (Coherent.successor?_some hn).2.2 (mem_retire.mpr (.inr hid))

theorem executed_act {a : Action} (h : r.Listed) (hk : r.keepsPass a = true)
    (hload : ∀ cues, a ≠ .load cues) (hid : id ∈ r.executed) : id ∈ (r.act a).resolver.executed := by
  cases a with
  | load cues => exact absurd rfl (hload cues)
  | tick s => exact (advances_tick (fun _ ha => h.found ha) hk id).executed hid
  | resumeDue =>
    change id ∈ r.resumeDue.resolver.executed
    rw [resumeDue_resolver]
    exact hid
  | userSeek target => cases hk
  | reset => cases hk
  | endOfMedia => cases hk

def NeverStarts (id : Uuid) (r : Resolver) (as : List Action) : Prop :=
  ∀ m ∈ r.history as, ¬ m.Begins id ∧ m.starts id = false

theorem neverStarts_of_executed {as : List Action} (h : r.Listed) (hk : KeepsPass r as)
    (hload : ∀ cues, .load cues ∉ as) (hid : id ∈ r.executed) : NeverStarts id r as := by
  induction as generalizing r with
  | nil =>
    intro m hm
    cases hm
  | cons a as ih =>
    have hka : r.keepsPass a = true := hk ⟨r, a⟩ List.mem_cons_self
    have hnot : ¬ Moment.Begins ⟨r, a⟩ id := not_begins h hka hid
    intro m hm
    rcases List.mem_cons.mp hm with rfl | hm
    · exact ⟨hnot, Bool.eq_false_iff.mpr fun hst => hnot (begins_of_starts hst)⟩
    · have hact := executed_act h hka (fun cues ha => hload cues (ha ▸ List.mem_cons_self)) hid
      exact ih (h.act a) (fun n hn => hk n (List.mem_cons_of_mem _ hn))
        (fun cues hc => hload cues (List.mem_cons_of_mem a hc)) hact m hm

/-- Whatever was done before: after a tick has activated a cue, the cues before it in the notes
that start before the time of the tick do not start any more; after it has jumped forward, those do
not that start between the end of the one cue and the start of the other. -/
theorem never_starts_of_passed (t : Tolerances) (before : List Action) (s : Snapshot)
    {after : List Action} (hkeep : KeepsPass ((run { tolerances := t } before).tick s).resolver after)
    (hload : ∀ cues, .load cues ∉ after) :
    let r := run { tolerances := t } before
    (∀ c, r.activated? s = some c → ∀ d ∈ r.cues, d.index < c.index → d.start < s.time →
      NeverStarts d.id (r.tick s).resolver after) ∧
    ∀ c next, r.jumped? s = some (c, next) → c.stop < next.start → ∀ d ∈ r.cues,
      d.id ≠ next.id → c.stop < d.start → d.start < next.start →
      NeverStarts d.id (r.tick s).resolver after := by
  intro r
  have hlisted : (r.tick s).resolver.Listed := ((Listed.new t).run before).act (.tick s)
  constructor
  · intro c hc d hd hindex hstart
    exact neverStarts_of_executed hlisted hkeep hload (overtaken_executed hc hd hindex hstart)
  · intro c next hj _ d hd hother hafter hbefore
    exact neverStarts_of_executed hlisted hkeep hload
      (skipped_executed hj hd hother hafter hbefore)

/-! ## A pass that comes back -/

def window (index : Nat) (start stop : Seconds) (mode : Mode) : Cue :=
  (CueSpec.rounded ⟨start, stop, 50, 1, mode⟩).place index 0

def overtakenCue : Cue := window 0 1 2 .natural
def dueCue : Cue := window 1 5 6 .jump
def targetCue : Cue := window 2 9 10 .jump
def skippedCue : Cue := window 3 7 8 .natural
def backCue : Cue := window 4 0.75 0.875 .natural

def woven : List Cue := [overtakenCue, dueCue, targetCue, skippedCue, backCue]

def look (now : Seconds) : Snapshot := ⟨now, 100, 1, .playing⟩

def looks (times : List Seconds) : List Action := times.map fun t => .tick (look t)

theorem load_notMem_looks (cues : List Cue) (times : List Seconds) : .load cues ∉ looks times := by
  intro h
  obtain ⟨t, _, ht⟩ := List.mem_map.mp h
  cases ht

theorem run_woven (as : List Action) :
    run { tolerances := {} } (.load woven :: as) = run { tolerances := {}, cues := woven } as := by
  simp only [run, act, load_new {} (show woven.Pairwise _ by decide)]

/-- Playback starts in the middle, is led forward and then back to the first second, and passes
through all windows again. -/
theorem woven_never_starts :
    let started := run { tolerances := {} } (.load woven :: looks [0, 1.75, 3.5])
    let entered := run { tolerances := {} } (.load woven :: looks [0, 1.75, 3.5, 5])
    let again := looks [9, 10.125, 0.75, 1.25, 3, 5, 7, 9]
    (started.activated? (look 5) = some dueCue ∧
      NeverStarts overtakenCue.id (started.tick (look 5)).resolver (.tick (look 6.125) :: again)) ∧
    entered.jumped? (look 6.125) = some (dueCue, targetCue) ∧
      NeverStarts skippedCue.id (entered.tick (look 6.125)).resolver again := by
  intro started entered again
  have hstarted : started = run { tolerances := {}, cues := woven } (looks [0, 1.75, 3.5]) :=
    run_woven _
  have hentered : entered = run { tolerances := {}, cues := woven } (looks [0, 1.75, 3.5, 5]) :=
    run_woven _
  have hnext : entered = (started.tick (look 5)).resolver :=
    run_append _ (.load woven :: looks [0, 1.75, 3.5]) (looks [5])
  have hevaluated : started.activated? (look 5) = some dueCue ∧
      entered.jumped? (look 6.125) = some (dueCue, targetCue) ∧
      KeepsPass entered (.tick (look 6.125) :: again) := by
    rw [hstarted, hentered]
    unfold KeepsPass
    decide +kernel
  obtain ⟨hact, hjump, hkeep⟩ := hevaluated
  have hkeep' : KeepsPass (entered.tick (look 6.125)).resolver again :=
    fun m hm => hkeep m (List.mem_cons_of_mem _ hm)
  have hcues : started.cues = woven := by
    simp only [hstarted, looks, List.map, run, act, tick_cues]
  have hcues' : entered.cues = woven := by
    rw [hnext, tick_cues, hcues]
  have hmem : overtakenCue ∈ started.cues := by
    rw [hcues]
    exact List.mem_cons_self
  have hmem' : skippedCue ∈ entered.cues := by
    rw [hcues']
    simp [woven]
  rw [hnext] at hkeep
  constructor
  · have hpassed := never_starts_of_passed {} _ (look 5) hkeep fun cues =>
      load_notMem_looks cues (6.125 :: [9, 10.125, 0.75, 1.25, 3, 5, 7, 9])
    exact ⟨hact, hpassed.1 dueCue hact overtakenCue hmem (by decide) (by decide +kernel)⟩
  · have hpassed := never_starts_of_passed {} _ (look 6.125) hkeep' fun cues =>
      load_notMem_looks cues _
    exact ⟨hjump, hpassed.2 dueCue targetCue hjump (by decide +kernel) skippedCue hmem'
      (by decide +kernel) (by decide +kernel) (by decide +kernel)⟩

end PlaybackCues.Resolver
