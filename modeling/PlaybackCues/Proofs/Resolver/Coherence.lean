import PlaybackCues.Proofs.Resolver.Passage
import PlaybackCues.Proofs.Resolver.Runs

set_option autoImplicit false

/-!
# What holds of the resolver between actions

`Coherent` ties the fields of a resolver to each other. Every action keeps it, a tick by way of
the parts it is made of, so it holds in every reachable state.
-/
namespace PlaybackCues.Resolver

def ids (r : Resolver) : List Uuid := r.cues.map fun c => c.id

theorem exists_activeCue {r : Resolver} {id : Uuid} (hid : id ∈ r.ids) (ha : r.active = some id) :
    ∃ c ∈ r.cues, c.id = id ∧ r.activeCue? = some c := by
  obtain ⟨d, hd, he⟩ := List.mem_map.mp hid
  cases hf : r.find? id with
  | none => exact absurd he (by simpa using List.find?_eq_none.mp hf d hd)
  | some c =>
    obtain ⟨hc, hci⟩ := find?_some hf
    exact ⟨c, hc, hci, by simp [activeCue?, ha, hf]⟩

structure Coherent (t : Tolerances) (r : Resolver) : Prop where
  tolerances_eq : r.tolerances = t
  built : Built r.cues
  sorted : r.cues.Pairwise fun c d => c.index ≤ d.index
  active_mem : ∀ id, r.active = some id → id ∈ r.ids
  executed_mem : ∀ id ∈ r.executed, id ∈ r.ids
  active_fresh : ∀ id, r.active = some id → id ∉ r.executed
  flight_active : r.active = none → r.flight = none
  awaiting_idle : r.awaiting = true → r.active = none
  restore_idle : ∀ l, r.restore = some l → r.active = none ∧ l = r.defaults
  waited_le : ∀ f, r.flight = some f → f.waited ≤ r.tolerances.settleTicks

namespace Coherent

variable {t : Tolerances} {r : Resolver}

theorem new (t : Tolerances) : Coherent t { tolerances := t } := by
  refine ⟨rfl, ⟨?_, ?_⟩, ?_, ?_, ?_, ?_, ?_, ?_, ?_, ?_⟩ <;> simp

theorem mem_ids {c : Cue} (hc : c ∈ r.cues) : c.id ∈ r.ids := List.mem_map_of_mem hc

theorem activeCue?_isSome (h : Coherent t r) {id : Uuid} (ha : r.active = some id) :
    ∃ c ∈ r.cues, c.id = id ∧ r.activeCue? = some c :=
  exists_activeCue (h.active_mem id ha) ha

/-! ## Leaving the active cue -/

theorem restoreDefaults (h : Coherent t r) (ha : r.active = none) :
    Coherent t r.restoreDefaults.resolver :=
  { h with restore_idle := by intro l hl; exact ⟨ha, (Option.some.inj hl).symm⟩ }

theorem abandon (h : Coherent t r) : Coherent t { r with active := none, flight := none } :=
  { h with
    active_mem := by simp
    active_fresh := by simp
    flight_active := by simp
    awaiting_idle := by simp
    restore_idle := fun l hl => ⟨rfl, (h.restore_idle l hl).2⟩
    waited_le := by simp }

theorem leave (h : Coherent t r) : Coherent t { r.leave.resolver with flight := none } := by
  have hl := r.left
  generalize r.leave = a at hl ⊢
  cases hl with
  | restored => exact h.abandon.restoreDefaults rfl
  | still ha => simpa [ha] using h.abandon

theorem clear (h : Coherent t r) : Coherent t r.clear.resolver :=
  { h.leave with
    executed_mem := by simp [Resolver.clear]
    active_fresh := by simp [Resolver.clear]
    awaiting_idle := by simp [Resolver.clear] }

theorem passed_mem {now : Seconds} {id : Uuid} (hid : id ∈ r.passed now) : id ∈ r.ids := by
  obtain ⟨c, hc, rfl⟩ := List.mem_map.mp hid
  exact mem_ids (List.mem_filter.mp hc).1

theorem moveTo (h : Coherent t r) (hf : r.flight = none) (now : Seconds) :
    Coherent t (r.moveTo now).resolver := by
  have hl := h.leave
  have hfl : r.leave.resolver.flight = none := r.leave_flight.trans hf
  rw [← hfl] at hl
  exact { hl with
    executed_mem := fun id hid => passed_mem hid
    active_fresh := by simp [Resolver.moveTo, leave_active] }

theorem detect_flight (hf : r.flight = none) (now : Seconds) :
    (r.detect now).resolver.flight = none := by
  have hd := r.detected now
  generalize r.detect now = a at hd ⊢
  cases hd with
  | restarted => rfl
  | moved => exact r.leave_flight.trans hf
  | still => exact hf

theorem detect (h : Coherent t r) (hf : r.flight = none) (now : Seconds) :
    Coherent t (r.detect now).resolver := by
  have hd := r.detected now
  generalize r.detect now = a at hd ⊢
  cases hd with
  | restarted => exact h.clear
  | moved => exact h.moveTo hf now
  | still => exact h

/-! ## Examining the active cue -/

theorem settle (h : Coherent t r) (now : Seconds) :
    match r.settle now with
    | .waiting q => Coherent t q
    | .done q => Coherent t q ∧ q.flight = none := by
  have hs := r.settled now
  generalize r.settle now = o at hs
  cases hs with
  | still hf => exact ⟨h, hf⟩
  | landed f hf hl => exact ⟨{ h with flight_active := by simp, waited_le := by simp }, rfl⟩
  | waiting f hf hl hn hw =>
    have hne : r.active ≠ none := fun ha => by simp [h.flight_active ha] at hf
    exact { h with
      flight_active := fun ha => absurd ha hne
      waited_le := by
        intro g hg
        cases hg
        exact hw }
  | givenUp f hf hl hw => exact ⟨{ h with flight_active := by simp, waited_le := by simp }, rfl⟩

theorem finish (h : Coherent t r) (hf : r.flight = none) {c : Cue} (hc : r.activeCue? = some c) :
    Coherent t (r.finish c) := by
  obtain ⟨hc, ha⟩ := activeCue?_some hc
  exact { h with
    active_mem := by simp [Resolver.finish]
    executed_mem := by
      intro id hid
      rcases mem_retire.mp hid with hid | hid
      · rw [List.mem_singleton.mp hid]
        exact mem_ids hc
      · exact h.executed_mem id hid
    active_fresh := by simp [Resolver.finish]
    flight_active := fun _ => hf
    awaiting_idle := fun _ => rfl
    restore_idle := fun l hl => ⟨rfl, (h.restore_idle l hl).2⟩ }

theorem successor?_some {c next : Cue} (h : r.successor? c = some next) :
    next ∈ r.cues ∧ c.index < next.index ∧ next.id ∉ r.executed := by
  have hp := List.find?_some h
  simp only [Bool.and_eq_true, decide_eq_true_eq, Bool.not_eq_true', List.contains_eq_mem,
    decide_eq_false_iff_not] at hp
  exact ⟨List.mem_of_find?_eq_some h, hp.1, hp.2⟩

theorem skipped_mem {c next : Cue} {id : Uuid} (hid : id ∈ r.skipped c next) :
    id ∈ r.ids ∧ id ≠ next.id := by
  obtain ⟨d, hd, rfl⟩ := List.mem_map.mp hid
  obtain ⟨hd, hp⟩ := List.mem_filter.mp hd
  simp only [Bool.and_eq_true, decide_eq_true_eq] at hp
  exact ⟨mem_ids hd, hp.1.1⟩

/-- What a jump retires is loaded, and does not hold the target. -/
theorem chain_executed {c next : Cue} {now : Seconds} {id : Uuid}
    (hid : id ∈ (r.chain c next now).resolver.executed) :
    id ∈ r.executed ∨ id ∈ r.ids ∧ id ≠ next.id := by
  unfold Resolver.chain at hid
  split at hid
  · rcases mem_retire.mp hid with hid | hid
    · exact .inr (skipped_mem hid)
    · exact .inl hid
  · exact .inl hid

theorem chain (h : Coherent t r) (hw : r.awaiting = false) {c next : Cue} {now : Seconds}
    (hn : r.successor? c = some next) : Coherent t (r.chain c next now).resolver := by
  obtain ⟨hmem, _, hfresh⟩ := successor?_some hn
  have hcues := chain_cues r c next now
  have hids : (r.chain c next now).resolver.ids = r.ids := by rw [ids, hcues, ids]
  have hactive : (r.chain c next now).resolver.active = some next.id := rfl
  constructor
  · exact (chain_tolerances r c next now).trans h.tolerances_eq
  · rw [hcues]
    exact h.built
  · rw [hcues]
    exact h.sorted
  · intro id hid
    rw [hactive] at hid
    rw [← Option.some.inj hid, hids]
    exact mem_ids hmem
  · intro id hid
    rw [hids]
    rcases chain_executed hid with hid | hid
    · exact h.executed_mem id hid
    · exact hid.1
  · intro id hid hex
    rw [hactive] at hid
    cases hid
    rcases chain_executed hex with hex | hex
    · exact hfresh hex
    · exact hex.2 rfl
  · rw [hactive]
    intro hid
    cases hid
  · rw [chain_awaiting, hw]
    intro hf
    cases hf
  · intro l hl
    cases hl
  · intro f hf
    cases hf
    exact Nat.zero_le _

theorem continueActive (h : Coherent t r) (hf : r.flight = none) (s : Snapshot) :
    Coherent t (r.continueActive s).resolver := by
  have hp := r.passage s
  generalize r.continueActive s = o at hp
  cases hp with
  | hold c hc hcov => exact { h with }
  | jump c next hc hcov hm hn =>
    have hw : r.awaiting = false := by
      cases hw : r.awaiting with
      | false => rfl
      | true => exact absurd (h.awaiting_idle hw) (active_of_activeCue? hc)
    exact (h.finish hf hc).chain hw hn
  | pause c seconds hc hcov hm =>
    have hq := (h.finish hf hc).restoreDefaults rfl
    exact { hq with awaiting_idle := fun _ => rfl }
  | finish c hc hcov hm => exact (h.finish hf hc).restoreDefaults rfl
  | lost id ha hc =>
    obtain ⟨c, _, _, hc'⟩ := h.activeCue?_isSome ha
    rw [hc'] at hc
    cases hc
  | rest ha => exact h

/-! ## Outside the cues -/

theorem trackDefaults (h : Coherent t r) (s : Snapshot) : Coherent t (r.trackDefaults s).resolver := by
  have ht := r.defaultsTracked s
  generalize r.trackDefaults s = a at ht ⊢
  cases ht with
  | restored => exact { h with restore_idle := by simp }
  | corrected => exact h
  | taken hr => exact { h with restore_idle := by simp [hr] }

theorem activate (h : Coherent t r) (hw : r.awaiting = false) (now : Seconds) :
    Coherent t (r.activate now).resolver := by
  have hs := r.started now
  generalize r.activate now = a at hs ⊢
  cases hs with
  | begun c hc =>
    obtain ⟨hmem, _, hfresh⟩ := due?_some hc
    exact { h with
      active_mem := by
        intro id hid
        cases hid
        exact mem_ids hmem
      executed_mem := by
        intro id hid
        rcases mem_retire.mp hid with hid | hid
        · obtain ⟨d, hd, rfl, _⟩ := mem_overtaken.mp hid
          exact mem_ids hd
        · exact h.executed_mem id hid
      active_fresh := by
        intro id hid hex
        cases hid
        -- a cue of a lower index has another id
        rcases mem_retire.mp hex with hex | hex
        · obtain ⟨d, hd, hid, hlt, _⟩ := mem_overtaken.mp hex
          have := (h.built.told d hd c hmem hid).1
          omega
        · exact hfresh hex
      flight_active := by simp
      awaiting_idle := by
        intro hf
        change r.awaiting = true at hf
        rw [hw] at hf
        cases hf
      restore_idle := by simp }
  | still => exact h

theorem idle (h : Coherent t r) (quiet : Bool) (s : Snapshot) :
    Coherent t (r.idle quiet s).resolver := by
  unfold Resolver.idle
  simp only [Response.andThen_resolver]
  have htrack : Coherent t (if quiet = true then r.trackDefaults s else ⟨r, []⟩).resolver := by
    split
    · exact h.trackDefaults s
    · exact h
  generalize (if quiet = true then r.trackDefaults s else (⟨r, []⟩ : Response)).resolver = q at htrack
  split
  · exact { htrack with }
  · rename_i hw
    exact { htrack.activate (by simpa using hw) s.time with }

/-! ## Actions -/

theorem atTime (h : Coherent t r) (now : Seconds) : Coherent t { r with last := now } := { h with }

theorem reset (h : Coherent t r) : Coherent t r.reset.resolver := by
  unfold Resolver.reset
  exact h.clear.atTime _

theorem resumeDue (h : Coherent t r) : Coherent t r.resumeDue.resolver := by
  rw [resumeDue_resolver]
  exact { h with awaiting_idle := by simp }

theorem evaluate (h : Coherent t r) (hf : r.flight = none) (s : Snapshot) :
    Coherent t (r.evaluate s).resolver :=
  evaluate_resolver_keeps ((h.detect hf s.time).continueActive (detect_flight hf s.time) s)
    fun quiet _ hq => hq.idle quiet s

theorem tick (h : Coherent t r) (s : Snapshot) : Coherent t (r.tick s).resolver := by
  have hset := h.settle s.time
  have ht := r.ticked s
  generalize r.tick s = a at ht ⊢
  cases ht with
  | renewed => exact h.reset
  | finished => exact { h with }
  | waiting f hs hq =>
    rw [hq] at hset
    exact hset
  | evaluated q hs hq =>
    rw [hq] at hset
    exact hset.1.evaluate hset.2 s

theorem reload (h : Coherent t r) {cues : List Cue} (hb : Built cues)
    (ha : ∀ id, r.active = some id → knows cues id = true)
    (he : ∀ id ∈ r.executed, knows cues id = true) : Coherent t { r with cues := byIndex cues } := by
  have hids : ∀ id, knows cues id = true → id ∈ (byIndex cues).map fun c => c.id := by
    simp [knows]
  have hsorted : (byIndex cues).Pairwise fun c d => decide (c.index ≤ d.index) = true :=
    List.pairwise_mergeSort (by simp only [decide_eq_true_eq]; omega)
      (by simp only [Bool.or_eq_true, decide_eq_true_eq]; omega) cues
  exact { h with
    sorted := hsorted.imp of_decide_eq_true
    built := ⟨fun c hc => hb.built c (mem_byIndex.mp hc),
      fun c hc d hd => hb.told c (mem_byIndex.mp hc) d (mem_byIndex.mp hd)⟩
    active_mem := fun id hid => hids id (ha id hid)
    executed_mem := fun id hid => hids id (he id hid) }

theorem forget (h : Coherent t r) (p : Uuid → Bool) :
    Coherent t { r with executed := r.executed.filter p } :=
  { h with
    executed_mem := fun id hid => h.executed_mem id (List.mem_filter.mp hid).1
    active_fresh := fun id ha hid => h.active_fresh id ha (List.mem_filter.mp hid).1 }

theorem load (h : Coherent t r) {cues : List Cue} (hb : Built cues) :
    Coherent t (r.load cues).resolver := by
  have hkept := h.forget (knows cues)
  have he : ∀ id ∈ r.executed.filter (knows cues), knows cues id = true :=
    fun id hid => (List.mem_filter.mp hid).2
  by_cases ha : r.active.all (knows cues) = true
  · rw [load_kept ha]
    refine hkept.reload hb (fun id hid => ?_) he
    change r.active = some id at hid
    simpa [hid] using ha
  · rw [load_lost ha]
    exact (hkept.abandon.restoreDefaults rfl).reload hb (by simp [Resolver.restoreDefaults]) he

theorem act (h : Coherent t r) {a : Action} (ha : a.Sound) : Coherent t (r.act a).resolver := by
  cases a with
  | load cues => exact h.load ha
  | tick s => exact h.tick s
  | userSeek target =>
    exact moveTo (r := { r with flight := none })
      { h with flight_active := by simp, waited_le := by simp } rfl _
  | resumeDue => exact h.resumeDue
  | reset => exact h.reset
  | endOfMedia => exact h.reset

end Coherent

theorem Reachable.coherent {t : Tolerances} {r : Resolver} (h : Reachable t r) : Coherent t r := by
  induction h with
  | new => exact .new t
  | act a _ ha ih => exact ih.act ha

theorem Coherent.examined {t : Tolerances} {r q : Resolver} {s : Snapshot} (h : Coherent t r)
    (hq : r.examined? s = some q) : Coherent t q := by
  unfold examined? at hq
  split at hq
  · cases hq
  · have hset := h.settle s.time
    split at hq
    · cases hq
    · rename_i p hp
      rw [hp] at hset
      cases hq
      exact hset.1.detect hset.2 s.time

/-- In every reachable state the fields fit together, nothing is active or in flight during the
wait of a pause, and a tick that examines an active cue finds it in the list. -/
theorem invariant_of_reachable {t : Tolerances} {r : Resolver} (h : Reachable t r) :
    Coherent t r ∧ (r.awaiting = true → r.active = none ∧ r.flight = none) ∧
      ∀ s q id, r.examined? s = some q → q.active = some id → ∃ c ∈ q.cues, q.find? id = some c := by
  have hc := h.coherent
  refine ⟨hc, fun hw => ?_, fun s q id hq ha => ?_⟩
  · have hnone := hc.awaiting_idle hw
    exact ⟨hnone, hc.flight_active hnone⟩
  · obtain ⟨c, hmem, _, hfound⟩ := (hc.examined hq).activeCue?_isSome ha
    refine ⟨c, hmem, ?_⟩
    simpa [activeCue?, ha] using hfound

def oneToTwo : CueSpec := ⟨1, 2, 30, 1, .jump⟩

def eightToNine : CueSpec := ⟨8, 9, 70, 1, .natural⟩

def jumping : Resolver :=
  run { tolerances := {}, cues := [oneToTwo.rounded.place 0 0, eightToNine.rounded.place 1 0] }
    [.tick ⟨1, 100, 1, .playing⟩, .tick ⟨2.125, 30, 1, .playing⟩, .tick ⟨2.25, 70, 1, .playing⟩]

theorem jumping_invariant :
    Reachable {} jumping ∧ jumping.flight.isSome = true ∧ jumping.executed ≠ [] ∧
      Coherent {} jumping ∧
      ∀ s q id, jumping.examined? s = some q → q.active = some id →
        ∃ c ∈ q.cues, q.find? id = some c := by
  have hbuilt : Built [oneToTwo.rounded.place 0 0, eightToNine.rounded.place 1 0] :=
    built_pair (by decide +kernel) (by decide +kernel) (by decide +kernel)
  have hr : Reachable {} jumping := (Reachable.loaded {} hbuilt (by decide)).run fun a ha => by
    simp only [List.mem_cons, List.not_mem_nil, or_false] at ha
    rcases ha with rfl | rfl | rfl <;> trivial
  obtain ⟨hc, _, hfound⟩ := invariant_of_reachable hr
  exact ⟨hr, by decide +kernel, by decide +kernel, hc, hfound⟩

end PlaybackCues.Resolver
